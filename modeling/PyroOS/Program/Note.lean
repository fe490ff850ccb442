import PyroOS.Library.TextBuffer
import PyroOS.Memory.Word

/-! The input loop of `note`, and the text it has accepted. -/

namespace PyroOS

open TextBuffer

inductive Reading (α : Type) where
  | more (s : α)
  | left (s : α)

def feed {α : Type} (step : α → Byte → Reading α) : α → List Byte → Reading α
  | s, [] => .more s
  | s, c :: cs =>
    match step s c with
    | .more t => feed step t cs
    | .left t => .left t

def bodySize : ℕ := 2048

structure Note where
  body : ℕ → Byte
  len : ℕ
  lineStart : ℕ
  echo : List Byte

def noteStart : Note := ⟨fun _ => 0, 0, 0, []⟩

def Note.putChar (s : Note) (c : Byte) : Note := { s with echo := s.echo ++ [c] }

def Note.key (s : Note) (c : Byte) : Reading Note :=
  if c = 0x0A ∨ c = 0x0D then
    if s.len - s.lineStart = 1 ∧ s.body s.lineStart = 0x2E then .left { s with len := s.lineStart }
    else
      let s := if s.len < bodySize - 1 then
          { s with body := Function.update s.body s.len 0x0A, len := s.len + 1 }.putChar 0x0A
        else s
      .more { s with lineStart := s.len }
  else if c = 0x08 then
    if s.lineStart < s.len then .more ({ s with len := s.len - 1 }.putChar 0x08) else .more s
  else if s.len < bodySize - 1 then
    .more ({ s with body := Function.update s.body s.len c, len := s.len + 1 }.putChar c)
  else .more s

structure Draft where
  lines : List Byte
  line : List Byte

def Draft.text (d : Draft) : List Byte := d.lines ++ d.line

/-- A line that is a single dot ends the text and is not a part of it. No more than 2047 characters are accepted. -/
def Draft.key (d : Draft) (c : Byte) : Reading Draft :=
  if c = 0x0A ∨ c = 0x0D then
    if d.line = [0x2E] then .left ⟨d.lines, []⟩
    else if d.text.length < 2047 then .more ⟨d.text ++ [0x0A], []⟩
    else .more ⟨d.text, []⟩
  else if c = 0x08 then .more ⟨d.lines, d.line.dropLast⟩
  else if d.text.length < 2047 then .more ⟨d.lines, d.line ++ [c]⟩
  else .more d

variable {s t : Note} {d e : Draft} {c : Byte} {ks : List Byte}

structure Note.Stores (s : Note) (d : Draft) : Prop where
  text : upTo s.body s.len = d.text
  lines : s.lineStart = d.lines.length
  len_le : s.len ≤ 2047

lemma Note.Stores.len (h : s.Stores d) : s.len = d.lines.length + d.line.length := by
  simpa [Draft.text] using congrArg List.length h.text

lemma Note.Stores.dot_iff (h : s.Stores d) :
    s.len - s.lineStart = 1 ∧ s.body s.lineStart = 0x2E ↔ d.line = [0x2E] := by
  have hlen := h.len
  have hstart := h.lines
  constructor
  · rintro ⟨hone, hdot⟩
    obtain ⟨x, hx⟩ := List.length_eq_one_iff.mp (show d.line.length = 1 by omega)
    have htext := h.text
    rw [Draft.text, hx] at htext
    have hread := upTo_eq_append_singleton htext
    rw [hx, ← hread, ← hstart, hdot]
  · intro hdot
    have htext := h.text
    rw [Draft.text, hdot] at htext
    rw [hdot, List.length_singleton] at hlen
    exact ⟨by omega, by rw [hstart]; exact upTo_eq_append_singleton htext⟩

def Reading.Matches : Reading Note → Reading Draft → Prop
  | .more s, .more d => s.Stores d
  | .left s, .left d => s.Stores d
  | _, _ => False

lemma Note.Stores.key (h : s.Stores d) (c : Byte) : Reading.Matches (s.key c) (d.key c) := by
  have hlen := h.len
  have hstart := h.lines
  have hle := h.len_le
  have htext : d.text.length = s.len := by rw [← h.text, upTo_length]
  have hsize : bodySize - 1 = 2047 := rfl
  rw [Note.key, Draft.key, htext, hsize]
  by_cases hnl : c = 0x0A ∨ c = 0x0D
  · rw [if_pos hnl, if_pos hnl]
    by_cases hdot : d.line = [0x2E]
    · -- the dot goes, the ended lines stay
      rw [if_pos (h.dot_iff.mpr hdot), if_pos hdot]
      refine ⟨?_, hstart, by simp only; omega⟩
      have hone : d.line.length = 1 := by rw [hdot]; rfl
      have hpred := upTo_pred (b := s.body) (n := s.len)
      rw [h.text, Draft.text, hdot, List.dropLast_concat, show s.len - 1 = s.lineStart by omega] at hpred
      rw [Draft.text, List.append_nil]
      exact hpred
    · rw [if_neg (mt h.dot_iff.mp hdot), if_neg hdot]
      by_cases hroom : s.len < 2047
      · rw [if_pos hroom, if_pos hroom]
        refine ⟨?_, ?_, by simp only [Note.putChar]; omega⟩
        · rw [Draft.text, List.append_nil, ← h.text]
          exact upTo_write
        · simp [Note.putChar, htext]
      · rw [if_neg hroom, if_neg hroom]
        refine ⟨?_, htext.symm, hle⟩
        rw [Draft.text, List.append_nil]
        exact h.text
  · rw [if_neg hnl, if_neg hnl]
    by_cases hback : c = 0x08
    · rw [if_pos hback, if_pos hback]
      by_cases hsome : s.lineStart < s.len
      · rw [if_pos hsome]
        have hne : d.line ≠ [] := fun hnil => by
          rw [hnil, List.length_nil] at hlen
          omega
        refine ⟨?_, hstart, by simp only [Note.putChar]; omega⟩
        rw [Draft.text, ← List.dropLast_append_of_ne_nil hne]
        exact upTo_pred.trans (congrArg List.dropLast h.text)
      · have hnil : d.line = [] := List.eq_nil_of_length_eq_zero (by omega)
        rw [if_neg hsome, hnil]
        exact ⟨by rw [h.text, Draft.text, hnil]; rfl, hstart, hle⟩
    · rw [if_neg hback, if_neg hback]
      by_cases hroom : s.len < 2047
      · rw [if_pos hroom, if_pos hroom]
        refine ⟨?_, hstart, by simp only [Note.putChar]; omega⟩
        rw [Draft.text, ← List.append_assoc]
        exact upTo_write.trans (congrArg (· ++ [c]) h.text)
      · rw [if_neg hroom, if_neg hroom]
        exact h

lemma Note.Stores.feed (h : s.Stores d) (ks : List Byte) :
    Reading.Matches (feed Note.key s ks) (feed Draft.key d ks) := by
  induction ks generalizing s d with
  | nil => exact h
  | cons c ks ih =>
    have hkey := h.key c
    rw [PyroOS.feed, PyroOS.feed]
    cases hs : s.key c with
    | more t =>
      cases hd : d.key c with rw [hs, hd] at hkey
      | more e => exact ih hkey
      | left e => exact hkey.elim
    | left t =>
      cases hd : d.key c with rw [hs, hd] at hkey
      | more e => exact hkey.elim
      | left e => exact hkey

lemma noteStart_stores : noteStart.Stores ⟨[], []⟩ := ⟨rfl, rfl, Nat.zero_le _⟩

def dotLine : List Byte := [0x0A, 0x2E, 0x0A]

lemma Draft.key_newline (hline : d.line ≠ [0x2E]) :
    d.key 0x0A = .more (if d.text.length < 2047 then ⟨d.text ++ [0x0A], []⟩ else ⟨d.text, []⟩) := by
  rw [Draft.key, if_pos (.inl rfl), if_neg hline]
  split <;> rfl

lemma Draft.feed_dotLine_of_lt (hline : d.line ≠ [0x2E]) (h : d.text.length ≤ 2045) :
    feed Draft.key d dotLine = .left ⟨d.text ++ [0x0A], []⟩ := by
  have hdot : Draft.key ⟨d.text ++ [0x0A], []⟩ 0x2E = .more ⟨d.text ++ [0x0A], [0x2E]⟩ := by
    rw [Draft.key, if_neg (by decide), if_neg (by decide), if_pos (by simp [Draft.text] at h ⊢; omega)]
    rfl
  simp only [dotLine, feed, Draft.key_newline hline, if_pos (show d.text.length < 2047 by omega), hdot]
  rfl

def Draft.Stuck (d : Draft) : Prop := d.line = [] ∧ 2047 ≤ d.lines.length

lemma Draft.Stuck.key (h : d.Stuck) (c : Byte) : d.key c = .more d := by
  obtain ⟨hline, hlen⟩ := h
  obtain ⟨lines, line⟩ := d
  obtain rfl : line = [] := hline
  have hroom : ¬ (Draft.text ⟨lines, []⟩).length < 2047 := by simpa [Draft.text] using hlen
  rw [Draft.key]
  by_cases hnl : c = 0x0A ∨ c = 0x0D
  · rw [if_pos hnl, if_neg (List.cons_ne_nil _ _).symm, if_neg hroom, Draft.text, List.append_nil]
  · rw [if_neg hnl, if_neg hroom]
    exact ite_self _

lemma Draft.Stuck.feed (h : d.Stuck) (ks : List Byte) : feed Draft.key d ks = .more d := by
  induction ks with
  | nil => rfl
  | cons c ks ih => rw [PyroOS.feed, h.key c]; exact ih

lemma Draft.feed_dotLine_of_le (hline : d.line ≠ [0x2E]) (h : 2046 ≤ d.text.length) (ks : List Byte) :
    ∃ e, feed Draft.key d (dotLine ++ ks) = .more e := by
  have hstuck : (if d.text.length < 2047 then ⟨d.text ++ [0x0A], []⟩ else ⟨d.text, []⟩ : Draft).Stuck := by
    split
    · exact ⟨rfl, by simp only [List.length_append, List.length_singleton]; omega⟩
    · exact ⟨rfl, by simp only; omega⟩
  have hfirst : feed Draft.key d (dotLine ++ ks) = feed Draft.key
      (if d.text.length < 2047 then ⟨d.text ++ [0x0A], []⟩ else ⟨d.text, []⟩) ([0x2E, 0x0A] ++ ks) := by
    rw [dotLine, List.cons_append, feed, Draft.key_newline hline]
  exact ⟨_, hfirst.trans (hstuck.feed _)⟩

lemma Reading.Matches.of_more {r : Reading Draft} (h : Reading.Matches (.more t) r) : ∃ e, r = .more e ∧ t.Stores e := by
  cases r with
  | more e => exact ⟨e, rfl, h⟩
  | left e => exact h.elim

lemma Reading.Matches.left {r : Reading Note} (h : Reading.Matches r (.left e)) : ∃ t, r = .left t ∧ t.Stores e := by
  cases r with
  | more t => exact h.elim
  | left t => exact ⟨t, rfl, h⟩

/-- The body always holds the accepted text. A line with a dot ends the loop exactly if two bytes are free behind the
newline, or such a line has been typed already. -/
theorem note_left_iff (h : feed Note.key noteStart ks = .more s) :
    s.len ≤ 2047 ∧ ∃ d, feed Draft.key ⟨[], []⟩ ks = .more d ∧ upTo s.body s.len = d.text ∧
      ((∃ t, feed Note.key s dotLine = .left t ∧ t.len ≤ 2047 ∧
        upTo t.body t.len = if d.line = [0x2E] then d.lines else d.text ++ [0x0A]) ↔ s.len ≤ 2045 ∨ d.line = [0x2E]) := by
  have hagree := noteStart_stores.feed ks
  rw [h] at hagree
  obtain ⟨d, hd, hs⟩ := hagree.of_more
  have hlen : s.len = d.text.length := by rw [← hs.text, upTo_length]
  refine ⟨hs.len_le, d, hd, hs.text, ?_, ?_⟩
  · rintro ⟨t, ht, -⟩
    by_contra hno
    push Not at hno
    obtain ⟨e, he⟩ := Draft.feed_dotLine_of_le hno.2 (by omega) []
    have hleft := hs.feed dotLine
    rw [ht, show feed Draft.key d dotLine = .more e from he] at hleft
    exact hleft
  · intro hroom
    have hend : feed Draft.key d dotLine = .left ⟨if d.line = [0x2E] then d.lines else d.text ++ [0x0A], []⟩ := by
      by_cases hline : d.line = [0x2E]
      · rw [if_pos hline, dotLine, feed, Draft.key, if_pos (.inl rfl), if_pos hline]
      · rw [if_neg hline]
        exact Draft.feed_dotLine_of_lt hline (by rw [← hlen]; exact hroom.resolve_right hline)
    have hleft := hs.feed dotLine
    rw [hend] at hleft
    obtain ⟨t, ht, hst⟩ := hleft.left
    refine ⟨t, ht, hst.len_le, ?_⟩
    rw [hst.text, Draft.text, List.append_nil]

theorem note_left_iff_lines : ∃ s t, feed Note.key noteStart [0x68, 0x69, 0x0A, 0x78, 0x08, 0x79] = .more s ∧
    feed Note.key s dotLine = .left t ∧ t.len ≤ 2047 ∧ upTo t.body t.len = [0x68, 0x69, 0x0A, 0x79, 0x0A] := by
  obtain ⟨s, h, hlen⟩ : ∃ s, feed Note.key noteStart [0x68, 0x69, 0x0A, 0x78, 0x08, 0x79] = .more s ∧ s.len = 4 :=
    ⟨_, rfl, rfl⟩
  obtain ⟨-, d, hd, -, hiff⟩ := note_left_iff h
  have hdraft : feed Draft.key ⟨[], []⟩ [0x68, 0x69, 0x0A, 0x78, 0x08, 0x79] = .more ⟨[0x68, 0x69, 0x0A], [0x79]⟩ := rfl
  obtain rfl := Reading.more.inj (hd.symm.trans hdraft)
  obtain ⟨t, ht, hle, htext⟩ := hiff.mpr (.inl (by omega))
  exact ⟨s, t, h, ht, hle, htext⟩

/-! ### A full body -/

lemma Draft.typed {n : ℕ} (hc : c ≠ 0x0A ∧ c ≠ 0x0D ∧ c ≠ 0x08) (hn : d.text.length + n ≤ 2047) :
    PyroOS.feed Draft.key d (List.replicate n c) = .more ⟨d.lines, d.line ++ List.replicate n c⟩ := by
  induction n generalizing d with
  | zero => simp [PyroOS.feed]
  | succ n ih =>
    have hkey : d.key c = .more ⟨d.lines, d.line ++ [c]⟩ := by
      rw [Draft.key, if_neg (by tauto), if_neg hc.2.2, if_pos (by omega)]
    rw [List.replicate_succ, PyroOS.feed, hkey]
    have hlen : (Draft.text ⟨d.lines, d.line ++ [c]⟩).length + n ≤ 2047 := by
      simp only [Draft.text, List.length_append, List.length_singleton] at hn ⊢
      omega
    refine (ih hlen).trans ?_
    simp

lemma Draft.never_left (h : PyroOS.feed Draft.key ⟨[], []⟩ ks = .more d) (hline : d.line ≠ [0x2E])
    (hfull : 2046 ≤ d.text.length) :
    ∃ s, PyroOS.feed Note.key noteStart ks = .more s ∧ ∀ ks' t, PyroOS.feed Note.key s (dotLine ++ ks') ≠ .left t := by
  have hagree := noteStart_stores.feed ks
  rw [h] at hagree
  cases hs : PyroOS.feed Note.key noteStart ks with rw [hs] at hagree
  | left s => exact hagree.elim
  | more s =>
    have hstores : s.Stores d := hagree
    refine ⟨s, rfl, fun ks' t ht => ?_⟩
    obtain ⟨e, he⟩ := Draft.feed_dotLine_of_le hline hfull ks'
    have hend := hstores.feed (dotLine ++ ks')
    rw [ht, he] at hend
    exact hend

/-- After 2046 letters, newline, dot and newline do not end the loop, and nothing typed after them does. -/
theorem note_never_left : ∃ s, feed Note.key noteStart (List.replicate 2046 0x61) = .more s ∧
    ∀ ks t, feed Note.key s (dotLine ++ ks) ≠ .left t := by
  have hlen : ∀ c : Byte, (List.replicate 2046 c).length = 2046 := fun c => List.length_replicate
  refine Draft.never_left (Draft.typed (by decide) (by decide)) (fun heq => ?_) ?_
  · have hone := congrArg List.length heq
    rw [List.nil_append, hlen, List.length_singleton] at hone
    omega
  · rw [Draft.text, List.nil_append, List.nil_append, hlen]

end PyroOS
