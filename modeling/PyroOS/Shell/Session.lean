import PyroOS.Shell.Editor

/-! The editor and the screen together, key by key. -/

namespace PyroOS

open Interaction Kernel TextBuffer

/-- A command may leave any screen and any memory behind; it has no way to change the line or the history. -/
inductive ShellStep (may : Req → Prop) : World → (e : ShellReq) → e.Reply → World → Prop
  | kernel {w t : World} {e : Req} {x : e.Reply} : Transfer may w e x t → ShellStep may w (.kernel e) x t
  | execute {w t : World} {line : ℕ → Byte} {scr scr' : Screen} : ShellStep may w (.execute line scr) scr' t

def ShellAsks (text : List Byte) : ShellReq → Prop
  | .kernel e => VideoReq e
  | .execute line _ => HoldsLine line text

variable {may : Req → Prop} {w : World} {scr : Screen} {ed : Editor} {p : CommandLine} {s line : ℕ → Byte}
  {text pre : List Byte} {c : Byte} {n i : ℕ}

lemma meets_atShell {α : Type} {q : Kernel α} {post : α → World → Prop}
    (h : q.Meets (Transfer may) VideoReq (fun _ => True) post w) :
    (atShell q).Meets (ShellStep may) (ShellAsks text) (fun _ => True) post w := by
  induction q generalizing w with
  | pure a => exact h
  | ask e next ih =>
    obtain ⟨_, he, ⟨x, t, hstep⟩, hnext⟩ := h
    refine ⟨trivial, he, ⟨x, t, .kernel hstep⟩, fun y u hu => ?_⟩
    cases hu with
    | kernel ht => exact ih y (hnext y _ ht)

/-! ### Lines on the screen -/

lemma meets_eraseLine (h : Spelled w scr (pre ++ text)) :
    (eraseLine text.length scr).Meets (Transfer may) VideoReq (fun _ => True) (fun scr' t => Spelled t scr' pre) w := by
  induction text using List.reverseRecOn generalizing w scr with
  | nil => exact ⟨trivial, by rwa [List.append_nil] at h⟩
  | append_singleton text b ih =>
    rw [List.length_append, List.length_singleton, eraseLine]
    rw [← List.append_assoc] at h
    exact Prog.Meets.bind ((meets_kprintChar_back h).mono fun scr' t _ ht => ih ht)

lemma meets_typeFrom (h : HoldsLine s text) (hpre : pre.length ≤ 1000) (hi : i ≤ text.length) (hn : i + n = 127)
    (hline : upTo line i = text.take i) (hs : Spelled w scr (pre ++ text.take i)) :
    (typeFrom s n i line scr).Meets (Transfer may) VideoReq (fun _ => True)
      (fun x t => x.1 = text.length ∧ upTo x.2.1 text.length = text ∧ Spelled t x.2.2 (pre ++ text)) w := by
  have hle := h.length_le
  have hend : i = text.length → upTo line text.length = text ∧ Spelled w scr (pre ++ text) := by
    rintro rfl
    rw [List.take_length] at hline hs
    exact ⟨hline, hs⟩
  induction n generalizing i line scr w with
  | zero =>
    have hlast : i = text.length := by omega
    exact ⟨trivial, hlast, hend hlast⟩
  | succ n ih =>
    rw [typeFrom]
    by_cases hlt : i < text.length
    · have hc := h.plain _ (List.getElem_mem hlt)
      have hlen : (pre ++ text.take i).length < 1920 := by
        rw [List.length_append, List.length_take]
        omega
      rw [if_pos ((h.end_iff hi).mpr hlt), h.spells.1 i hlt]
      refine Prog.Meets.bind ((meets_kprintChar_plain hs hc.2.1 hc.2.2 hlen).mono fun scr' t _ ht => ?_)
      have hline' : upTo (Function.update line i text[i]) (i + 1) = text.take (i + 1) := by
        rw [upTo_write, hline, List.take_append_getElem hlt]
      rw [List.append_assoc, List.take_append_getElem hlt] at ht
      refine ih hlt (by omega) hline' ht ?_
      intro hlast
      rw [hlast, List.take_length] at ht hline'
      exact ⟨hline', ht⟩
    · have hlast : i = text.length := by omega
      rw [if_neg (mt (h.end_iff hi).mp hlt)]
      exact ⟨trivial, hlast, hend hlast⟩

lemma meets_replaceLine (h : Represents ed p) (hs : Spelled w scr (promptText ++ p.line)) (hb : HoldsLine s text) :
    (replaceLine s ed scr).Meets (Transfer may) VideoReq (fun _ => True)
      (fun x t => (∃ line, HoldsLine line text ∧ x.1 = { ed with line := line, lineLen := text.length }) ∧
        Spelled t x.2 (promptText ++ text)) w := by
  rw [replaceLine, h.lineLen]
  refine Prog.Meets.bind ((meets_eraseLine hs).mono fun scr' t _ ht => Prog.Meets.bind ?_)
  refine (meets_typeFrom hb (by decide) (Nat.zero_le _) rfl rfl ?_).mono fun x u _ hu => ⟨trivial, ?_, hu.2.2⟩
  · rw [List.take_zero, List.append_nil]
    exact ht
  · refine ⟨_, ⟨spells_iff.mpr ⟨(upTo_write_of_le le_rfl).trans hu.2.1, Function.update_self ..⟩, hb.length_le,
      hb.plain⟩, ?_⟩
    rw [hu.1]

lemma meets_kprintText_plain (hplain : ∀ c ∈ text, c ≠ 0x0A ∧ c ≠ 0x08) (hlen : pre.length + text.length ≤ 1000)
    (hs : Spelled w scr pre) : (kprintText text scr).Meets (Transfer may) VideoReq (fun _ => True)
      (fun scr' t => Spelled t scr' (pre ++ text)) w := by
  induction text generalizing pre scr w with
  | nil => exact ⟨trivial, by rwa [List.append_nil]⟩
  | cons c text ih =>
    obtain ⟨hc, hrest⟩ := List.forall_mem_cons.mp hplain
    rw [List.length_cons] at hlen
    refine Prog.Meets.bind ((meets_kprintChar_plain hs hc.1 hc.2 (by omega)).mono fun scr' t _ ht => ?_)
    rw [← List.concat_append, List.concat_eq_append]
    exact ih hrest (by rw [List.length_append, List.length_singleton]; omega) ht

lemma meets_prompt : (prompt scr).Meets (Transfer may) VideoReq (fun _ => True)
    (fun scr' t => Spelled t scr' promptText) w := by
  have hplain : ∀ c ∈ promptText, c ≠ 0x0A ∧ c ≠ 0x08 := by decide
  have hlen : promptText.length = 6 := rfl
  have hnil : Spelled w { scr with color := colorGreen } [] := ⟨scr.cursor, rfl, rfl⟩
  refine Prog.Meets.bind ((meets_kprintText_plain hplain ?_ hnil).mono fun scr' t _ ht => ⟨trivial, ht⟩)
  rw [List.length_nil, hlen]
  decide

/-! ### Keys -/

structure Handled (ed : Editor) (p : CommandLine) (c : Byte) (x : Editor × Screen) (t : World) : Prop where
  editor : Represents x.1 (p.key c)
  history : c ≠ 0x0A → x.1.history = ed.history ∧ x.1.histCount = ed.histCount
  screen : Spelled t x.2 (promptText ++ (p.key c).line)

lemma key_up : p.key keyUp = if 0 < p.browse then
    { p with line := p.entries.getD (p.browse - 1) [], browse := p.browse - 1 } else p := if_pos rfl

lemma key_down : p.key keyDown = if p.browse < p.entries.length then
    { p with line := p.entries.getD (p.browse + 1) [], browse := p.browse + 1 } else p := by
  rw [CommandLine.key, if_neg (by decide), if_pos rfl]

lemma key_back : p.key 0x08 = { p with line := p.line.dropLast } := by
  rw [CommandLine.key, if_neg (by decide), if_neg (by decide), if_neg (by decide), if_neg (by decide), if_pos rfl]

lemma Handled.same (h : Represents ed p) (hs : Spelled w scr (promptText ++ p.line)) (hkey : p.key c = p) :
    Handled ed p c (ed, scr) w := by
  refine ⟨?_, fun _ => ⟨rfl, rfl⟩, ?_⟩
  · rw [hkey]
    exact h
  · rw [hkey]
    exact hs

lemma meets_recall (h : Represents ed p) (hs : Spelled w scr (promptText ++ p.line)) (hn : n ≤ p.entries.length)
    (hb : HoldsLine s text) (hkey : p.key c = { p with line := text, browse := n }) :
    (replaceLine s { ed with histBrowse := n } scr).Meets (Transfer may) VideoReq (fun _ => True)
      (Handled ed p c) w := by
  refine (meets_replaceLine (h.browseTo hn) hs hb).mono fun x t _ hx => ?_
  obtain ⟨⟨line, hline, heq⟩, hscreen⟩ := hx
  refine ⟨?_, fun _ => ?_, by rw [hkey]; exact hscreen⟩
  · rw [hkey, heq]
    exact (h.browseTo hn).replaced hline
  · rw [heq]
    exact ⟨rfl, rfl⟩

lemma meets_historyPrev (h : Represents ed p) (hs : Spelled w scr (promptText ++ p.line)) :
    (historyPrev ed scr).Meets (Transfer may) VideoReq (fun _ => True) (Handled ed p keyUp) w := by
  have hbrowse := h.browse
  have hle := h.browse_le
  have hcount := h.count
  rw [historyPrev, hbrowse]
  by_cases hpos : 0 < p.browse
  · rw [if_pos (by omega)]
    exact meets_recall h hs (by omega) (h.getD (by omega)) (key_up.trans (if_pos hpos))
  · rw [if_neg (by omega)]
    exact ⟨trivial, .same h hs (key_up.trans (if_neg hpos))⟩

lemma meets_historyNext (h : Represents ed p) (hs : Spelled w scr (promptText ++ p.line)) :
    (historyNext ed scr).Meets (Transfer may) VideoReq (fun _ => True) (Handled ed p keyDown) w := by
  have hbrowse := h.browse
  have hcount := h.count
  rw [historyNext, hbrowse]
  by_cases hlt : p.browse < p.entries.length
  · rw [if_pos (by omega)]
    refine meets_recall h hs hlt ?_ (key_down.trans (if_pos hlt))
    dsimp only
    split
    · rename_i hlast
      rw [List.getD_eq_default _ _ (by omega)]
      exact ⟨⟨fun i hi => (by cases hi), rfl⟩, Nat.zero_le _, fun c hc => (by cases hc)⟩
    · exact h.getD (by omega)
  · rw [if_neg (by omega)]
    exact ⟨trivial, .same h hs (key_down.trans (if_neg hlt))⟩

lemma meets_enter (h : Represents ed p) :
    (handleChar ed scr 0x0A).Meets (ShellStep may) (ShellAsks p.line) (fun _ => True) (Handled ed p 0x0A) w := by
  have hkey : (p.key 0x0A).line = [] := rfl
  rw [handleChar, if_neg (by decide), if_neg (by decide), if_neg (by decide), if_pos rfl]
  refine Prog.Meets.bind (meets_atShell (meets_kprintChar_newline.mono fun scr' t _ _ => Prog.Meets.bind ?_))
  refine ⟨trivial, ?_, ⟨scr', t, .execute⟩, fun y u _ => ⟨trivial, ?_⟩⟩
  · rw [ShellAsks, historyAdd_line]
    exact h.terminated
  · refine Prog.Meets.bind (meets_atShell (meets_prompt.mono fun scr'' v _ hv => ⟨trivial, h.enter, nofun, ?_⟩))
    rw [hkey, List.append_nil]
    exact hv

lemma meets_back (h : Represents ed p) (hs : Spelled w scr (promptText ++ p.line)) :
    (handleChar ed scr 0x08).Meets (ShellStep may) (ShellAsks p.line) (fun _ => True) (Handled ed p 0x08) w := by
  have hlen := h.lineLen
  rw [handleChar, if_neg (by decide), if_neg (by decide), if_neg (by decide), if_neg (by decide), if_pos rfl]
  by_cases hpos : 0 < ed.lineLen
  · rw [if_pos hpos]
    have hne : p.line ≠ [] := List.length_pos_iff.mp (by omega)
    rw [← List.dropLast_concat_getLast hne, ← List.append_assoc] at hs
    refine Prog.Meets.bind (meets_atShell ((meets_kprintChar_back hs).mono fun scr' t _ ht => ⟨trivial, ?_, ?_, ?_⟩))
    · rw [key_back]
      exact h.back
    · exact fun _ => ⟨rfl, rfl⟩
    · rw [key_back]
      exact ht
  · have hnil : p.line = [] := List.eq_nil_of_length_eq_zero (by omega)
    have hsame : p.key 0x08 = p := by
      rw [key_back, hnil, List.dropLast_nil, ← hnil]
    rw [if_neg hpos]
    exact ⟨trivial, .same h hs hsame⟩

lemma meets_type (h : Represents ed p) (hs : Spelled w scr (promptText ++ p.line)) (hup : c ≠ keyUp)
    (hdown : c ≠ keyDown) (hside : ¬ (c = keyLeft ∨ c = keyRight)) (hc : Plain c) :
    (handleChar ed scr c).Meets (ShellStep may) (ShellAsks p.line) (fun _ => True) (Handled ed p c) w := by
  have hlen := h.lineLen
  have hprompt : promptText.length = 6 := rfl
  have hkey : p.key c = if p.line.length < 127 then { p with line := p.line ++ [c] } else p := by
    rw [CommandLine.key, if_neg hup, if_neg hdown, if_neg hside, if_neg hc.2.1, if_neg hc.2.2]
  rw [handleChar, if_neg hup, if_neg hdown, if_neg hside, if_neg hc.2.1, if_neg hc.2.2, hlen,
    show lineMax - 1 = 127 from rfl]
  by_cases hroom : p.line.length < 127
  · rw [if_pos hroom]
    rw [if_pos hroom] at hkey
    have hshort : (promptText ++ p.line).length < 1920 := by
      rw [List.length_append, hprompt]
      omega
    refine Prog.Meets.bind (meets_atShell ((meets_kprintChar_plain hs hc.2.1 hc.2.2 hshort).mono fun scr' t _ ht =>
      ⟨trivial, ?_, fun _ => ⟨rfl, rfl⟩, ?_⟩))
    · rw [hkey, ← hlen]
      exact h.type hc hroom
    · rw [hkey, ← List.append_assoc]
      exact ht
  · rw [if_neg hroom]
    exact ⟨trivial, .same h hs (hkey.trans (if_neg hroom))⟩

lemma meets_handleChar (h : Represents ed p) (hs : Spelled w scr (promptText ++ p.line)) (hc : c ≠ 0) :
    (handleChar ed scr c).Meets (ShellStep may) (ShellAsks p.line) (fun _ => True) (Handled ed p c) w := by
  by_cases hup : c = keyUp
  · subst hup
    exact meets_atShell (meets_historyPrev h hs)
  by_cases hdown : c = keyDown
  · subst hdown
    exact meets_atShell (meets_historyNext h hs)
  by_cases hside : c = keyLeft ∨ c = keyRight
  · have hkey : p.key c = p := by rw [CommandLine.key, if_neg hup, if_neg hdown, if_pos hside]
    rw [handleChar, if_neg hup, if_neg hdown, if_pos hside]
    exact ⟨trivial, .same h hs hkey⟩
  by_cases hnl : c = 0x0A
  · subst hnl
    exact meets_enter h
  by_cases hback : c = 0x08
  · subst hback
    exact meets_back h hs
  · exact meets_type h hs hup hdown hside ⟨hc, hnl, hback⟩

/-! ### Runs -/

def Editor.current (ed : Editor) : List Byte := upTo ed.line ed.lineLen

structure ShellState where
  editor : Editor
  screen : Screen
  world : World

def ShellState.Key (may : Req → Prop) (s : ShellState) (c : Byte) (s' : ShellState) : Prop :=
  (handleChar s.editor s.screen c).Reaches (ShellStep may) s.world (pure (s'.editor, s'.screen)) s'.world

inductive ShellState.Keys (may : Req → Prop) : ShellState → List Byte → ShellState → Prop
  | nil {s : ShellState} : Keys may s [] s
  | cons {s t u : ShellState} {c : Byte} {cs : List Byte} : s.Key may c t → Keys may t cs u → Keys may s (c :: cs) u

/-- The shell from its first prompt on, wherever that is printed, with the lines that were not empty when they were
entered. -/
inductive ShellRun (may : Req → Prop) : List (List Byte) → ShellState → Prop
  | start {line : ℕ → Byte} {history : ℕ → ℕ → Byte} {scr scr' : Screen} {w w' : World} :
    Ends may (prompt scr) w scr' w' → ShellRun may [] ⟨⟨line, 0, history, 0, 0⟩, scr', w'⟩
  | key {log : List (List Byte)} {s s' : ShellState} {c : Byte} : ShellRun may log s → c ≠ 0 → s.Key may c s' →
    ShellRun may (if c = 0x0A ∧ s.editor.current ≠ [] then log ++ [s.editor.current] else log) s'

def browseKey (count : ℕ) (browse : ℕ) (c : Byte) : ℕ := if c = keyUp then browse - 1 else min (browse + 1) count

variable {st st' : ShellState} {log : List (List Byte)} {ks : List Byte}

structure Faithful (st : ShellState) (p : CommandLine) : Prop where
  editor : Represents st.editor p
  screen : Spelled st.world st.screen (promptText ++ p.line)

lemma Faithful.meets (h : Faithful st p) (hc : c ≠ 0) : (handleChar st.editor st.screen c).Meets (ShellStep may)
    (ShellAsks p.line) (fun _ => True) (Handled st.editor p c) st.world :=
  meets_handleChar h.editor h.screen hc

lemma Faithful.key (h : Faithful st p) (hc : c ≠ 0) (hk : st.Key may c st') : Faithful st' (p.key c) :=
  have hx := (h.meets hc).result hk
  ⟨hx.editor, hx.screen⟩

lemma Faithful.exists_key (h : Faithful st p) (hc : c ≠ 0) : ∃ st', st.Key may c st' ∧ Faithful st' (p.key c) := by
  have hm : (handleChar st.editor st.screen c).Meets (ShellStep may) (ShellAsks p.line) (fun _ => True)
      (Handled st.editor p c) st.world := h.meets hc
  obtain ⟨x, t, hk, -⟩ := hm.returns
  have hkey : st.Key may c ⟨x.1, x.2, t⟩ := hk
  exact ⟨_, hkey, h.key hc hkey⟩

lemma Faithful.keys (h : Faithful st p) (hks : ∀ c ∈ ks, c ≠ 0) (hk : st.Keys may ks st') :
    Faithful st' (ks.foldl CommandLine.key p) := by
  induction hk generalizing p with
  | nil => exact h
  | cons hkey _ ih =>
    obtain ⟨hc, hcs⟩ := List.forall_mem_cons.mp hks
    exact ih (h.key hc hkey) hcs

lemma recent_concat (l : List (List Byte)) (x : List Byte) : recent (recent l ++ [x]) = recent (l ++ [x]) := by
  have hlen : (recent l).length = l.length - (l.length - 16) := List.length_drop ..
  by_cases hshort : l.length ≤ 15
  · rw [show recent l = l by rw [recent, show l.length - 16 = 0 by omega, List.drop_zero]]
  · have hone : (recent l ++ [x]).length - 16 = 1 := by
      rw [List.length_append, List.length_singleton, hlen]
      omega
    have hall : (l ++ [x]).length - 16 = l.length - 16 + 1 := by
      rw [List.length_append, List.length_singleton]
      omega
    change (recent l ++ [x]).drop _ = (l ++ [x]).drop _
    rw [hone, hall, List.drop_append_of_le_length (by omega), List.drop_append_of_le_length (by omega), recent,
      List.drop_drop]

lemma key_entries (hc : c ≠ 0x0A) : (p.key c).entries = p.entries := by
  rw [CommandLine.key, if_neg hc]
  split_ifs <;> rfl

lemma ShellRun.faithful (h : ShellRun may log st) : ∃ p, Faithful st p ∧ p.entries = recent log := by
  induction h with
  | start hp =>
    refine ⟨⟨[], [], 0⟩, ⟨⟨rfl, Nat.zero_le _, nofun, rfl, Nat.zero_le _, rfl, le_rfl, nofun⟩, ?_⟩, rfl⟩
    exact meets_prompt.result hp
  | @key log s s' c _ hc hk ih =>
    obtain ⟨p, hp, hentries⟩ := ih
    refine ⟨p.key c, hp.key hc hk, ?_⟩
    have hcur : s.editor.current = p.line := hp.editor.line
    rw [hcur]
    by_cases hnl : c = 0x0A
    · subst hnl
      have henter : (p.key 0x0A).entries = if p.line = [] then p.entries else recent (p.entries ++ [p.line]) := rfl
      rw [henter]
      by_cases hline : p.line = []
      · rw [if_pos hline, if_neg (fun hx => hx.2 hline), hentries]
      · rw [if_neg hline, if_pos ⟨rfl, hline⟩, hentries]
        exact recent_concat log p.line
    · rw [if_neg (fun hx => hnl hx.1), key_entries hnl, hentries]

/-! ### The history -/

def CommandLine.Recalled (p : CommandLine) : Prop := p.line = p.entries.getD p.browse [] ∧ p.browse ≤ p.entries.length

lemma CommandLine.Recalled.arrow (h : p.Recalled) (hc : c = keyUp ∨ c = keyDown) : (p.key c).Recalled ∧
    (p.key c).entries = p.entries ∧ (p.key c).browse = browseKey p.entries.length p.browse c := by
  have hle := h.2
  rcases hc with rfl | rfl
  · rw [key_up, browseKey, if_pos rfl]
    split
    · exact ⟨⟨rfl, by dsimp only; omega⟩, rfl, rfl⟩
    · exact ⟨h, rfl, by omega⟩
  · have hne : keyDown ≠ keyUp := by decide
    rw [key_down, browseKey, if_neg hne]
    split
    · exact ⟨⟨rfl, by dsimp only; omega⟩, rfl, by dsimp only; omega⟩
    · exact ⟨h, rfl, by omega⟩

lemma CommandLine.Recalled.arrows (h : p.Recalled) (hks : ∀ c ∈ ks, c = keyUp ∨ c = keyDown) :
    (ks.foldl CommandLine.key p).Recalled ∧ (ks.foldl CommandLine.key p).entries = p.entries ∧
      (ks.foldl CommandLine.key p).browse = ks.foldl (browseKey p.entries.length) p.browse := by
  induction ks generalizing p with
  | nil => exact ⟨h, rfl, rfl⟩
  | cons c ks ih =>
    obtain ⟨hc, hcs⟩ := List.forall_mem_cons.mp hks
    obtain ⟨hr, he, hb⟩ := h.arrow hc
    obtain ⟨hr', he', hb'⟩ := ih hr hcs
    exact ⟨hr', he'.trans he, by rw [List.foldl_cons, List.foldl_cons, hb', he, hb]⟩

lemma recalled_enter (p : CommandLine) : (p.key 0x0A).Recalled :=
  ⟨(List.getD_eq_default _ _ le_rfl).symm, le_rfl⟩

lemma asks_execute (ed : Editor) (scr : Screen) (w : World) :
    ∃ line scr', (handleChar ed scr 0x0A).Asks (ShellStep may) w (.execute line scr') := by
  have hnl : (atShell (kprintChar scr 0x0A)).Meets (ShellStep may) (ShellAsks []) (fun _ => True) (fun _ _ => True) w :=
    meets_atShell meets_kprintChar_newline
  obtain ⟨scr', t, hr, -⟩ := hnl.returns
  rw [handleChar, if_neg (by decide), if_neg (by decide), if_neg (by decide), if_pos rfl]
  exact ⟨_, scr', _, t, hr.bind .here⟩

/-- The history is a window on the lines that were entered, the arrow keys recall its entries, and Enter executes the line
that is there; nothing but Enter changes an entry. -/
theorem history_window (h : ShellRun may log st) :
    (st.editor.histCount = min 16 log.length ∧ ∀ j < st.editor.histCount, ∃ text,
      log[log.length - st.editor.histCount + j]? = some text ∧ HoldsLine (st.editor.history j) text) ∧
    st.editor.lineLen ≤ 127 ∧ st.editor.histBrowse ≤ st.editor.histCount ∧ st.editor.histCount ≤ 16 ∧
    ((∃ line scr, (handleChar st.editor st.screen 0x0A).Asks (ShellStep may) st.world (.execute line scr)) ∧
      ∀ line scr, (handleChar st.editor st.screen 0x0A).Asks (ShellStep may) st.world (.execute line scr) →
        HoldsLine line st.editor.current) ∧
    (∀ c st', c ≠ 0 → c ≠ 0x0A → st.Key may c st' →
      st'.editor.history = st.editor.history ∧ st'.editor.histCount = st.editor.histCount) ∧
    ∀ ks st', (∀ c ∈ ks, c = keyUp ∨ c = keyDown) → st.Keys may (0x0A :: ks) st' →
      st'.editor.histBrowse = ks.foldl (browseKey st'.editor.histCount) st'.editor.histCount ∧
      (st'.editor.histBrowse = st'.editor.histCount → st'.editor.current = []) ∧
      (st'.editor.histBrowse < st'.editor.histCount →
        HoldsLine (st'.editor.history st'.editor.histBrowse) st'.editor.current) := by
  obtain ⟨p, hp, hentries⟩ := h.faithful
  have hcount := hp.editor.count
  have hcur : st.editor.current = p.line := hp.editor.line
  have hlen : p.entries.length = min 16 log.length := by
    rw [hentries, recent, List.length_drop]
    omega
  refine ⟨⟨hcount.trans hlen, fun j hj => ?_⟩, ?_, ?_, ?_, ⟨asks_execute _ _ _, fun line scr ha => ?_⟩,
    fun c st' hc hnl hk => ((hp.meets hc).result hk).history hnl, fun ks st' hks hk => ?_⟩
  · have hlt : j < p.entries.length := by omega
    refine ⟨p.entries[j], ?_, hp.editor.entry j _ (List.getElem?_eq_getElem hlt)⟩
    have hdrop : p.entries[j]? = log[log.length - 16 + j]? := by rw [hentries, recent, List.getElem?_drop]
    rw [← List.getElem?_eq_getElem hlt, hdrop]
    congr 1
    omega
  · rw [hp.editor.lineLen]
    exact hp.editor.line_le
  · rw [hp.editor.browse, hcount]
    exact hp.editor.browse_le
  · rw [hcount]
    exact hp.editor.count_le
  · rw [hcur]
    exact (hp.meets (by decide)).asks ha
  · have hne : ∀ c ∈ ks, c ≠ 0 := by
      intro c hc
      rcases hks c hc with rfl | rfl <;> decide
    have hst := hp.keys (List.forall_mem_cons.mpr ⟨by decide, hne⟩) hk
    rw [List.foldl_cons] at hst
    obtain ⟨⟨hline, hle⟩, he, hb⟩ := (recalled_enter p).arrows hks
    generalize ks.foldl CommandLine.key (p.key 0x0A) = q at hst hline hle he hb
    have hq : st'.editor.histCount = q.entries.length := hst.editor.count
    have hcur' : st'.editor.current = q.line := hst.editor.line
    have hstart : (p.key 0x0A).browse = (p.key 0x0A).entries.length := rfl
    rw [hst.editor.browse, hq, hcur']
    refine ⟨by rw [hb, hstart, he], fun hend => ?_, fun hlt => ?_⟩
    · rw [hline, List.getD_eq_default _ _ hend.ge]
    · rw [hline]
      exact hst.editor.getD hlt

lemma exists_start : ∃ st, ShellRun (fun _ => False) [] st ∧ Faithful st ⟨[], [], 0⟩ := by
  have hm : (prompt ⟨1999, 0x0F, by decide⟩).Meets (Transfer fun _ => False) VideoReq (fun _ => True)
      (fun scr t => Spelled t scr promptText) ⟨fun _ => 0, fun _ _ => 0, 0, 0⟩ := meets_prompt
  obtain ⟨scr, t, hr, hs⟩ := hm.returns
  exact ⟨⟨⟨fun _ => 0, 0, fun _ _ => 0, 0, 0⟩, scr, t⟩, .start hr,
    ⟨rfl, Nat.zero_le _, nofun, rfl, Nat.zero_le _, rfl, le_rfl, nofun⟩, hs⟩

def typed (x : CommandLine × List (List Byte)) (c : Byte) : CommandLine × List (List Byte) :=
  (x.1.key c, if c = 0x0A ∧ x.1.line ≠ [] then x.2 ++ [x.1.line] else x.2)

lemma ShellRun.exists_keys (h : ShellRun may log st) (hf : Faithful st p) (ks : List Byte) (hks : ∀ c ∈ ks, c ≠ 0) :
    ∃ st', st.Keys may ks st' ∧ ShellRun may (ks.foldl typed (p, log)).2 st' ∧
      Faithful st' (ks.foldl typed (p, log)).1 := by
  induction ks generalizing st p log with
  | nil => exact ⟨st, .nil, h, hf⟩
  | cons c ks ih =>
    obtain ⟨hc, hcs⟩ := List.forall_mem_cons.mp hks
    obtain ⟨st₁, hk, hf₁⟩ : ∃ st₁, st.Key may c st₁ ∧ _ := hf.exists_key hc
    have hcur : st.editor.current = p.line := hf.editor.line
    have h₁ := ShellRun.key h hc hk
    rw [hcur] at h₁
    obtain ⟨st', hks', hrun, hf'⟩ := ih h₁ hf₁ hcs
    exact ⟨st', .cons hk hks', hrun, hf'⟩

theorem history_window_recall : ∃ st st', ShellRun (fun _ => False) [[0x61]] st ∧
    st.Keys (fun _ => False) [0x0A, keyUp, keyUp, keyDown] st' ∧ st'.editor.histCount = 2 ∧ st'.editor.histBrowse = 1 ∧
    HoldsLine (st'.editor.history 1) st'.editor.current := by
  obtain ⟨st₀, h₀, hf₀⟩ := exists_start
  obtain ⟨st, -, h, hf⟩ := h₀.exists_keys hf₀ [0x61, 0x0A, 0x62] (by decide)
  obtain ⟨st', hk, -, hf'⟩ := h.exists_keys hf [0x0A, keyUp, keyUp, keyDown] (by decide)
  obtain ⟨-, -, -, -, -, -, hrecall⟩ := history_window h
  have hcount : st'.editor.histCount = 2 := hf'.editor.count
  obtain ⟨hbrowse, -, hline⟩ := hrecall [keyUp, keyUp, keyDown] st' (by decide) hk
  rw [hcount] at hbrowse hline
  have hone : st'.editor.histBrowse = 1 := hbrowse
  rw [hone] at hline
  exact ⟨st, st', h, hk, hcount, hone, hline (by decide)⟩

/-! ### The screen -/

/-- Before the cursor stand the prompt and the line, and nothing but the 4000 bytes of the screen is accessed. -/
theorem screen_shows_line (h : ShellRun may log st) :
    (st.screen.cursor < 2000 ∧ ∃ start, start + 6 + st.editor.lineLen = st.screen.cursor ∧
      upTo (fun i => cell st.world (start + i)) 6 = ascii "pyro> " ∧
      upTo (fun i => cell st.world (start + 6 + i)) st.editor.lineLen = st.editor.current) ∧
    ∀ c, c ≠ 0 → (handleChar st.editor st.screen c).Terminates (ShellStep may) st.world ∧
      ∀ e, (handleChar st.editor st.screen c).Asks (ShellStep may) st.world (.kernel e) → VideoReq e := by
  obtain ⟨p, hp, -⟩ := h.faithful
  have hcur : st.editor.current = p.line := hp.editor.line
  have hprompt : promptText.length = 6 := rfl
  refine ⟨⟨st.screen.cursor_lt, ?_⟩, fun c hc => ⟨(hp.meets hc).terminates, fun e ha => (hp.meets hc).asks ha⟩⟩
  obtain ⟨start, hstart, htext⟩ := hp.screen
  rw [List.length_append, hprompt] at hstart htext
  rw [upTo_add] at htext
  obtain ⟨hfirst, hline⟩ := List.append_inj htext (by rw [upTo_length, hprompt])
  refine ⟨start, by rw [hp.editor.lineLen]; omega, hfirst, ?_⟩
  rw [hp.editor.lineLen, hcur, ← hline, upTo_length]
  exact upTo_congr fun i _ => congrArg (cell st.world) (Nat.add_assoc ..)

theorem screen_shows_line_recall : ∃ st, ShellRun (fun _ => False) [ascii "ls"] st ∧ st.editor.current = ascii "ls" ∧
    ∃ start, start + 8 = st.screen.cursor ∧ upTo (fun i => cell st.world (start + i)) 6 = ascii "pyro> " ∧
      upTo (fun i => cell st.world (start + 6 + i)) 2 = ascii "ls" := by
  obtain ⟨st₀, h₀, hf₀⟩ := exists_start
  obtain ⟨st, -, h, hf⟩ := h₀.exists_keys hf₀ [0x6C, 0x73, 0x0A, keyUp, 0x78, 0x08] (by decide)
  have hlen : st.editor.lineLen = 2 := hf.editor.lineLen
  have hcur : st.editor.current = ascii "ls" := hf.editor.line
  obtain ⟨start, hstart, hprompt, hline⟩ := (screen_shows_line h).1.2
  rw [hlen] at hstart hline
  exact ⟨st, h, hcur, start, hstart, hprompt, hline.trans hcur⟩

end PyroOS
