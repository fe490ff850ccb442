import PyroOS.Launch.Exec
import PyroOS.Machine.Cells
import PyroOS.Machine.Scancodes

/-! The line that is typed at the prompt, and the history that the arrow keys recall. -/

namespace PyroOS

open Interaction Kernel TextBuffer

def histMax : ℕ := 16
def colorGreen : Byte := 0x0A

structure Editor where
  line : ℕ → Byte
  lineLen : ℕ
  history : ℕ → ℕ → Byte
  histCount : ℕ
  histBrowse : ℕ

/-- The loop of `copy_line` from `i` on, with the rounds that the bound leaves. -/
def copyFrom (src : ℕ → Byte) : ℕ → ℕ → (ℕ → Byte) → ℕ → Byte
  | 0, i, dst => Function.update dst i 0
  | n + 1, i, dst =>
    if src i ≠ 0 then copyFrom src n (i + 1) (Function.update dst i (src i)) else Function.update dst i 0

def copyLine (dst src : ℕ → Byte) : ℕ → Byte := copyFrom src (lineMax - 1) 0 dst

def shiftHistory (n : ℕ) (history : ℕ → ℕ → Byte) : ℕ → ℕ → Byte :=
  (List.range n).foldl (fun h k => Function.update h k (copyLine (h k) (h (k + 1)))) history

def historyAdd (s : ℕ → Byte) (ed : Editor) : Editor :=
  let ed :=
    if s 0 ≠ 0 then
      if ed.histCount < histMax then
        { ed with
          history := Function.update ed.history ed.histCount (copyLine (ed.history ed.histCount) s)
          histCount := ed.histCount + 1 }
      else
        let h := shiftHistory (histMax - 1) ed.history
        { ed with history := Function.update h (histMax - 1) (copyLine (h (histMax - 1)) s) }
    else ed
  { ed with histBrowse := ed.histCount }

/-- `while (line_len > 0) { kprint_char('\b'); line_len--; }` -/
def eraseLine : ℕ → Screen → Kernel Screen
  | 0, scr => pure scr
  | n + 1, scr => do
    let scr ← kprintChar scr 0x08
    eraseLine n scr

/-- The loop of `replace_line` that stores and prints, from `i` on. -/
def typeFrom (s : ℕ → Byte) : ℕ → ℕ → (ℕ → Byte) → Screen → Kernel (ℕ × (ℕ → Byte) × Screen)
  | 0, i, line, scr => pure (i, line, scr)
  | n + 1, i, line, scr =>
    if s i ≠ 0 then do
      let scr ← kprintChar scr (s i)
      typeFrom s n (i + 1) (Function.update line i (s i)) scr
    else pure (i, line, scr)

def replaceLine (s : ℕ → Byte) (ed : Editor) (scr : Screen) : Kernel (Editor × Screen) := do
  let scr ← eraseLine ed.lineLen scr
  let x ← typeFrom s (lineMax - 1) 0 ed.line scr
  pure ({ ed with line := Function.update x.2.1 x.1 0, lineLen := x.1 }, x.2.2)

def historyPrev (ed : Editor) (scr : Screen) : Kernel (Editor × Screen) :=
  if 0 < ed.histCount ∧ 0 < ed.histBrowse then
    replaceLine (ed.history (ed.histBrowse - 1)) { ed with histBrowse := ed.histBrowse - 1 } scr
  else pure (ed, scr)

def historyNext (ed : Editor) (scr : Screen) : Kernel (Editor × Screen) :=
  if ed.histBrowse < ed.histCount then
    let ed := { ed with histBrowse := ed.histBrowse + 1 }
    replaceLine (if ed.histBrowse = ed.histCount then fun _ => 0 else ed.history ed.histBrowse) ed scr
  else pure (ed, scr)

def promptText : List Byte := ascii "pyro> "

def prompt (scr : Screen) : Kernel Screen := kprintColor promptText colorGreen scr

inductive ShellReq where
  | kernel (e : Req)
  | execute (line : ℕ → Byte) (scr : Screen)

abbrev ShellReq.Reply : ShellReq → Type
  | .kernel e => e.Reply
  | .execute _ _ => Screen

abbrev ShellProg := Prog ShellReq ShellReq.Reply

def atShell {α : Type} : Kernel α → ShellProg α
  | .pure a => .pure a
  | .ask e next => .ask (.kernel e) fun a => atShell (next a)

def handleChar (ed : Editor) (scr : Screen) (c : Byte) : ShellProg (Editor × Screen) :=
  if c = keyUp then atShell (historyPrev ed scr)
  else if c = keyDown then atShell (historyNext ed scr)
  else if c = keyLeft ∨ c = keyRight then pure (ed, scr)
  else if c = 0x0A then do
    let scr ← atShell (kprintChar scr 0x0A)
    let ed := { ed with line := Function.update ed.line ed.lineLen 0 }
    let ed := historyAdd ed.line ed
    let scr ← Prog.request (ShellReq.execute ed.line scr)
    let ed := { ed with lineLen := 0 }
    let scr ← atShell (prompt scr)
    pure (ed, scr)
  else if c = 0x08 then
    if 0 < ed.lineLen then do
      let ed := { ed with lineLen := ed.lineLen - 1 }
      let scr ← atShell (kprintChar scr 0x08)
      pure (ed, scr)
    else pure (ed, scr)
  else if ed.lineLen < lineMax - 1 then do
    let ed := { ed with line := Function.update ed.line ed.lineLen c, lineLen := ed.lineLen + 1 }
    let scr ← atShell (kprintChar scr c)
    pure (ed, scr)
  else pure (ed, scr)

/-! ### The command line as a whole -/

structure CommandLine where
  line : List Byte
  entries : List (List Byte)
  browse : ℕ

def recent (entries : List (List Byte)) : List (List Byte) := entries.drop (entries.length - 16)

def CommandLine.key (p : CommandLine) (c : Byte) : CommandLine :=
  if c = keyUp then
    if 0 < p.browse then { p with line := p.entries.getD (p.browse - 1) [], browse := p.browse - 1 } else p
  else if c = keyDown then
    if p.browse < p.entries.length then
      { p with line := p.entries.getD (p.browse + 1) [], browse := p.browse + 1 } else p
  else if c = keyLeft ∨ c = keyRight then p
  else if c = 0x0A then
    let entries := if p.line = [] then p.entries else recent (p.entries ++ [p.line])
    ⟨[], entries, entries.length⟩
  else if c = 0x08 then { p with line := p.line.dropLast }
  else if p.line.length < 127 then { p with line := p.line ++ [c] }
  else p

def Plain (c : Byte) : Prop := c ≠ 0 ∧ c ≠ 0x0A ∧ c ≠ 0x08

structure HoldsLine (b : ℕ → Byte) (text : List Byte) : Prop where
  spells : Spells b text
  length_le : text.length ≤ 127
  plain : ∀ c ∈ text, Plain c

def HoldsAll (history : ℕ → ℕ → Byte) (entries : List (List Byte)) : Prop :=
  ∀ j text, entries[j]? = some text → HoldsLine (history j) text

structure Represents (ed : Editor) (p : CommandLine) : Prop where
  line : upTo ed.line ed.lineLen = p.line
  line_le : p.line.length ≤ 127
  plain : ∀ c ∈ p.line, Plain c
  count : ed.histCount = p.entries.length
  count_le : p.entries.length ≤ 16
  browse : ed.histBrowse = p.browse
  browse_le : p.browse ≤ p.entries.length
  entry : HoldsAll ed.history p.entries

variable {ed : Editor} {p : CommandLine} {b dst src : ℕ → Byte} {text pre : List Byte} {c : Byte} {n i : ℕ}

lemma spells_iff : Spells b text ↔ upTo b text.length = text ∧ b text.length = 0 := by
  refine and_congr_left fun _ => ⟨fun h => ?_, fun h i hi => ?_⟩
  · exact List.ext_getElem upTo_length fun i hi hi' => (upTo_getElem hi).trans (h i hi')
  · have hi' : i < (upTo b text.length).length := by simpa using hi
    rw [← upTo_getElem hi']
    simp only [h]

lemma HoldsLine.end_iff (h : HoldsLine src text) (hi : i ≤ text.length) : src i ≠ 0 ↔ i < text.length := by
  constructor
  · intro hne
    refine lt_of_le_of_ne hi fun heq => hne ?_
    rw [heq]
    exact h.spells.2
  · intro hlt
    rw [h.spells.1 i hlt]
    exact (h.plain _ (List.getElem_mem hlt)).1

lemma copyFrom_spells (h : HoldsLine src text) (hi : i ≤ text.length) (hn : i + n = 127)
    (hdst : upTo dst i = text.take i) :
    Spells (copyFrom src n i dst) text := by
  have hend : ∀ {b : ℕ → Byte}, upTo b text.length = text → Spells (Function.update b text.length 0) text := fun hb =>
    spells_iff.mpr ⟨(upTo_write_of_le le_rfl).trans hb, Function.update_self ..⟩
  have hle := h.length_le
  induction n generalizing i dst with
  | zero =>
    obtain rfl : i = text.length := by omega
    rw [copyFrom]
    exact hend (by rw [hdst, List.take_length])
  | succ n ih =>
    rw [copyFrom]
    by_cases hlt : i < text.length
    · rw [if_pos ((h.end_iff hi).mpr hlt)]
      refine ih hlt (by omega) ?_
      rw [upTo_write, hdst, h.spells.1 i hlt, List.take_append_getElem hlt]
    · obtain rfl : i = text.length := by omega
      rw [if_neg (mt (h.end_iff hi).mp hlt)]
      exact hend (by rw [hdst, List.take_length])

lemma HoldsLine.copyLine (h : HoldsLine src text) (dst : ℕ → Byte) : HoldsLine (copyLine dst src) text :=
  ⟨copyFrom_spells h (Nat.zero_le _) rfl rfl, h.length_le, h.plain⟩

lemma shiftHistory_eq (n : ℕ) (history : ℕ → ℕ → Byte) (j : ℕ) :
    shiftHistory n history j = if j < n then copyLine (history j) (history (j + 1)) else history j := by
  induction n generalizing j with
  | zero => rw [if_neg (Nat.not_lt_zero _)]; rfl
  | succ n ih =>
    have hstep : shiftHistory (n + 1) history = Function.update (shiftHistory n history) n
        (copyLine (shiftHistory n history n) (shiftHistory n history (n + 1))) := by
      rw [shiftHistory, List.range_succ, List.foldl_append]
      rfl
    by_cases hj : j = n
    · subst hj
      rw [hstep, Function.update_self, ih, ih, if_neg (lt_irrefl _), if_neg (by omega), if_pos (Nat.lt_succ_self _)]
    · rw [hstep, Function.update_of_ne hj, ih]
      exact if_congr (by omega) rfl rfl

lemma HoldsAll.concat {history : ℕ → ℕ → Byte} {entries : List (List Byte)} (h : HoldsAll history entries)
    (hb : HoldsLine b text) : HoldsAll (Function.update history entries.length b) (entries ++ [text]) := by
  intro j line hj
  have hlt : j < (entries ++ [text]).length := (List.getElem?_eq_some_iff.mp hj).1
  rw [List.length_append, List.length_singleton] at hlt
  by_cases hlast : j = entries.length
  · subst hlast
    rw [List.getElem?_concat_length] at hj
    rw [Function.update_self, ← Option.some.inj hj]
    exact hb
  · rw [List.getElem?_append_left (by omega)] at hj
    rw [Function.update_of_ne hlast]
    exact h j line hj

lemma HoldsAll.shift {history : ℕ → ℕ → Byte} {entries : List (List Byte)} (h : HoldsAll history entries)
    (hn : entries.length ≤ n + 1) : HoldsAll (shiftHistory n history) (entries.drop 1) := by
  intro j line hj
  rw [List.getElem?_drop, Nat.add_comm] at hj
  have hlt : j + 1 < entries.length := (List.getElem?_eq_some_iff.mp hj).1
  rw [shiftHistory_eq, if_pos (by omega)]
  exact (h (j + 1) line hj).copyLine _

lemma historyAdd_line : (historyAdd b ed).line = ed.line := by
  rw [historyAdd]
  split
  · split <;> rfl
  · rfl

namespace Represents

lemma lineLen (h : Represents ed p) : ed.lineLen = p.line.length := by rw [← h.line, upTo_length]

lemma terminated (h : Represents ed p) : HoldsLine (Function.update ed.line ed.lineLen 0) p.line := by
  refine ⟨spells_iff.mpr ?_, h.line_le, h.plain⟩
  rw [← h.lineLen]
  exact ⟨(upTo_write_of_le le_rfl).trans h.line, Function.update_self ..⟩

lemma first (h : Represents ed p) : Function.update ed.line ed.lineLen 0 0 ≠ 0 ↔ p.line ≠ [] := by
  rw [h.terminated.end_iff (Nat.zero_le _)]
  exact List.length_pos_iff

lemma cleared {entries : List (List Byte)} (hcount : ed.histCount = entries.length) (hle : entries.length ≤ 16)
    (hentry : HoldsAll ed.history entries) :
    Represents { ed with histBrowse := ed.histCount, lineLen := 0 } ⟨[], entries, entries.length⟩ :=
  ⟨rfl, Nat.zero_le _, fun c hc => (by cases hc), hcount, hle, hcount, le_rfl, hentry⟩

lemma enter (h : Represents ed p) : Represents
    { historyAdd (Function.update ed.line ed.lineLen 0)
      { ed with line := Function.update ed.line ed.lineLen 0 } with lineLen := 0 } (p.key 0x0A) := by
  have hkey : p.key 0x0A = ⟨[], if p.line = [] then p.entries else recent (p.entries ++ [p.line]),
      (if p.line = [] then p.entries else recent (p.entries ++ [p.line])).length⟩ := rfl
  have hcount := h.count
  have hle := h.count_le
  have hmax : histMax = 16 := rfl
  rw [hkey, historyAdd]
  by_cases hline : p.line = []
  · rw [if_neg (mt h.first.mp (not_not.mpr hline)), if_pos hline]
    exact cleared h.count h.count_le h.entry
  rw [if_pos (h.first.mpr hline), if_neg hline]
  dsimp only
  by_cases hroom : ed.histCount < histMax
  · have hrecent : recent (p.entries ++ [p.line]) = p.entries ++ [p.line] := by
      rw [recent, List.length_append, List.length_singleton, show p.entries.length + 1 - 16 = 0 by omega,
        List.drop_zero]
    have hlen : (p.entries ++ [p.line]).length = ed.histCount + 1 := by
      rw [List.length_append, List.length_singleton, hcount]
    rw [if_pos hroom, hrecent]
    refine cleared hlen.symm (by omega) ?_
    rw [hcount]
    exact h.entry.concat (h.terminated.copyLine _)
  · -- all 16 places are taken: the oldest entry goes
    have hfull : p.entries.length = 16 := by omega
    have hrecent : recent (p.entries ++ [p.line]) = p.entries.drop 1 ++ [p.line] := by
      rw [recent, List.length_append, List.length_singleton, hfull, List.drop_append_of_le_length (by omega)]
    have hdrop : (p.entries.drop 1).length = histMax - 1 := by rw [List.length_drop, hfull]; rfl
    have hlen : (p.entries.drop 1 ++ [p.line]).length = ed.histCount := by
      rw [List.length_append, List.length_singleton, hdrop]
      omega
    rw [if_neg hroom, hrecent]
    refine cleared hlen.symm (by omega) ?_
    rw [← hdrop]
    exact (h.entry.shift (by omega)).concat (h.terminated.copyLine _)

lemma back (h : Represents ed p) :
    Represents { ed with lineLen := ed.lineLen - 1 } { p with line := p.line.dropLast } := by
  refine ⟨upTo_pred.trans (congrArg _ h.line), ?_, fun c hc => h.plain c (List.dropLast_subset _ hc), h.count,
    h.count_le, h.browse, h.browse_le, h.entry⟩
  rw [List.length_dropLast]
  exact (Nat.sub_le _ _).trans h.line_le

lemma type (h : Represents ed p) (hc : Plain c) (hroom : p.line.length < 127) :
    Represents { ed with line := Function.update ed.line ed.lineLen c, lineLen := ed.lineLen + 1 }
      { p with line := p.line ++ [c] } := by
  refine ⟨upTo_write.trans (congrArg (· ++ [c]) h.line),
    by simp only [List.length_append, List.length_singleton]; omega,
    fun d hd => ?_, h.count, h.count_le, h.browse, h.browse_le, h.entry⟩
  rcases List.mem_append.mp hd with hd | hd
  · exact h.plain d hd
  · rw [List.mem_singleton.mp hd]
    exact hc

lemma replaced (h : Represents ed p) {line : ℕ → Byte} (hline : HoldsLine line text) :
    Represents { ed with line := line, lineLen := text.length } { p with line := text } :=
  ⟨(spells_iff.mp hline.spells).1, hline.length_le, hline.plain, h.count, h.count_le, h.browse, h.browse_le, h.entry⟩

lemma browseTo (h : Represents ed p) (hn : n ≤ p.entries.length) :
    Represents { ed with histBrowse := n } { p with browse := n } :=
  ⟨h.line, h.line_le, h.plain, h.count, h.count_le, rfl, hn, h.entry⟩

lemma getD (h : Represents ed p) (hn : n < p.entries.length) : HoldsLine (ed.history n) (p.entries.getD n []) :=
  h.entry n _ (by rw [List.getElem?_eq_getElem hn, List.getD_eq_getElem _ _ hn])

end Represents

end PyroOS
