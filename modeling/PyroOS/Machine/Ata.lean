import PyroOS.Machine.World
import Mathlib.Data.List.GetD
import Mathlib.Logic.Function.Basic

/-! The disk driver at the level of its I/O ports, against a drive that may answer anything. -/

namespace PyroOS.Ata

open Interaction

abbrev Word16 := BitVec 16

inductive Register where
  | drive
  | seccnt
  | lbaLo
  | lbaMid
  | lbaHi
  | cmd
  deriving DecidableEq

inductive Port where
  | inb
  | outb (reg : Register) (v : Byte)
  | inw
  | outw (w : Word16)

abbrev Port.Reply : Port → Type
  | .inb => Byte
  | .inw => Word16
  | .outb _ _ | .outw _ => Unit

abbrev Driver := Prog Port Port.Reply

inductive Access where
  | status (s : Byte)
  | out (reg : Register) (v : Byte)
  | dataIn (w : Word16)
  | dataOut (w : Word16)
  deriving DecidableEq

def record : (e : Port) → e.Reply → Access
  | .inb, s => .status s
  | .outb reg v, _ => .out reg v
  | .inw, w => .dataIn w
  | .outw w, _ => .dataOut w

/-- Any reply is possible at any time; what happened is written down. -/
def Recorded (tr : List Access) (e : Port) (a : e.Reply) (tr' : List Access) : Prop := tr' = tr ++ [record e a]

/-! ### The driver -/

def stBsy : Byte := 0x80
def stDf : Byte := 0x20
def stDrq : Byte := 0x08
def stErr : Byte := 0x01

def timeout : ℕ := 1000000

abbrev Busy (s : Byte) : Prop := s &&& stBsy ≠ 0
abbrev Faulty (s : Byte) : Prop := s &&& (stErr ||| stDf) ≠ 0
abbrev Ready (s : Byte) : Prop := ¬ Busy s ∧ ¬ Faulty s ∧ s &&& stDrq ≠ 0

def inb : Driver Byte := .ask .inb .pure
def outb (reg : Register) (v : Byte) : Driver Unit := .ask (.outb reg v) .pure
def inw : Driver Word16 := .ask .inw .pure
def outw (w : Word16) : Driver Unit := .ask (.outw w) .pure

def poll (judge : Byte → Option ℤ) (rounds : ℕ) : Driver ℤ :=
  Prog.iterate (fun _ => pure (-1)) (fun _ => do
    let s ← inb
    match judge s with
    | none => pure (.inl ())
    | some r => pure (.inr r)) rounds ()

def waitJudge (s : Byte) : Option ℤ :=
  if Busy s then none
  else if Faulty s then some (-1)
  else if s &&& stDrq ≠ 0 then some 0
  else none

def idleJudge (s : Byte) : Option ℤ :=
  if ¬ Busy s then some (if Faulty s then -1 else 0) else none

def selectJudge (s : Byte) : Option ℤ := if Busy s then none else some 0

def wait : Driver ℤ := poll waitJudge timeout
def idle : Driver ℤ := poll idleJudge timeout

def select (lba : Word) (sectors : Byte) : Driver ℤ := do
  -- the loop counts after the read, so it makes one poll more than the other two
  let r ← poll selectJudge (timeout + 1)
  if r ≠ 0 then pure (-1) else do
    outb .drive (ataSelect lba).1
    outb .seccnt sectors
    outb .lbaLo (ataSelect lba).2.1
    outb .lbaMid (ataSelect lba).2.2.1
    outb .lbaHi (ataSelect lba).2.2.2
    pure 0

def eachSector {τ : Type} (move : ℕ → τ → Driver τ) (sectors : ℕ) (x : τ) : Driver (ℤ × τ) :=
  Prog.iterate (fun y => pure (0, y.2)) (fun y => do
    let r ← wait
    if r ≠ 0 then pure (.inr (-1, y.2)) else do
      let z ← move y.1 y.2
      pure (.inl (y.1 + 1, z))) sectors (0, x)

def readSector (s : ℕ) (buf : ℕ → Word16) : Driver (ℕ → Word16) :=
  Prog.iterate (fun x => pure x.2) (fun x => do
    let w ← inw
    pure (.inl (x.1 + 1, Function.update x.2 (256 * s + x.1) w))) 256 (0, buf)

def writeSector (buf : ℕ → Word16) (s : ℕ) : Driver Unit :=
  Prog.iterate (fun _ => pure ()) (fun i => do
    outw (buf (256 * s + i))
    pure (.inl (i + 1))) 256 0

def read (lba : Word) (sectors : Byte) (buf : ℕ → Word16) : Driver (ℤ × (ℕ → Word16)) := do
  let r ← select lba sectors
  if r ≠ 0 then pure (-1, buf) else do
    outb .cmd 0x20
    eachSector readSector sectors.toNat buf

def write (lba : Word) (sectors : Byte) (buf : ℕ → Word16) : Driver ℤ := do
  let r ← select lba sectors
  if r ≠ 0 then pure (-1) else do
    outb .cmd 0x30
    let r ← eachSector (fun s _ => writeSector buf s) sectors.toNat ()
    if r.1 ≠ 0 then pure (-1) else do
      let r ← idle
      if r ≠ 0 then pure (-1) else do
        outb .cmd 0xE7
        idle

/-! ### Traces -/

def status? : Access → Option Byte
  | .status s => some s
  | _ => none

def in? : Access → Option Word16
  | .dataIn w => some w
  | _ => none

def out? : Access → Option Word16
  | .dataOut w => some w
  | _ => none

abbrev IsData (a : Access) : Prop := (in? a).isSome ∨ (out? a).isSome

def polled (tr : List Access) : List Byte := tr.filterMap status?
def received (tr : List Access) : List Word16 := tr.filterMap in?
def sent (tr : List Access) : List Word16 := tr.filterMap out?

/-- A register is written only if the last status read had BSY clear. -/
def IdleCommands (tr : List Access) : Prop :=
  ∀ pre reg v rest, tr = pre ++ Access.out reg v :: rest → ∃ s, (polled pre).getLast? = some s ∧ ¬ Busy s

/-- The accesses to the data port come in runs of 256, and each run directly follows a status with
BSY, ERR and DF clear and DRQ set. -/
def SectorRuns (tr : List Access) : Prop :=
  ∃ (runs : List (List Access × List Access)) (rest : List Access),
    tr = (runs.flatMap fun g => g.1 ++ g.2) ++ rest ∧ (∀ a ∈ rest, ¬ IsData a) ∧
      ∀ g ∈ runs, (∀ a ∈ g.1, ¬ IsData a) ∧ (∀ a ∈ g.2, IsData a) ∧ g.2.length = 256 ∧
        ∃ pre s, g.1 = pre ++ [.status s] ∧ Ready s

/-- The poll ended with a status that had BSY, ERR and DF clear, before which the drive was busy. -/
def IdleSeen (ss : List Byte) : Prop :=
  ∃ pre s, ss = pre ++ [s] ∧ (∀ x ∈ pre, Busy x) ∧ ¬ Busy s ∧ ¬ Faulty s

def statuses (ss : List Byte) : List Access := ss.map .status

section traces

variable {tr tr' : List Access}

lemma polled_append : polled (tr ++ tr') = polled tr ++ polled tr' := List.filterMap_append

lemma received_append : received (tr ++ tr') = received tr ++ received tr' := List.filterMap_append

lemma sent_append : sent (tr ++ tr') = sent tr ++ sent tr' := List.filterMap_append

lemma polled_statuses (ss : List Byte) : polled (statuses ss) = ss := by
  simp [polled, statuses, List.filterMap_map, status?, Function.comp_def]

lemma received_statuses (ss : List Byte) : received (statuses ss) = [] := by
  simp [received, statuses, in?]

lemma sent_statuses (ss : List Byte) : sent (statuses ss) = [] := by
  simp [sent, statuses, out?]

lemma IdleCommands.append (h : IdleCommands tr) (h' : IdleCommands tr') : IdleCommands (tr ++ tr') := by
  intro pre reg v rest he
  obtain ⟨mid, hpre, hmid⟩ | ⟨mid, htr, hmid⟩ := List.append_eq_append_iff.mp he
  · obtain ⟨s, hs, hb⟩ := h' mid reg v rest hmid
    exact ⟨s, by rw [hpre, polled_append, List.getLast?_append, hs, Option.some_or], hb⟩
  · cases mid with
    | nil =>
      obtain ⟨s, hs, -⟩ := h' [] reg v rest (by simpa using hmid.symm)
      simp [polled] at hs
    | cons a mid =>
      obtain ⟨rfl, -⟩ := List.cons.inj hmid
      exact h pre reg v mid htr

lemma idleCommands_of_none (h : ∀ reg v, Access.out reg v ∉ tr) : IdleCommands tr := by
  intro pre reg v rest he
  exact (h reg v (by simp [he])).elim

lemma IdleCommands.out {s : Byte} (h : IdleCommands tr) (hs : (polled tr).getLast? = some s) (hb : ¬ Busy s)
    (reg : Register) (v : Byte) : IdleCommands (tr ++ [.out reg v]) := by
  intro pre reg' v' rest he
  obtain ⟨mid, hpre, hmid⟩ | ⟨mid, htr, hmid⟩ := List.append_eq_append_iff.mp he
  · obtain rfl : mid = [] := by
      cases mid with
      | nil => rfl
      | cons a mid => simp at hmid
    rw [List.append_nil] at hpre
    exact ⟨s, by rw [hpre, hs], hb⟩
  · cases mid with
    | nil =>
      rw [List.append_nil] at htr
      exact ⟨s, by rw [← htr, hs], hb⟩
    | cons a mid =>
      obtain ⟨rfl, -⟩ := List.cons.inj hmid
      exact h pre reg' v' mid htr

lemma IdleCommands.outs {s : Byte} (os : List (Register × Byte)) (h : IdleCommands tr)
    (hs : (polled tr).getLast? = some s) (hb : ¬ Busy s) :
    IdleCommands (tr ++ os.map fun o => .out o.1 o.2) := by
  induction os generalizing tr with
  | nil => simpa using h
  | cons o os ih =>
    have hlast : (polled (tr ++ [.out o.1 o.2])).getLast? = some s := by simpa [polled, status?] using hs
    simpa using ih (h.out hs hb o.1 o.2) hlast

lemma SectorRuns.quiet_append (h : SectorRuns tr') (hq : ∀ a ∈ tr, ¬ IsData a) : SectorRuns (tr ++ tr') := by
  obtain ⟨runs, rest, rfl, hrest, hruns⟩ := h
  cases runs with
  | nil =>
    refine ⟨[], tr ++ rest, by simp, ?_, by simp⟩
    intro a ha
    exact (List.mem_append.mp ha).elim (hq a) (hrest a)
  | cons g runs =>
    refine ⟨(tr ++ g.1, g.2) :: runs, rest, by simp, hrest, ?_⟩
    obtain ⟨hg, hgs⟩ := List.forall_mem_cons.mp hruns
    obtain ⟨hgap, hdata, hlen, pre, s, hpre, hs⟩ := hg
    refine List.forall_mem_cons.mpr ⟨⟨?_, hdata, hlen, tr ++ pre, s, by simp [hpre], hs⟩, hgs⟩
    intro a ha
    exact (List.mem_append.mp ha).elim (hq a) (hgap a)

lemma SectorRuns.append_quiet (h : SectorRuns tr) (hq : ∀ a ∈ tr', ¬ IsData a) : SectorRuns (tr ++ tr') := by
  obtain ⟨runs, rest, rfl, hrest, hruns⟩ := h
  refine ⟨runs, rest ++ tr', by simp, ?_, hruns⟩
  intro a ha
  exact (List.mem_append.mp ha).elim (hrest a) (hq a)

lemma not_isData_statuses (ss : List Byte) : ∀ a ∈ statuses ss, ¬ IsData a := by
  simp [statuses, IsData, in?, out?]

lemma not_isData_outs (os : List (Register × Byte)) :
    ∀ a ∈ (os.map fun o => Access.out o.1 o.2), ¬ IsData a := by
  intro a ha
  obtain ⟨o, -, rfl⟩ := List.mem_map.mp ha
  simp [IsData, in?, out?]

end traces

/-! ### Polls -/

section rules

variable {α : Type} {tr : List Access}

abbrev Yields (post : α → List Access → Prop) (p : Driver α) (tr : List Access) : Prop :=
  p.Meets Recorded (fun _ => True) (fun _ => True) post tr

lemma yields_ask (e : Port) {post : e.Reply → List Access → Prop} (h : ∀ a, post a (tr ++ [record e a])) :
    Yields post (.ask e .pure) tr := by
  refine ⟨trivial, trivial, ?_, ?_⟩
  · cases e with
    | inb => exact ⟨(0 : Byte), _, rfl⟩
    | outb reg v => exact ⟨(), _, rfl⟩
    | inw => exact ⟨(0 : Word16), _, rfl⟩
    | outw w => exact ⟨(), _, rfl⟩
  · rintro a t rfl
    exact ⟨trivial, h a⟩

lemma yields_pure {a : α} {post : α → List Access → Prop} (h : post a tr) : Yields post (pure a) tr :=
  ⟨trivial, h⟩

lemma statuses_append (ss ss' : List Byte) : statuses (ss ++ ss') = statuses ss ++ statuses ss' :=
  List.map_append

def Polled (judge : Byte → Option ℤ) (rounds : ℕ) (r : ℤ) (ss : List Byte) : Prop :=
  ss.length ≤ rounds ∧ ((∃ pre s, ss = pre ++ [s] ∧ (∀ x ∈ pre, judge x = none) ∧ judge s = some r) ∨
    ((∀ x ∈ ss, judge x = none) ∧ r = -1))

lemma yields_poll (judge : Byte → Option ℤ) (rounds : ℕ) (tr : List Access) :
    Yields (fun r t => ∃ ss, t = tr ++ statuses ss ∧ Polled judge rounds r ss) (poll judge rounds) tr := by
  refine Prog.meets_iterate
    (fun n _ t => ∃ ss, t = tr ++ statuses ss ∧ ss.length + n = rounds ∧ ∀ x ∈ ss, judge x = none)
    ?_ ?_ rounds () tr ⟨[], by simp [statuses]⟩
  · rintro n ⟨⟩ t ⟨ss, rfl, hlen, hss⟩
    refine Prog.Meets.bind (yields_ask .inb fun s => ?_)
    have htr : tr ++ statuses ss ++ [record .inb s] = tr ++ statuses (ss ++ [s]) := by
      rw [statuses_append, List.append_assoc]
      rfl
    rw [htr]
    cases hj : judge s with
    | none =>
      refine yields_pure ⟨ss ++ [s], rfl, by simp; omega, ?_⟩
      intro x hx
      rcases List.mem_append.mp hx with hx | hx
      · exact hss x hx
      · rw [List.mem_singleton.mp hx, hj]
    | some r => exact yields_pure ⟨ss ++ [s], rfl, by simp; omega, .inl ⟨ss, s, rfl, hss, hj⟩⟩
  · rintro ⟨⟩ t ⟨ss, rfl, hlen, hss⟩
    exact yields_pure ⟨ss, rfl, by omega, .inr ⟨hss, rfl⟩⟩

lemma waitJudge_cases {s : Byte} {r : ℤ} (h : waitJudge s = some r) : r = 0 ∧ Ready s ∨ r = -1 := by
  unfold waitJudge at h
  split at h
  · cases h
  · split at h
    · exact .inr (Option.some.inj h).symm
    · split at h
      · exact .inl ⟨(Option.some.inj h).symm, by assumption, by assumption, by assumption⟩
      · cases h

lemma Polled.wait {r : ℤ} {ss : List Byte} (h : Polled waitJudge timeout r ss) :
    r = 0 ∧ (∃ pre s, ss = pre ++ [s] ∧ Ready s) ∨ r = -1 := by
  obtain ⟨-, ⟨pre, s, rfl, -, hs⟩ | ⟨-, hr⟩⟩ := h
  · rcases waitJudge_cases hs with ⟨hr, hready⟩ | hr
    · exact .inl ⟨hr, pre, s, rfl, hready⟩
    · exact .inr hr
  · exact .inr hr

lemma idleJudge_eq_none {s : Byte} : idleJudge s = none ↔ Busy s := by
  unfold idleJudge
  split <;> simp_all

lemma Polled.idle {r : ℤ} {ss : List Byte} (h : Polled idleJudge timeout r ss) :
    r = 0 ∧ IdleSeen ss ∨ r = -1 ∧ ¬ IdleSeen ss := by
  obtain ⟨-, ⟨pre, s, rfl, hpre, hs⟩ | ⟨hss, hr⟩⟩ := h
  · have hidle : ¬ Busy s := by
      rw [← idleJudge_eq_none, hs]
      nofun
    rw [idleJudge, if_pos hidle] at hs
    by_cases hf : Faulty s
    · rw [if_pos hf] at hs
      refine .inr ⟨(Option.some.inj hs).symm, ?_⟩
      rintro ⟨pre', s', he, -, -, hf'⟩
      obtain ⟨-, rfl⟩ := List.append_inj' he rfl |>.imp_right List.singleton_inj.mp
      exact hf' hf
    · rw [if_neg hf] at hs
      exact .inl ⟨(Option.some.inj hs).symm, pre, s, rfl, fun x hx => idleJudge_eq_none.mp (hpre x hx), hidle, hf⟩
  · refine .inr ⟨hr, ?_⟩
    rintro ⟨pre, s, rfl, -, hb, -⟩
    exact hb (idleJudge_eq_none.mp (hss s (by simp)))

lemma Polled.select {r : ℤ} {ss : List Byte} (h : Polled selectJudge (timeout + 1) r ss) :
    r = 0 ∧ (∃ pre s, ss = pre ++ [s] ∧ ¬ Busy s) ∨ r = -1 := by
  obtain ⟨-, ⟨pre, s, rfl, -, hs⟩ | ⟨-, hr⟩⟩ := h
  · unfold selectJudge at hs
    split at hs
    · cases hs
    · exact .inl ⟨(Option.some.inj hs).symm, pre, s, rfl, by assumption⟩
  · exact .inr hr

end rules

end PyroOS.Ata
