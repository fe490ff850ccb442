import PyroOS.FileSystem.Calls
import PyroOS.Machine.Screen
import PyroOS.Process.Table

/-! System calls. -/

namespace PyroOS

open Interaction

def sysWrite : Word := 0
def sysUptime : Word := 1
def sysExit : Word := 2
def sysRead : Word := 3
def sysSleep : Word := 4
def sysRand : Word := 5
def sysFwrite : Word := 6
def sysFread : Word := 7
def sysGetpid : Word := 8
def sysSbrk : Word := 9

def userHeapEnd : Word := 0x0009F000

structure Frame where
  eax : Word
  ebx : Word
  ecx : Word
  edx : Word
  cs : Word

def Frame.ret (r : Frame) (v : Word) : Frame := { r with eax := v }

/-- The variables of the kernel that system calls use; `seed` is that of the random numbers. -/
structure KState where
  screen : Screen
  sys : Sys
  fs : Fs
  seed : Word

/-- The sum does not wrap: it is taken in 64 bits. -/
def inUserZone (p len : Word) : Bool := decide (0x80000 ≤ p.toNat ∧ p.toNat + len.toNat ≤ 0x100000)

def userStringOk (p : Word) : Kernel Bool :=
  if inUserZone p 1 then
    Prog.iterate (fun _ => pure false)
      (fun i => do
        let c ← load (addr p i)
        if c = 0 then pure (.inr true) else pure (.inl (i + 1)))
      (0x100000 - p.toNat) 0
  else pure false

def fromUser (r : Frame) : Bool := decide (r.cs &&& 3 = 3)

def sbrk (brk grow : Word) : Word × Word :=
  let old := if brk ≠ 0 then brk else userHeapBase
  let want := old + grow
  if grow = 0 then (old, brk)
  else if want < old ∨ userHeapEnd < want then (-1, brk)
  else (old, want)

def randSeed (seed : Word) : Kernel Word :=
  if seed = 0 then do
    let now ← Prog.request .ticks
    pure (now * 2654435761 + 1)
  else pure seed

/-- `user_string_ok(r->ebx) && in_user_zone(r->ecx, r->edx)` -/
def fileArgsOk (r : Frame) : Kernel Bool := do
  let ok ← userStringOk r.ebx
  pure (ok && inUserZone r.ecx r.edx)

def writeArgsOk (r : Frame) : Kernel Bool :=
  if fromUser r then userStringOk r.ebx else pure true

def sysWriteCall (r : Frame) (st : KState) : Kernel (Frame × KState) := do
  let ok ← writeArgsOk r
  if ok then do
    let scr ← Kernel.kprint r.ebx st.screen
    pure (r.ret 0, { st with screen := scr })
  else pure (r.ret (-1), st)

def sysFwriteCall (r : Frame) (st : KState) : Kernel (Frame × KState) := do
  let ok ← fileArgsOk r
  if ok then do
    let x ← fsWrite r.ebx r.ecx r.edx st.fs
    pure (r.ret (BitVec.ofInt 32 x.1), { st with fs := x.2 })
  else pure (r.ret (-1), st)

def sysFreadCall (r : Frame) (st : KState) : Kernel (Frame × KState) := do
  let ok ← fileArgsOk r
  if ok then do
    let x ← fsRead r.ebx r.ecx r.edx st.fs
    pure (r.ret (if x.1 = 0 then x.2.getD 0 else -1), st)
  else pure (r.ret (-1), st)

def sysSbrkCall (r : Frame) (st : KState) : Frame × KState :=
  let p := procCurrent st.sys
  let x := sbrk p.brk r.ebx
  (r.ret x.1, { st with sys := st.sys.set st.sys.currentIdx { p with brk := x.2 } })

/-- There is no result where the call does not return to the program. -/
def syscallHandler (r : Frame) (st : KState) : Kernel (Option (Frame × KState)) :=
  if r.eax = sysWrite then do
    let x ← sysWriteCall r st
    pure (some x)
  else if r.eax = sysUptime then do
    let now ← Prog.request .ticks
    pure (some (r.ret now, st))
  else if r.eax = sysGetpid then pure (some (r.ret (BitVec.ofInt 32 (procCurrent st.sys).pid), st))
  else if r.eax = sysSbrk then pure (some (sysSbrkCall r st))
  else if r.eax = sysExit then pure none
  else if r.eax = sysRead then do
    let c ← Prog.request .getchar
    pure (some (r.ret c, st))
  else if r.eax = sysSleep then do
    let now ← Prog.request .ticks
    let _ ← Prog.request (.waitTicks (now + r.ebx))
    pure (some (r.ret 0, st))
  else if r.eax = sysRand then do
    let s ← randSeed st.seed
    let s := s * 1103515245 + 12345
    pure (some (r.ret ((s >>> 16) &&& 0x7FFF), { st with seed := s }))
  else if r.eax = sysFwrite then do
    let x ← sysFwriteCall r st
    pure (some x)
  else if r.eax = sysFread then do
    let x ← sysFreadCall r st
    pure (some x)
  else pure (some (r.ret (-1), st))

/-! ### One call -/

section calls

variable {r : Frame} {st : KState} {may : Req → Prop} {w : World}

lemma syscallHandler_write (h : r.eax = sysWrite) :
    syscallHandler r st = sysWriteCall r st >>= fun x => pure (some x) := if_pos h

lemma syscallHandler_fwrite (h : r.eax = sysFwrite) :
    syscallHandler r st = sysFwriteCall r st >>= fun x => pure (some x) := by
  rw [syscallHandler, h]
  rfl

lemma syscallHandler_fread (h : r.eax = sysFread) :
    syscallHandler r st = sysFreadCall r st >>= fun x => pure (some x) := by
  rw [syscallHandler, h]
  rfl

lemma syscallHandler_sbrk (h : r.eax = sysSbrk) : syscallHandler r st = pure (some (sysSbrkCall r st)) := by
  rw [syscallHandler, h]
  rfl

def DeviceReq : Req → Prop
  | .ticks | .waitTicks _ | .getchar => True
  | _ => False

lemma meets_syscallHandler_other (h₀ : r.eax ≠ sysWrite) (h₆ : r.eax ≠ sysFwrite) (h₇ : r.eax ≠ sysFread)
    (h₉ : r.eax ≠ sysSbrk) : (syscallHandler r st).Meets (Transfer may) DeviceReq (fun _ => True)
      (fun x _ => ∀ y ∈ x, y.2.sys = st.sys) w := by
  have hdone : ∀ (v s : Word), ∀ y ∈ some (r.ret v, { st with seed := s }), y.2.sys = st.sys := by
    rintro v s _ ⟨⟩
    rfl
  have hask : ∀ {e : Req} {a : e.Reply} {t u : World} {q : e.Reply → Kernel (Option (Frame × KState))},
      t.handle e = some (a, u) → (∀ lba, e ≠ .ataRead lba) → (∀ lba s, e ≠ .ataWrite lba s) → DeviceReq e →
      (q a).Meets (Transfer may) DeviceReq (fun _ => True) (fun x _ => ∀ y ∈ x, y.2.sys = st.sys) u →
      Prog.Meets (Transfer may) DeviceReq (fun _ => True) (fun x _ => ∀ y ∈ x, y.2.sys = st.sys)
        (Prog.request e >>= q) t :=
    fun he hr hw hp hq => Prog.Meets.bind (meets_answer trivial hp he hr hw trivial hq)
  -- each split also drops the tests that the four hypotheses refuse
  rw [syscallHandler, if_neg h₀]
  split
  · exact hask rfl nofun nofun trivial ⟨trivial, hdone _ _⟩
  split
  · exact ⟨trivial, hdone _ _⟩
  split
  · exact ⟨trivial, fun y hy => (by cases hy)⟩
  split
  · exact hask rfl nofun nofun trivial ⟨trivial, hdone _ _⟩
  split
  · exact hask rfl nofun nofun trivial (hask rfl nofun nofun trivial ⟨trivial, hdone _ _⟩)
  split
  · rw [randSeed]
    split
    · exact Prog.Meets.bind (Prog.Meets.bind (meets_answer trivial trivial rfl nofun nofun trivial
        ⟨trivial, trivial, hdone _ _⟩))
    · exact ⟨trivial, hdone _ _⟩
  exact ⟨trivial, hdone _ _⟩

end calls

lemma sbrk_cases {brk grow : Word} (hlo : 0x90000 ≤ brk.toNat) (hhi : brk.toNat ≤ 0x9f000) (hg : grow ≠ 0) :
    (sbrk brk grow = (-1, brk) ∧ 0x9f000 < brk.toNat + grow.toNat) ∨
    (sbrk brk grow = (brk, brk + grow) ∧ (brk + grow).toNat = brk.toNat + grow.toNat ∧
      brk.toNat + grow.toNat ≤ 0x9f000) := by
  have hbrk : brk ≠ 0 := by
    rintro rfl
    cases hlo
  have hend : userHeapEnd.toNat = 0x9f000 := rfl
  have hglt := grow.isLt
  rw [sbrk, if_pos hbrk, if_neg hg]
  by_cases hfit : brk.toNat + grow.toNat ≤ 0x9f000
  · have hsum : (brk + grow).toNat = brk.toNat + grow.toNat := by
      rw [BitVec.toNat_add]
      omega
    refine .inr ⟨if_neg ?_, hsum, hfit⟩
    rw [BitVec.lt_def, BitVec.lt_def, hsum, hend]
    omega
  · refine .inl ⟨if_pos ?_, by omega⟩
    rw [BitVec.lt_def, BitVec.lt_def, BitVec.toNat_add, hend]
    omega

end PyroOS
