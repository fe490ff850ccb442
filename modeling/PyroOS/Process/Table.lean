import PyroOS.Memory.Fault

/-! The process table and the UNIX process calls. -/

namespace PyroOS

abbrev maxProcs : ℕ := 16

instance : NeZero maxProcs := ⟨by decide⟩
def procNameSize : ℕ := 16
def userHeapBase : Word := 0x00090000
def userZoneStart : Word := 0x80000
def userZoneEnd : Word := 0x100000

inductive ProcState where
  | unused
  | ready
  | running
  | zombie
  deriving DecidableEq, Repr

structure Proc where
  pid : ℤ
  ppid : ℤ
  state : ProcState
  dir : Word
  entry : Word
  brk : Word
  exitCode : ℤ
  name : List Byte

def Proc.zero : Proc := ⟨0, 0, .unused, 0, 0, 0, 0, []⟩

abbrev Slot := Fin maxProcs

structure Sys where
  mmu : Mmu
  table : Slot → Proc
  nextPid : ℤ
  currentIdx : Slot

def strncpyZ (src : List Byte) (n : ℕ) : List Byte := (src.takeWhile (· ≠ 0)).take (n - 1)

def Sys.set (s : Sys) (i : Slot) (p : Proc) : Sys := { s with table := Function.update s.table i p }

/-- `vmm_switch`: load a directory. -/
def Sys.load (s : Sys) (dir : Word) : Sys := { s with mmu := { s.mmu with cr3 := dir } }

def Sys.withVm (s : Sys) (vm : Vm) : Sys := { s with mmu := { s.mmu with vm := vm } }

def allSlots : List Slot := List.finRange maxProcs

def userSlots : List Slot := allSlots.tail

variable (k : BootDir)

def procInstall (s : Sys) : Sys :=
  { s with
    table := Function.update (fun _ => Proc.zero) 0
      ⟨0, 0, .running, k.dir, 0, 0, 0, strncpyZ (ascii "kernel") procNameSize⟩
    currentIdx := 0 }

def procCurrent (s : Sys) : Proc := s.table s.currentIdx

def procGet (s : Sys) (pid : ℤ) : Option Slot :=
  allSlots.find? fun i => decide ((s.table i).state ≠ .unused) && decide ((s.table i).pid = pid)

def incInt (n : ℤ) : ℤ := (n + 1).bmod (2 ^ 32)

def newProc (s : Sys) (name : Option (List Byte)) : Proc :=
  { Proc.zero with
    pid := s.nextPid
    ppid := (procCurrent s).pid
    state := .ready
    name := strncpyZ (name.getD (ascii "proc")) procNameSize }

def procAlloc (s : Sys) (name : Option (List Byte)) : Sys × Option Slot :=
  match userSlots.find? fun i => decide ((s.table i).state = .unused) with
  | none => (s, none)
  | some i => ({ s.set i (newProc s name) with nextPid := incInt s.nextPid }, some i)

def procFree (s : Sys) (i : Slot) : Sys :=
  if (s.table i).pid = 0 then s
  else
    let dir := (s.table i).dir
    let s := if dir ≠ 0 ∧ dir ≠ k.dir then s.withVm (vmmDestroyDir k s.mmu.vm dir) else s
    s.set i Proc.zero

def assignDir (s : Sys) (i : Slot) : Sys :=
  let (vm, dir) := vmmCreateDir k s.mmu.vm
  (s.withVm vm).set i { s.table i with dir := dir }

/-- `proc_fork`, with the clone it calls as a parameter. -/
def procForkWith (clone : Vm → Word → Vm × Word) (s : Sys) : Sys × ℤ :=
  let parent := procCurrent s
  match procAlloc s (some parent.name) with
  | (s, none) => (s, -1)
  | (s, some i) =>
    let (vm, dir) := clone s.mmu.vm parent.dir
    let s := s.withVm vm
    if dir = 0 then (s.set i { s.table i with dir := 0, state := .unused }, -1)
    else
      let child :=
        { s.table i with
          dir := dir
          ppid := parent.pid
          entry := parent.entry
          brk := parent.brk
          state := .ready }
      ((s.load parent.dir).set i child, child.pid)

def procFork (s : Sys) : Sys × ℤ := procForkWith (vmmCloneCow k) s

def reparent (pid : ℤ) (table : Slot → Proc) (i : Slot) : Proc :=
  if i ≠ 0 ∧ (table i).state ≠ .unused ∧ (table i).ppid = pid then { table i with ppid := 0 }
  else table i

def procExit (s : Sys) (code : ℤ) : Sys :=
  let i := s.currentIdx
  let p := procCurrent s
  if p.pid = 0 then s
  else
    let s := s.set i { p with exitCode := code, state := .zombie }
    let s := { s.load k.dir with currentIdx := 0 }
    let s := s.set 0 { s.table 0 with state := .running }
    let s :=
      if p.dir ≠ 0 ∧ p.dir ≠ k.dir then
        (s.withVm (vmmDestroyDir k s.mmu.vm p.dir)).set i { s.table i with dir := 0 }
      else s
    { s with table := reparent p.pid s.table }

def procWait (s : Sys) : Sys × ℤ × Option ℤ :=
  let me := procCurrent s
  match userSlots.find? fun i =>
      decide ((s.table i).state = .zombie) && decide ((s.table i).ppid = me.pid) with
  | none => (s, -1, none)
  | some i => (procFree k s i, (s.table i).pid, some (s.table i).exitCode)

def procSwitchTo (s : Sys) (pid : ℤ) : Sys × ℤ :=
  match procGet s pid with
  | none => (s, -1)
  | some i =>
    if (s.table i).state = .zombie ∨ (s.table i).dir = 0 then (s, -1)
    else
      let old := procCurrent s
      let s := if old.state = .running then s.set s.currentIdx { old with state := .ready } else s
      let s := { s with currentIdx := i }
      let s := s.set i { s.table i with state := .running }
      (s.load (s.table i).dir, 0)

def procBeginUser (s : Sys) (name : Option (List Byte)) : Sys × ℤ :=
  match procAlloc s name with
  | (s, none) => (s, -1)
  | (s, some i) =>
    let s := s.set i { s.table i with dir := k.dir, brk := userHeapBase }
    ((procSwitchTo s (s.table i).pid).1, (s.table i).pid)

def procEndUser (s : Sys) (pid : ℤ) : Sys :=
  let s := (procSwitchTo s 0).1
  match procGet s pid with
  | none => s
  | some i => procFree k s i

end PyroOS
