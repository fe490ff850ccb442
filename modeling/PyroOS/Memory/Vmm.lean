import PyroOS.Memory.Pmm

/-! The virtual memory manager: page directories and tables live in physical memory, and every
operation edits them there. TLB flushes do nothing here, since each access walks the tables. -/

namespace PyroOS

abbrev PhysMem := Word → ℕ → Word

def PhysMem.setPage (m : PhysMem) (a : Word) (page : ℕ → Word) : PhysMem :=
  Function.update m a page

def PhysMem.setWord (m : PhysMem) (a : Word) (i : ℕ) (w : Word) : PhysMem :=
  Function.update m a (Function.update (m a) i w)

/-- The boot page directory, in the kernel's own memory below the frame pool. -/
structure BootDir where
  dir : Word
  aligned : Aligned dir
  low : dir < managedBase
  ne_zero : dir ≠ 0

/-- Memory, its allocator, and (kept only for reasoning) the directories that `vmmCreateDir` has
handed out and `vmmDestroyDir` has not yet taken back. -/
structure Vm where
  mem : PhysMem
  pmm : Pmm
  dirs : List Word

variable (k : BootDir)

def vmmCreateDir (vm : Vm) : Vm × Word :=
  let (p, phys) := pmmAlloc vm.pmm
  if phys = 0 then ({ vm with pmm := p }, 0)
  else
    let m := vm.mem.setPage phys (fun _ => 0)
    let m := m.setWord phys 0 (m k.dir 0)
    let m := m.setWord phys 1 (m k.dir 1)
    (⟨m, p, phys :: vm.dirs⟩, phys)

def tableFor (vm : Vm) (dir virt : Word) (create : Bool) (flags : Word) : Vm × Word :=
  let di := dirIndex virt
  if !isPresent (vm.mem dir di) then
    if !create then (vm, 0)
    else
      let (p, phys) := pmmAlloc vm.pmm
      if phys = 0 then ({ vm with pmm := p }, 0)
      else
        let m := vm.mem.setPage phys (fun _ => 0)
        let m := m.setWord dir di (phys ||| (pfPresent ||| pfRw ||| (flags &&& pfUser)))
        ({ vm with mem := m, pmm := p }, frameOf (m dir di))
  else (vm, frameOf (vm.mem dir di))

def vmmMap (vm : Vm) (dir virt phys flags : Word) : Vm × Int :=
  let (vm, tab) := tableFor vm dir virt true flags
  if tab = 0 then (vm, -1)
  else
    let e := frameOf phys ||| (flagsOf flags ||| pfPresent)
    ({ vm with mem := vm.mem.setWord tab (tabIndex virt) e }, 0)

def vmmMapAlloc (vm : Vm) (dir virt flags : Word) : Vm × Int :=
  let (p, phys) := pmmAlloc vm.pmm
  if phys = 0 then ({ vm with pmm := p }, -1)
  else
    vmmMap { vm with mem := vm.mem.setPage phys (fun _ => 0), pmm := p } dir virt phys flags

def vmmTranslate (vm : Vm) (dir virt : Word) : Word :=
  let (vm, tab) := tableFor vm dir virt false 0
  if tab = 0 then 0
  else
    let e := vm.mem tab (tabIndex virt)
    if !isPresent e then 0 else frameOf e ||| (virt &&& 0xFFF)

def vmmUnmap (vm : Vm) (dir virt : Word) : Vm :=
  let (vm, tab) := tableFor vm dir virt false 0
  if tab = 0 then vm
  else
    let e := vm.mem tab (tabIndex virt)
    if isPresent e then
      { vm with mem := vm.mem.setWord tab (tabIndex virt) 0, pmm := pmmFree vm.pmm (frameOf e) }
    else vm

def destroyEntry (dir : Word) (vm : Vm) (di : ℕ) : Vm :=
  if !isPresent (vm.mem dir di) then vm
  else
    let tab := frameOf (vm.mem dir di)
    let p := (List.range 1024).foldl (fun p ti =>
      if isPresent (vm.mem tab ti) then pmmFree p (frameOf (vm.mem tab ti)) else p) vm.pmm
    { vm with mem := vm.mem.setWord dir di 0, pmm := pmmFree p tab }

def destroyEntries (dir : Word) (vm : Vm) : Vm := (List.range' 2 1022).foldl (destroyEntry dir) vm

def vmmDestroyDir (vm : Vm) (dir : Word) : Vm :=
  if dir = 0 ∨ dir = k.dir then vm
  else
    let vm := destroyEntries dir vm
    { vm with pmm := pmmFree vm.pmm dir, dirs := vm.dirs.erase dir }

/-- One directory entry of a clone: the copy always gets its own table, and `page` fills it.
The error carries the state in which a frame was missing. -/
def cloneEntry (page : Word → Word → Vm → ℕ → Except Vm Vm) (src dst : Word) (vm : Vm) (di : ℕ) :
    Except Vm Vm :=
  if !isPresent (vm.mem src di) then .ok vm
  else
    let (p, tab) := pmmAlloc vm.pmm
    if tab = 0 then .error { vm with pmm := p }
    else
      let srcTab := frameOf (vm.mem src di)
      let m := vm.mem.setPage tab (fun _ => 0)
      let m := m.setWord dst di (tab ||| flagsOf (m src di))
      (List.range 1024).foldlM (page srcTab tab) { vm with mem := m, pmm := p }

def cloneWith (page : Word → Word → Vm → ℕ → Except Vm Vm) (vm : Vm) (src : Word) : Vm × Word :=
  if src = 0 then (vm, 0)
  else
    let (vm, dst) := vmmCreateDir k vm
    if dst = 0 then (vm, 0)
    else
      match (List.range' 2 1022).foldlM (cloneEntry page src dst) vm with
      | .ok vm => (vm, dst)
      | .error vm => (vmmDestroyDir k vm dst, 0)

def copyPage (srcTab dstTab : Word) (vm : Vm) (ti : ℕ) : Except Vm Vm :=
  let e := vm.mem srcTab ti
  if !isPresent e then .ok vm
  else
    let (p, frame) := pmmAlloc vm.pmm
    if frame = 0 then .error { vm with pmm := p }
    else
      let m := vm.mem.setPage frame (vm.mem (frameOf e))
      .ok { vm with mem := m.setWord dstTab ti (frame ||| flagsOf e), pmm := p }

def sharePage (srcTab dstTab : Word) (vm : Vm) (ti : ℕ) : Except Vm Vm :=
  let e := vm.mem srcTab ti
  if !isPresent e then .ok vm
  else
    let shared := sharedEntry e
    .ok { vm with
      mem := (vm.mem.setWord srcTab ti shared).setWord dstTab ti shared
      pmm := pmmIncref vm.pmm (frameOf e) }

def vmmCloneDir (vm : Vm) (src : Word) : Vm × Word := cloneWith k copyPage vm src

def vmmCloneCow (vm : Vm) (src : Word) : Vm × Word := cloneWith k sharePage vm src

def vmmCowHandle (vm : Vm) (cr3 faultAddr errCode : Word) : Vm × Bool :=
  if errCode &&& 0x2 = 0 then (vm, false)
  else
    let dir := frameOf cr3
    let di := dirIndex faultAddr
    if !isPresent (vm.mem dir di) then (vm, false)
    else
      let tab := frameOf (vm.mem dir di)
      let ti := tabIndex faultAddr
      let e := vm.mem tab ti
      if !isPresent e || !isCow e then (vm, false)
      else
        let frame := frameOf e
        let flags := reclaimedFlags e
        if pmmRefcount vm.pmm frame ≤ 1 then
          ({ vm with mem := vm.mem.setWord tab ti (frame ||| flags) }, true)
        else
          let (p, fresh) := pmmAlloc vm.pmm
          if fresh = 0 then ({ vm with pmm := p }, false)
          else
            let m := vm.mem.setPage fresh (vm.mem frame)
            ({ vm with mem := m.setWord tab ti (fresh ||| flags), pmm := pmmFree p frame }, true)

/-! ### What the calls do to the pool -/

lemma tableFor_pmm (vm : Vm) (dir virt : Word) (create : Bool) (flags : Word) :
    (tableFor vm dir virt create flags).1.pmm = vm.pmm ∨
      (tableFor vm dir virt create flags).1.pmm = (pmmAlloc vm.pmm).1 := by
  rw [tableFor]
  dsimp only
  split
  · split
    · exact .inl rfl
    · right
      split <;> rfl
  · exact .inl rfl

lemma vmmMap_pmm (vm : Vm) (dir virt phys flags : Word) : (vmmMap vm dir virt phys flags).1.pmm = vm.pmm ∨
    (vmmMap vm dir virt phys flags).1.pmm = (pmmAlloc vm.pmm).1 := by
  have h := tableFor_pmm vm dir virt true flags
  rw [vmmMap]
  generalize tableFor vm dir virt true flags = r at h ⊢
  obtain ⟨vm', tab⟩ := r
  dsimp only
  split <;> exact h

lemma vmmMapAlloc_pmm (vm : Vm) (dir virt flags : Word) : (vmmMapAlloc vm dir virt flags).1.pmm = (pmmAlloc vm.pmm).1 ∨
    (vmmMapAlloc vm dir virt flags).1.pmm = (pmmAlloc (pmmAlloc vm.pmm).1).1 := by
  rw [vmmMapAlloc]
  generalize pmmAlloc vm.pmm = r
  obtain ⟨p, phys⟩ := r
  dsimp only
  split
  · exact .inl rfl
  · exact vmmMap_pmm _ dir virt phys flags

lemma vmmCowHandle_pmm (vm : Vm) (cr3 faultAddr errCode : Word) :
    (vmmCowHandle vm cr3 faultAddr errCode).1.pmm = vm.pmm ∨
    (vmmCowHandle vm cr3 faultAddr errCode).1.pmm = (pmmAlloc vm.pmm).1 ∨
    ∃ f, 1 < pmmRefcount vm.pmm f ∧
      (vmmCowHandle vm cr3 faultAddr errCode).1.pmm = pmmFree (pmmAlloc vm.pmm).1 f := by
  rw [vmmCowHandle]
  dsimp only
  split
  · exact .inl rfl
  split
  · exact .inl rfl
  split
  · exact .inl rfl
  split
  · exact .inl rfl
  rename_i hmany
  right
  split
  · exact .inl rfl
  · exact .inr ⟨_, not_le.mp hmany, rfl⟩

end PyroOS
