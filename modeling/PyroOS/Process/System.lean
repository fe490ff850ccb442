import PyroOS.Process.Table

/-! Runs of the kernel: process calls and memory accesses in any order, and what they preserve. -/

namespace PyroOS

open Sharing

inductive Op where
  | alloc (name : Option (List Byte))
  | assign (i : Slot)
  | fork
  | exit (code : ℤ)
  | wait
  | switch (pid : ℤ)
  | beginUser (name : Option (List Byte))
  | endUser (pid : ℤ)
  | map (dir virt flags : Word)
  | unmap (dir virt : Word)
  | promise (dir start stop flags : Word)
  | unpromise
  | load (va : Word) (user : Bool)
  | store (va : Word) (b : Byte) (user : Bool)

section

variable (k : BootDir)

def Op.apply : Op → Sys → Sys
  | .alloc name, s => (procAlloc s name).1
  | .assign i, s => assignDir k s i
  | .fork, s => (procFork k s).1
  | .exit code, s => procExit k s code
  | .wait, s => (procWait k s).1
  | .switch pid, s => (procSwitchTo s pid).1
  | .beginUser name, s => (procBeginUser k s name).1
  | .endUser pid, s => procEndUser k s pid
  | .map dir virt flags, s => s.withVm (vmmMapAlloc s.mmu.vm dir virt flags).1
  | .unmap dir virt, s => s.withVm (vmmUnmap s.mmu.vm dir virt)
  | .promise dir start stop flags, s =>
    { s with mmu := { s.mmu with demand := demandRegion s.mmu.demand dir start stop flags } }
  | .unpromise, s => { s with mmu := { s.mmu with demand := demandClear s.mmu.demand } }
  | .load va user, s => { s with mmu := (loadByte s.mmu va user).1 }
  | .store va b user, s => { s with mmu := (storeByte s.mmu va b user).1 }

def LiveDir (s : Sys) (dir : Word) : Prop :=
  dir ≠ 0 ∧ ∃ i, (s.table i).state ≠ .unused ∧ (s.table i).dir = dir

/-- When an operation is within the contract: a directory is assigned to a process that is fresh,
pages are mapped where none is, at 8 MB or above, and no mapping runs out of frames. -/
def Op.Enabled : Op → Sys → Prop
  | .assign i, s => (s.table i).state = .ready ∧ (s.table i).dir = 0
  | .map dir virt flags, s => LiveDir s dir ∧ privateBase ≤ virt ∧
    pteAt s.mmu.vm.mem dir (dirIndex virt) (tabIndex virt) = none ∧
    (vmmMapAlloc s.mmu.vm dir virt flags).2 = 0
  | .unmap dir virt, s => LiveDir s dir ∧ privateBase ≤ virt
  | .load va _, s => privateBase ≤ va ∧ s.mmu.MapsSucceed va
  | .store va _ _, s => privateBase ≤ va ∧ s.mmu.MapsSucceed va
  | _, _ => True

def Op.creates : Op → Sys → ℕ
  | .alloc _, s | .fork, s | .beginUser _, s => if (procAlloc s none).2.isSome then 1 else 0
  | _, _ => 0

/-- Runs whose every step meets `ok`; `n` counts the processes created so far. -/
inductive Run (ok : Op → Sys → Prop) (s₀ : Sys) : ℕ → Sys → Prop
  | boot : Run ok s₀ 0 s₀
  | step {n : ℕ} {s : Sys} (op : Op) : Run ok s₀ n s → ok op s →
    Run ok s₀ (n + op.creates s) (op.apply k s)

end

/-! ### The invariant -/

variable {k : BootDir} {t : Slot → Proc} {i : Slot} {p : Proc}

abbrev Proc.Live (p : Proc) : Prop := p.state ≠ .unused

def holds (k : BootDir) (p : Proc) : Option Word :=
  if p.Live ∧ p.dir ≠ 0 ∧ p.dir ≠ k.dir then some p.dir else none

structure Slots (k : BootDir) (t : Slot → Proc) : Prop where
  kernelPid : (t 0).pid = 0
  kernelDir : (t 0).dir = k.dir
  kernelState : (t 0).state = .ready ∨ (t 0).state = .running
  zombie : ∀ i, (t i).state = .zombie → (t i).dir = 0 ∨ (t i).dir = k.dir

structure Runs (t : Slot → Proc) (current : Slot) (cr3 : Word) : Prop where
  running : ∀ i, (t i).state = .running ↔ i = current
  loaded : cr3 = (t current).dir
  dir_ne : (t current).dir ≠ 0

def Owns (k : BootDir) (t : Slot → Proc) (dirs : List Word) : Prop :=
  targets allSlots (fun i => holds k (t i)) = (dirs : Multiset Word)

structure Holding (B : Vm → Prop) (k : BootDir) (s : Sys) : Prop where
  books : B s.mmu.vm
  owns : Owns k s.table s.mmu.vm.dirs
  slots : Slots k s.table
  runs : Runs s.table s.currentIdx s.mmu.cr3

structure Inv (k : BootDir) (s : Sys) : Prop where
  sound : Sound k s.mmu.vm
  owns : Owns k s.table s.mmu.vm.dirs
  slots : Slots k s.table
  runs : Runs s.table s.currentIdx s.mmu.cr3

lemma mem_allSlots (i : Slot) : i ∈ allSlots := List.mem_finRange i

lemma mem_userSlots {i : Slot} : i ∈ userSlots ↔ i ≠ 0 := by
  revert i
  decide

namespace Slots

lemma update (h : Slots k t) (i : Slot) (p : Proc)
    (hkernel : i = 0 → p.pid = 0 ∧ p.dir = k.dir ∧ (p.state = .ready ∨ p.state = .running))
    (hz : p.state = .zombie → p.dir = 0 ∨ p.dir = k.dir) : Slots k (Function.update t i p) := by
  have hself : Function.update t i p i = p := Function.update_self ..
  have hother : ∀ j, j ≠ i → Function.update t i p j = t j := fun j hj => Function.update_of_ne hj ..
  have hzero : (Function.update t i p 0).pid = 0 ∧ (Function.update t i p 0).dir = k.dir ∧
      ((Function.update t i p 0).state = .ready ∨ (Function.update t i p 0).state = .running) := by
    by_cases hi : i = 0
    · rw [← hi, hself]
      exact hkernel hi
    · rw [hother 0 (Ne.symm hi)]
      exact ⟨h.kernelPid, h.kernelDir, h.kernelState⟩
  refine ⟨hzero.1, hzero.2.1, hzero.2.2, ?_⟩
  intro j hj
  by_cases hi : j = i
  · rw [hi, hself] at hj ⊢
    exact hz hj
  · rw [hother j hi] at hj ⊢
    exact h.zombie j hj

lemma clear (h : Slots k t) (hi : i ≠ 0) : Slots k (Function.update t i Proc.zero) :=
  h.update i Proc.zero (fun hh => (hi hh).elim) (fun hz => by cases hz)

lemma congr (h : Slots k t) {t' : Slot → Proc}
    (he : ∀ i, (t' i).pid = (t i).pid ∧ (t' i).dir = (t i).dir ∧ (t' i).state = (t i).state) :
    Slots k t' := by
  refine ⟨?_, ?_, ?_, ?_⟩
  · rw [(he 0).1, h.kernelPid]
  · rw [(he 0).2.1, h.kernelDir]
  · rw [(he 0).2.2]
    exact h.kernelState
  · intro i hi
    rw [(he i).2.2] at hi
    rw [(he i).2.1]
    exact h.zombie i hi

lemma live_zero (h : Slots k t) : (t 0).Live := by
  rcases h.kernelState with hs | hs <;> simp [Proc.Live, hs]

end Slots

namespace Owns

variable {dirs : List Word} {d : Word}

lemma update (h : Owns k t dirs) (i : Slot) (p : Proc) :
    targets allSlots (fun j => holds k (Function.update t i p j)) + single (holds k (t i)) =
      (dirs : Multiset Word) + single (holds k p) := by
  have hkeep : ∀ j ∈ allSlots, j ≠ i → holds k (Function.update t i p j) = holds k (t j) :=
    fun j _ hj => by rw [Function.update_of_ne hj]
  have hh := targets_redirect (List.nodup_finRange _) (mem_allSlots i) hkeep
  rw [Function.update_self] at hh
  rw [← h]
  exact hh

lemma same (h : Owns k t dirs) (hp : holds k p = holds k (t i)) : Owns k (Function.update t i p) dirs := by
  have hh := h.update i p
  rw [hp] at hh
  exact add_right_cancel hh

lemma add (h : Owns k t dirs) (hi : holds k (t i) = none) (hp : holds k p = some d) :
    Owns k (Function.update t i p) (d :: dirs) := by
  have hh := h.update i p
  rw [hi, hp, single_none, add_zero, single_some, add_comm, Multiset.singleton_add,
    Multiset.cons_coe] at hh
  exact hh

lemma drop (h : Owns k t dirs) (hi : holds k (t i) = some d) (hp : holds k p = none) :
    Owns k (Function.update t i p) (dirs.erase d) := by
  have hh := h.update i p
  rw [hi, hp, single_none, add_zero, single_some] at hh
  rw [Owns, ← Multiset.coe_erase, ← hh, add_comm, Multiset.singleton_add, Multiset.erase_cons_head]

lemma congr (h : Owns k t dirs) {t' : Slot → Proc}
    (he : ∀ i, (t' i).dir = (t i).dir ∧ (t' i).state = (t i).state) : Owns k t' dirs := by
  rw [Owns, ← h]
  apply targets_congr
  intro i _
  simp only [holds, Proc.Live, (he i).1, (he i).2]

lemma mem_iff (h : Owns k t dirs) : d ∈ dirs ↔ ∃ i, holds k (t i) = some d := by
  rw [← Multiset.mem_coe, ← h, mem_targets]
  exact ⟨fun ⟨i, _, hi⟩ => ⟨i, hi⟩, fun ⟨i, hi⟩ => ⟨i, mem_allSlots i, hi⟩⟩

lemma length_le (h : Owns k t dirs) (hk : (t 0).dir = k.dir) : dirs.length ≤ 15 := by
  have hzero : holds k (t 0) = none := by simp [holds, hk]
  have hsplit : allSlots = 0 :: userSlots := by decide
  have hcard := congrArg Multiset.card h
  rw [hsplit, targets_cons, hzero, single_none, zero_add, targets, Multiset.coe_card,
    Multiset.coe_card] at hcard
  rw [← hcard]
  exact (List.length_filterMap_le _ _).trans (by decide)

lemma unique (h : Owns k t dirs) (hn : dirs.Nodup) {j : Slot} (hi : holds k (t i) = some d)
    (hj : holds k (t j) = some d) : i = j := by
  apply unique_of_count (t := fun i => holds k (t i)) (f := d) _ (mem_allSlots i) (mem_allSlots j) hi hj
  rw [h]
  exact Multiset.nodup_iff_count_le_one.mp (Multiset.coe_nodup.mpr hn) d

end Owns

lemma holds_eq_some {d : Word} : holds k p = some d ↔ p.Live ∧ d ≠ 0 ∧ d ≠ k.dir ∧ p.dir = d := by
  rw [holds]
  split
  · rename_i h
    constructor
    · intro hh
      obtain rfl := Option.some.inj hh
      exact ⟨h.1, h.2.1, h.2.2, rfl⟩
    · rintro ⟨_, _, _, rfl⟩
      rfl
  · rename_i h
    constructor
    · intro hh
      cases hh
    · rintro ⟨h₁, h₂, h₃, rfl⟩
      exact (h ⟨h₁, h₂, h₃⟩).elim

lemma holds_eq_none : holds k p = none ↔ (p.Live → p.dir = 0 ∨ p.dir = k.dir) := by
  rw [holds]
  split
  · simp_all
  · simp_all
    tauto

variable {B : Vm → Prop} {s : Sys}

namespace Holding

lemma current_live (h : Holding B k s) : (procCurrent s).state = .running :=
  (h.runs.running s.currentIdx).mpr rfl

lemma live_space (h : Holding B k s) {d : Word} (hd : LiveDir s d) : d ∈ spaces k s.mmu.vm.dirs := by
  obtain ⟨hz, i, hi, rfl⟩ := hd
  by_cases hk : (s.table i).dir = k.dir
  · rw [hk]
    exact List.mem_cons_self
  · exact List.mem_cons_of_mem _ (h.owns.mem_iff.mpr ⟨i, holds_eq_some.mpr ⟨hi, hz, hk, rfl⟩⟩)

lemma current_space (h : Holding B k s) : (procCurrent s).dir ∈ spaces k s.mmu.vm.dirs := by
  apply h.live_space
  refine ⟨h.runs.dir_ne, s.currentIdx, ?_, rfl⟩
  have hr := h.current_live
  simp only [procCurrent] at hr
  simp [hr]

lemma loaded (h : Holding B k s) : s.mmu.cr3 ∈ spaces k s.mmu.vm.dirs := by
  rw [h.runs.loaded]
  exact h.current_space

lemma withVm (h : Holding B k s) {vm : Vm} (hs : B vm) (hd : vm.dirs = s.mmu.vm.dirs) :
    Holding B k (s.withVm vm) :=
  ⟨hs, by rw [show (s.withVm vm).mmu.vm.dirs = _ from hd]; exact h.owns, h.slots, h.runs⟩

end Holding

namespace Inv

lemma holding (h : Inv k s) : Holding (Sound k) k s := ⟨h.sound, h.owns, h.slots, h.runs⟩

lemma of_holding (h : Holding (Sound k) k s) : Inv k s := ⟨h.books, h.owns, h.slots, h.runs⟩

lemma current_live (h : Inv k s) : (procCurrent s).state = .running := h.holding.current_live

lemma live_space (h : Inv k s) {d : Word} (hd : LiveDir s d) : d ∈ spaces k s.mmu.vm.dirs := h.holding.live_space hd

lemma current_space (h : Inv k s) : (procCurrent s).dir ∈ spaces k s.mmu.vm.dirs := h.holding.current_space

lemma ok (h : Inv k s) : s.mmu.Ok k := ⟨h.sound, h.holding.loaded⟩

lemma withVm (h : Inv k s) {vm : Vm} (hs : Sound k vm) (hd : vm.dirs = s.mmu.vm.dirs) : Inv k (s.withVm vm) :=
  of_holding (h.holding.withVm hs hd)

end Inv

/-! ### Process calls -/

lemma procAlloc_cases (s : Sys) (name : Option (List Byte)) :
    (procAlloc s name = (s, none) ∧ (procAlloc s none).2 = none) ∨
      ∃ i, i ≠ 0 ∧ (s.table i).state = .unused ∧ (procAlloc s none).2 = some i ∧
        procAlloc s name =
          ({ s.set i (newProc s name) with nextPid := incInt s.nextPid }, some i) := by
  simp only [procAlloc]
  cases hf : userSlots.find? fun i => decide ((s.table i).state = .unused) with
  | none => exact Or.inl ⟨rfl, rfl⟩
  | some i =>
    have hs := List.find?_some hf
    exact Or.inr ⟨i, mem_userSlots.mp (List.mem_of_find?_eq_some hf), by simpa using hs, rfl, rfl⟩

lemma procWait_cases (k : BootDir) (s : Sys) :
    (procWait k s = (s, -1, none) ∧ ∀ i, i ≠ 0 → (s.table i).state = .zombie →
      (s.table i).ppid ≠ (procCurrent s).pid) ∨
    ∃ i, i ≠ 0 ∧ (s.table i).state = .zombie ∧ (s.table i).ppid = (procCurrent s).pid ∧
      procWait k s = (procFree k s i, (s.table i).pid, some (s.table i).exitCode) := by
  rw [procWait]
  cases hf : userSlots.find? fun i => decide ((s.table i).state = .zombie) &&
      decide ((s.table i).ppid = (procCurrent s).pid) with
  | none =>
    refine Or.inl ⟨rfl, ?_⟩
    intro i hi hz hp
    have hh := List.find?_eq_none.mp hf i (mem_userSlots.mpr hi)
    simp [hz, hp] at hh
  | some i =>
    have hz := List.find?_some hf
    simp only [Bool.and_eq_true, decide_eq_true_eq] at hz
    exact Or.inr ⟨i, mem_userSlots.mp (List.mem_of_find?_eq_some hf), hz.1, hz.2, rfl⟩

lemma procGet_some {s : Sys} {pid : ℤ} {i : Slot} (h : procGet s pid = some i) :
    (s.table i).Live ∧ (s.table i).pid = pid := by
  have hs := List.find?_some h
  simpa using hs

lemma Runs.update {current : Slot} {cr3 : Word} (h : Runs t current cr3) (hi : i ≠ current)
    (hp : p.state ≠ .running) : Runs (Function.update t i p) current cr3 := by
  have hcur : Function.update t i p current = t current := Function.update_of_ne (Ne.symm hi) ..
  refine ⟨?_, by rw [hcur]; exact h.loaded, by rw [hcur]; exact h.dir_ne⟩
  intro j
  by_cases hj : j = i
  · rw [hj, Function.update_self]
    exact ⟨fun hh => (hp hh).elim, fun hh => (hi hh).elim⟩
  · rw [Function.update_of_ne hj]
    exact h.running j

namespace Holding

lemma ne_current (h : Holding B k s) (hi : (s.table i).state ≠ .running) : i ≠ s.currentIdx :=
  fun he => hi ((h.runs.running i).mpr he)

lemma fresh (h : Holding B k s) (hi : i ≠ 0) (hu : (s.table i).state = .unused) (name : Option (List Byte)) :
    Holding B k { s.set i (newProc s name) with nextPid := incInt s.nextPid } := by
  have hcur : i ≠ s.currentIdx := h.ne_current (by simp [hu])
  refine ⟨h.books, h.owns.same ?_, ?_, h.runs.update hcur (by simp [newProc])⟩
  · rw [holds_eq_none.mpr (fun _ => Or.inl rfl), holds_eq_none.mpr (fun hl => (hl hu).elim)]
  · exact h.slots.update i (newProc s name) (fun hh => (hi hh).elim) (fun hh => by simp [newProc] at hh)

end Holding

end PyroOS
