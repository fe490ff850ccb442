import PyroOS.Memory.Demand
import PyroOS.Process.Independent

/-! Process calls are runs of the memory manager's operations, and none of these touches the tables of the
first 8 MB, which every address space has in common. -/

namespace PyroOS

open Sharing

variable {k : BootDir} {s : Sys} {u : Mmu} {vm vm' vm'' : Vm} {L : Multiset Word} {va d : Word} {write user : Bool}

def LowKept (k : BootDir) (vm vm' : Vm) : Prop :=
  ∀ b i, b < managedBase → b ≠ k.dir ∨ i < 2 → vm'.mem b i = vm.mem b i

namespace VmRun

lemma trans (h : VmRun k vm vm') (h' : VmRun k vm' vm'') : VmRun k vm vm'' := by
  induction h' with
  | start => exact h
  | step op _ hop ih => exact .step op ih hop

lemma one (op : VmOp) (hop : op.Allowed k vm) : VmRun k vm (op.apply k vm) := .step op .start hop

lemma low (h : VmRun k vm vm') (hb : Backed k L vm) : LowKept k vm vm' := by
  induction h with
  | start => exact fun _ _ _ _ => rfl
  | step op hrun hop ih =>
    obtain ⟨L', hb'⟩ := hrun.backed ⟨L, hb⟩
    exact fun b i h₁ h₂ => ((op.step hb' hop).2.1.low b i h₁ h₂).trans (ih b i h₁ h₂)

end VmRun

/-! ### Accesses -/

structure Serviced (k : BootDir) (u u' : Mmu) : Prop where
  run : VmRun k u.vm u'.vm
  dirs : u'.vm.dirs = u.vm.dirs
  cr3 : u'.cr3 = u.cr3

lemma Serviced.refl (u : Mmu) : Serviced k u u := ⟨.start, rfl, rfl⟩

lemma Serviced.trans {u' u'' : Mmu} (h : Serviced k u u') (h' : Serviced k u' u'') : Serviced k u u'' :=
  ⟨h.run.trans h'.run, h'.dirs.trans h.dirs, h'.cr3.trans h.cr3⟩

lemma demandHandle_serviced (code : Word) (hb : Backed k L u.vm) (hl : u.cr3 ∈ spaces k u.vm.dirs)
    (hv : privateBase ≤ va) : Serviced k u (demandHandle u va code).1 := by
  rw [demandHandle]
  split
  · exact .refl u
  · cases hp : promised u.demand (frameOf u.cr3) va with
    | none => exact .refl u
    | some r =>
      have hdir : r.dir = u.cr3 := (promised_dir hp).trans (hb.layout.space_aligned hl)
      have hv' := frameOf_private hv
      have hrun : VmRun k u.vm (vmmMapAlloc u.vm u.cr3 (frameOf va) r.flags).1 :=
        .one (.mapAlloc u.cr3 (frameOf va) r.flags) ⟨hl, hv'⟩
      have hdirs := (hb.mapAlloc r.flags hl hv').1.dirs
      simp only [hdir, and_pageMask]
      split
      · exact ⟨hrun, hdirs, rfl⟩
      · exact ⟨hrun, hdirs, rfl⟩

lemma isrPageFault_serviced (code : Word) (hb : Backed k L u.vm) (hl : u.cr3 ∈ spaces k u.vm.dirs)
    (hv : privateBase ≤ va) : Serviced k u (isrPageFault u va code).1 := by
  have hd := demandHandle_serviced code hb hl hv
  rw [isrPageFault]
  generalize demandHandle u va code = r at hd ⊢
  obtain ⟨u', served⟩ := r
  cases served with
  | true => exact hd
  | false =>
    dsimp only at hd
    obtain ⟨L', hb'⟩ := hd.run.backed ⟨L, hb⟩
    have hl' : u'.cr3 ∈ spaces k u'.vm.dirs := by
      rw [hd.dirs, hd.cr3]
      exact hl
    have hrun : VmRun k u'.vm (vmmCowHandle u'.vm u'.cr3 va code).1 := .one (.cowHandle u'.cr3 va code) ⟨hl', hv⟩
    have hdirs := (hb'.cowHandle code hl' hv).dirs
    exact hd.trans ⟨hrun, hdirs, rfl⟩

lemma accessWith_serviced (write user : Bool) (n : ℕ) (hb : Backed k L u.vm) (hl : u.cr3 ∈ spaces k u.vm.dirs)
    (hv : privateBase ≤ va) : Serviced k u (accessWith n u va write user).1 := by
  induction n generalizing u L with
  | zero => exact .refl u
  | succ n ih =>
    rw [accessWith]
    cases walk u.vm.mem u.cr3 va write user with
    | ok e => exact .refl u
    | error code =>
      have hf := isrPageFault_serviced code hb hl hv
      simp only
      generalize isrPageFault u va code = r at hf ⊢
      obtain ⟨u', again⟩ := r
      cases again with
      | false => exact hf
      | true =>
        obtain ⟨L', hb'⟩ := hf.run.backed ⟨L, hb⟩
        exact hf.trans (ih hb' (by rw [hf.dirs, hf.cr3]; exact hl))

lemma loadByte_serviced (user : Bool) (hb : Backed k L u.vm) (hl : u.cr3 ∈ spaces k u.vm.dirs)
    (hv : privateBase ≤ va) : Serviced k u (loadByte u va user).1 := by
  have ha := accessWith_serviced false user 3 hb hl hv
  rw [loadByte, access]
  generalize accessWith 3 u va false user = r at ha ⊢
  obtain ⟨u', _ | e⟩ := r <;> exact ha

lemma storeByte_cases (b : Byte) (user : Bool) (hb : Backed k L u.vm) (hl : u.cr3 ∈ spaces k u.vm.dirs)
    (hv : privateBase ≤ va) : ∃ u', Serviced k u u' ∧ ((storeByte u va b user).1 = u' ∨
      ∃ e i w, u'.pte va = some e ∧
        (storeByte u va b user).1 = { u' with vm := { u'.vm with mem := u'.vm.mem.setWord (frameOf e) i w } }) := by
  have ha := accessWith_serviced true user 3 hb hl hv
  obtain ⟨L', hb'⟩ := ha.run.backed ⟨L, hb⟩
  refine ⟨_, ha, ?_⟩
  rw [storeByte, access]
  rcases hr : accessWith 3 u va true user with ⟨u', _ | e⟩
  · exact .inl rfl
  · rw [hr] at ha hb'
    have hl' : u'.cr3 ∈ spaces k u'.vm.dirs := by
      rw [ha.dirs, ha.cr3]
      exact hl
    exact .inr ⟨e, _, _, (walk_ok (hb'.layout.space_aligned hl') (accessWith_walk _ hr)).1, rfl⟩

/-! ### Memory operations in any order -/

inductive MmuOp where
  | vm (op : VmOp)
  | promise (dir start stop flags : Word)
  | unpromise
  | switch (d : Word)
  | load (va : Word) (user : Bool)
  | store (va : Word) (b : Byte) (user : Bool)

def MmuOp.apply (k : BootDir) : MmuOp → Mmu → Mmu
  | .vm op, u => { u with vm := op.apply k u.vm }
  | .promise dir start stop flags, u => { u with demand := demandRegion u.demand dir start stop flags }
  | .unpromise, u => { u with demand := demandClear u.demand }
  | .switch d, u => { u with cr3 := d }
  | .load va user, u => (loadByte u va user).1
  | .store va b user, u => (storeByte u va b user).1

def MmuOp.Allowed (k : BootDir) : MmuOp → Mmu → Prop
  | .vm op, u => op.Allowed k u.vm
  | .load va _, u | .store va _ _, u => u.cr3 ∈ spaces k u.vm.dirs ∧ privateBase ≤ va
  | _, _ => True

inductive MmuRun (k : BootDir) (ok : MmuOp → Mmu → Prop) (u₀ : Mmu) : Mmu → Prop
  | start : MmuRun k ok u₀ u₀
  | step {u : Mmu} (op : MmuOp) : MmuRun k ok u₀ u → ok op u → MmuRun k ok u₀ (op.apply k u)

def MmuOp.Plain : MmuOp → Prop
  | .vm (.mapAlloc _ _ flags) | .promise _ _ _ flags => isCow flags = false
  | _ => True

variable {ok ok' : MmuOp → Mmu → Prop} {u₀ u' u'' : Mmu}

namespace MmuRun

lemma trans (h : MmuRun k ok u u') (h' : MmuRun k ok u' u'') : MmuRun k ok u u'' := by
  induction h' with
  | start => exact h
  | step op _ hop ih => exact .step op ih hop

lemma one (op : MmuOp) (hop : ok op u) : MmuRun k ok u (op.apply k u) := .step op .start hop

lemma mono (h : MmuRun k ok u u') (hok : ∀ op u, ok op u → ok' op u) : MmuRun k ok' u u' := by
  induction h with
  | start => exact .start
  | step op _ hop ih => exact .step op ih (hok _ _ hop)

end MmuRun

lemma MmuOp.step (op : MmuOp) (hb : Backed k L u.vm) (hop : op.Allowed k u) :
    (∃ L', Backed k L' (op.apply k u).vm) ∧ LowKept k u.vm (op.apply k u).vm := by
  have hsame : LowKept k u.vm u.vm := fun _ _ _ _ => rfl
  cases op with
  | vm op =>
    obtain ⟨hb', hu, _⟩ := op.step hb hop
    exact ⟨hb', hu.low⟩
  | promise dir start stop flags => exact ⟨⟨L, hb⟩, hsame⟩
  | unpromise => exact ⟨⟨L, hb⟩, hsame⟩
  | switch d => exact ⟨⟨L, hb⟩, hsame⟩
  | load va user =>
    have hs := loadByte_serviced user hb hop.1 hop.2
    exact ⟨hs.run.backed ⟨L, hb⟩, hs.run.low hb⟩
  | store va b user =>
    obtain ⟨u', hs, hcase⟩ := storeByte_cases b user hb hop.1 hop.2
    obtain ⟨L', hb'⟩ := hs.run.backed ⟨L, hb⟩
    have hlow := hs.run.low hb
    rw [MmuOp.apply]
    rcases hcase with hst | ⟨e, i, w, hpte, hst⟩
    · rw [hst]
      exact ⟨⟨L', hb'⟩, hlow⟩
    · rw [hst]
      obtain ⟨hw, _, hlow'⟩ := hb'.write i w (by rw [hs.dirs, hs.cr3]; exact hop.1) hop.2 hpte
      exact ⟨⟨L', hw⟩, fun b i h₁ h₂ => (hlow' b i h₁ h₂).trans (hlow b i h₁ h₂)⟩

lemma MmuRun.step_all (h : MmuRun k (MmuOp.Allowed k) u₀ u) (h₀ : ∃ L, Backed k L u₀.vm) :
    (∃ L, Backed k L u.vm) ∧ LowKept k u₀.vm u.vm := by
  induction h with
  | start => exact ⟨h₀, fun _ _ _ _ => rfl⟩
  | step op _ hop ih =>
    obtain ⟨⟨L, hb⟩, hlow⟩ := ih
    obtain ⟨hb', hlow'⟩ := op.step hb hop
    exact ⟨hb', fun b i h₁ h₂ => (hlow' b i h₁ h₂).trans (hlow b i h₁ h₂)⟩

/-! ### Process calls -/

def Op.Attempted : Op → Sys → Prop
  | .assign i, s => (s.table i).state = .ready ∧ (s.table i).dir = 0
  | .map dir virt _, s => LiveDir s dir ∧ privateBase ≤ virt ∧
    pteAt s.mmu.vm.mem dir (dirIndex virt) (tabIndex virt) = none
  | .unmap dir virt, s => LiveDir s dir ∧ privateBase ≤ virt
  | .load va _, _ | .store va _ _, _ => privateBase ≤ va
  | _, _ => True

lemma Op.Enabled.attempted {op : Op} (h : op.Enabled s) : op.Attempted s := by
  cases op with
  | assign i => exact h
  | map dir virt flags => exact ⟨h.1, h.2.1, h.2.2.1⟩
  | unmap dir virt => exact h
  | load va user => exact h.1
  | store va b user => exact h.1
  | _ => trivial

def Op.Plain : Op → Prop
  | .map _ _ flags | .promise _ _ _ flags => isCow flags = false
  | _ => True

def Op.Allows (op : Op) (k : BootDir) (o : MmuOp) (u : Mmu) : Prop := o.Allowed k u ∧ (op.Plain → o.Plain)

variable {B : Vm → Prop} {op : Op}

lemma Holding.free_run (h : Holding B k s) {i : Slot} (hlive : (s.table i).Live) :
    MmuRun k (op.Allows k) s.mmu (procFree k s i).mmu := by
  rw [procFree]
  split
  · exact .start
  · dsimp only
    split
    · rename_i hd
      exact .one (.vm (.destroy (s.table i).dir)) ⟨h.live_space ⟨hd.1, i, hlive, rfl⟩, fun _ => trivial⟩
    · exact .start

lemma Holding.exit_run (h : Holding B k s) (code : ℤ) : MmuRun k (op.Allows k) s.mmu (procExit k s code).mmu := by
  by_cases hpid : (procCurrent s).pid = 0
  · rw [procExit, if_pos hpid]
    exact .start
  · rw [procExit_eq k (h.current_pid hpid) code hpid]
    have hload : MmuRun k (op.Allows k) s.mmu { s.mmu with cr3 := k.dir } :=
      .one (.switch k.dir) ⟨trivial, fun _ => trivial⟩
    dsimp only
    split
    · exact hload.trans (.one (.vm (.destroy (procCurrent s).dir)) ⟨h.current_space, fun _ => trivial⟩)
    · exact hload

lemma Holding.room (h : Holding B k s) (src : Word) : RoomToShare k s.mmu.vm src := by
  intro di ti f _ _
  have hlen := h.length_le
  refine lt_of_le_of_lt List.countP_le_length ?_
  rw [spaces, List.length_cons]
  omega

lemma Holding.fork_run (h : Holding B k s) : MmuRun k (op.Allows k) s.mmu (procFork k s).1.mmu := by
  have hrun : MmuRun k (op.Allows k) s.mmu { s.mmu with vm := (vmmCloneCow k s.mmu.vm (procCurrent s).dir).1 } :=
    .one (.vm (.cloneCow (procCurrent s).dir)) ⟨⟨h.current_space, h.room _⟩, fun _ => trivial⟩
  rw [procFork]
  rcases procForkWith_cases (vmmCloneCow k) s with ⟨hf, _⟩ | ⟨i, _, _, _, hf⟩
  · rw [hf]
    exact .start
  · rcases hc : vmmCloneCow k s.mmu.vm (procCurrent s).dir with ⟨vm, dir⟩
    rw [hc] at hrun
    rw [hf _ _ hc]
    by_cases hdir : dir = 0
    · rw [if_pos hdir]
      exact hrun
    · rw [if_neg hdir]
      exact hrun.trans (.one (.switch (procCurrent s).dir) ⟨trivial, fun _ => trivial⟩)

lemma procSwitchTo_mmu (s : Sys) (pid : ℤ) : ∃ d, (procSwitchTo s pid).1.mmu = { s.mmu with cr3 := d } := by
  rw [procSwitchTo]
  cases procGet s pid with
  | none => exact ⟨s.mmu.cr3, rfl⟩
  | some i =>
    dsimp only
    split
    · exact ⟨s.mmu.cr3, rfl⟩
    · split <;> exact ⟨_, rfl⟩

lemma procSwitchTo_run (s : Sys) (pid : ℤ) : MmuRun k (op.Allows k) s.mmu (procSwitchTo s pid).1.mmu := by
  obtain ⟨d, hd⟩ := procSwitchTo_mmu s pid
  rw [hd]
  exact .one (.switch d) ⟨trivial, fun _ => trivial⟩

lemma Op.mmuRun (op : Op) (h : Holding B k s) (hop : op.Attempted s) :
    MmuRun k (op.Allows k) s.mmu (op.apply k s).mmu := by
  cases op with
  | alloc name =>
    rcases procAlloc_cases s name with ⟨ha, _⟩ | ⟨i, _, _, _, ha⟩ <;> rw [Op.apply, ha] <;> exact .start
  | assign i => exact .one (.vm .create) ⟨trivial, fun _ => trivial⟩
  | fork => exact h.fork_run
  | exit code => exact h.exit_run code
  | wait =>
    rcases procWait_cases k s with ⟨hw, -⟩ | ⟨i, -, hz, -, hw⟩
    · rw [Op.apply, hw]
      exact .start
    · rw [Op.apply, hw]
      exact h.free_run (by rw [Proc.Live, hz]; simp)
  | switch pid => exact procSwitchTo_run s pid
  | beginUser name =>
    rw [Op.apply]
    rcases procBeginUser_cases k s name with ⟨ha, _⟩ | ⟨i, _, _, _, ha⟩
    · rw [ha]
      exact .start
    · rw [ha]
      exact procSwitchTo_run { s.set i (userProc k s name) with nextPid := incInt s.nextPid } s.nextPid
  | endUser pid =>
    have hs := h.switch 0
    have hrun : MmuRun k (Op.Allows (.endUser pid) k) s.mmu (procSwitchTo s 0).1.mmu := procSwitchTo_run s 0
    rw [Op.apply, procEndUser]
    cases hg : procGet (procSwitchTo s 0).1 pid with
    | none => exact hrun
    | some i => exact hrun.trans (hs.free_run (procGet_some hg).1)
  | map dir virt flags => exact .one (.vm (.mapAlloc dir virt flags)) ⟨⟨h.live_space hop.1, hop.2.1⟩, id⟩
  | unmap dir virt => exact .one (.vm (.unmap dir virt)) ⟨⟨h.live_space hop.1, hop.2⟩, fun _ => trivial⟩
  | promise dir start stop flags => exact .one (.promise dir start stop flags) ⟨trivial, id⟩
  | unpromise => exact .one .unpromise ⟨trivial, fun _ => trivial⟩
  | load va user => exact .one (.load va user) ⟨⟨h.loaded, hop⟩, fun _ => trivial⟩
  | store va b user => exact .one (.store va b user) ⟨⟨h.loaded, hop⟩, fun _ => trivial⟩

lemma LowKept.backed (h : LowKept k vm vm') (hb : Backed k L vm) (hs : Sound k vm') : Backed k 0 vm' := by
  refine ⟨hs.layout, by rw [add_zero]; exact hs.counts, fun j hj => ?_⟩
  rw [h k.dir j k.low (.inr hj)]
  exact hb.low j hj

lemma lowKept_of_run {first second : Word} {m : PhysMem} {n : ℕ} (h : Run k Op.Enabled (boot k first second m) n s)
    (ht : BootTables k first second) : LowKept k (boot k first second m).mmu.vm s.mmu.vm := by
  induction h with
  | boot => exact fun _ _ _ _ => rfl
  | step op hrun hop ih =>
    have hinv := hrun.inv boot_inv
    have hb := ih.backed (boot_backed ht) hinv.sound
    have hmmu := (op.mmuRun hinv.holding hop.attempted).mono fun _ _ ho => ho.1
    exact fun b i h₁ h₂ => ((hmmu.step_all ⟨0, hb⟩).2 b i h₁ h₂).trans (ih b i h₁ h₂)

/-! ### The first 8 MB -/

def KernelMap (k : BootDir) (m : PhysMem) : Prop :=
  ∀ di < 2, isPresent (m k.dir di) = true ∧ ∀ ti < 1024,
    isPresent (m (frameOf (m k.dir di)) ti) = true ∧ isCow (m (frameOf (m k.dir di)) ti) = false

lemma LowKept.kernelMap (h : LowKept k vm vm') (hb : Backed k L vm) (hk : KernelMap k vm.mem) : KernelMap k vm'.mem := by
  intro di hdi
  obtain ⟨hlow, hne⟩ := hb.low di hdi
  rw [h k.dir di k.low (.inr hdi)]
  refine ⟨(hk di hdi).1, fun ti hti => ?_⟩
  rw [h _ ti hlow (.inl hne)]
  exact (hk di hdi).2 ti hti

lemma or_flags_present {a fl : Word} (ha : Aligned a) (h₀ : fl.getLsbD 0 = true) (h₉ : fl.getLsbD 9 = false) :
    isPresent (a ||| fl) = true ∧ isCow (a ||| fl) = false := by
  rw [isPresent_bit, isCow_bit, or_flags_bit ha (by omega), or_flags_bit ha (by omega), h₀, h₉]
  exact ⟨rfl, rfl⟩

lemma boot_kernelMap {first second memBytes : Word} {m : PhysMem} (ht : BootTables k first second)
    (hne : first ≠ second) : KernelMap k (bootWith k first second memBytes m).mmu.vm.mem := by
  intro di hdi
  obtain rfl | rfl : di = 0 ∨ di = 1 := by omega
  · rw [boot_dir, if_pos rfl, frameOf_or_flags ht.aligned.1 (by decide)]
    refine ⟨(or_flags_present ht.aligned.1 (by decide) (by decide)).1, fun ti _ => ?_⟩
    rw [ht.boot_first hne]
    split <;> exact or_flags_present (aligned_ofNat ti) (by decide) (by decide)
  · rw [boot_dir, if_neg one_ne_zero, if_pos rfl, frameOf_or_flags ht.aligned.2 (by decide)]
    refine ⟨(or_flags_present ht.aligned.2 (by decide) (by decide)).1, fun ti hti => ?_⟩
    rw [ht.boot_second]
    exact or_flags_present (frameAddr_aligned (by simp only [maxFrames]; omega)) (by decide) (by decide)

lemma dirIndex_low (h : ¬ privateBase ≤ va) : dirIndex va < 2 := by
  rw [BitVec.not_le, BitVec.lt_def] at h
  simp only [privateBase, BitVec.ofNat_eq_ofNat, BitVec.toNat_ofNat] at h
  rw [dirIndex_eq]
  omega

lemma KernelMap.pte (h : KernelMap k u.vm.mem) (hl : Layout k u.vm.dirs u.vm.mem) (hu : u.cr3 ∈ spaces k u.vm.dirs)
    (hv : ¬ privateBase ≤ va) :
    ∃ e, u.pte va = some e ∧ e = u.vm.mem (frameOf (u.vm.mem k.dir (dirIndex va))) (tabIndex va) ∧ isCow e = false := by
  obtain ⟨hp, hpages⟩ := h _ (dirIndex_low hv)
  obtain ⟨hpe, hcow⟩ := hpages _ (tabIndex_lt va)
  refine ⟨_, ?_, rfl, hcow⟩
  rw [Mmu.pte, pteAt, hl.kernel_entry hu (dirIndex_low hv), if_pos hp, if_pos hpe]

lemma KernelMap.refused (write user : Bool) (h : KernelMap k u.vm.mem) (hl : Layout k u.vm.dirs u.vm.mem)
    (hu : u.cr3 ∈ spaces k u.vm.dirs) (hv : ¬ privateBase ≤ va) :
    isrPageFault u va (accessCode write user ||| 0x1) = (u, false) := by
  obtain ⟨e, hpte, -, hcow⟩ := h.pte hl hu hv
  exact isrPageFault_plain write user (hl.space_aligned hu) hpte hcow

lemma KernelMap.accessWith (n : ℕ) (h : KernelMap k u.vm.mem) (hu : u.Ok k) (hv : ¬ privateBase ≤ va) :
    accessWith (n + 1) u va write user = (u,
      if permits (u.vm.mem k.dir (dirIndex va)) (u.vm.mem (frameOf (u.vm.mem k.dir (dirIndex va))) (tabIndex va))
        write user then some (u.vm.mem (frameOf (u.vm.mem k.dir (dirIndex va))) (tabIndex va)) else none) := by
  have hl := hu.sound.layout
  obtain ⟨e, hpte, he, _⟩ := h.pte hl hu.loaded hv
  have hw := walk_present write user (hl.space_aligned hu.loaded) hpte
  rw [hl.kernel_entry hu.loaded (dirIndex_low hv)] at hw
  rw [← he]
  split at hw
  · rename_i hperm
    rw [if_pos hperm]
    exact accessWith_ok hw
  · rename_i hperm
    rw [if_neg hperm]
    exact accessWith_refused hw (h.refused write user hl hu.loaded hv)

end PyroOS
