import PyroOS.Process.ForkDemand

/-! How long a demand promise lasts: regions are keyed by the frame of a directory, and frames are used again. -/

namespace PyroOS

variable {k : BootDir} {s s₀ : Sys} {u : Mmu} {va d addr err : Word}

/-- Process calls, and directories made, loaded and taken down outside the process table. -/
inductive SpaceOp where
  | call (op : Op)
  | create
  | destroy (d : Word)
  | load (d : Word)
  | handle (addr err : Word)

def nonNull (d : Word) : Option Word := if d = 0 then none else some d

abbrev Promised := Word → List (Word × Word)

section

variable (k : BootDir)

def SpaceOp.apply : SpaceOp → Sys → Sys
  | .call op, s => op.apply k s
  | .create, s => s.withVm (vmmCreateDir k s.mmu.vm).1
  | .destroy d, s => s.withVm (vmmDestroyDir k s.mmu.vm d)
  | .load d, s => s.load d
  | .handle addr err, s => { s with mmu := (demandHandle s.mmu addr err).1 }

def SpaceOp.makes : SpaceOp → Sys → Option Word
  | .create, s | .call (.assign _), s => nonNull (vmmCreateDir k s.mmu.vm).2
  | .call .fork, s => (procAlloc s none).2.bind fun _ => nonNull (vmmCloneCow k s.mmu.vm (procCurrent s).dir).2
  | _, _ => none

def SpaceOp.note (op : SpaceOp) (s : Sys) (g : Promised) : Promised :=
  match op with
  | .call (.promise dir start stop _) => Function.update g dir ((start, stop) :: g dir)
  | op => (op.makes k s).elim g fun d => Function.update g d []

inductive SpaceRun (ok : SpaceOp → Sys → Prop) (s₀ : Sys) : Promised → Sys → Prop
  | boot : SpaceRun ok s₀ (fun _ => []) s₀
  | step {g : Promised} {s : Sys} (op : SpaceOp) : SpaceRun ok s₀ g s → ok op s →
    SpaceRun ok s₀ (op.note k s g) (op.apply k s)

def SpaceOp.Clean (op : SpaceOp) (s : Sys) : Prop :=
  ∀ d, op.makes k s = some d → ∀ i, (s.mmu.demand.regions i).active = true → (s.mmu.demand.regions i).dir ≠ d

end

def Covers (addr : Word) (call : Word × Word) : Prop :=
  call.1 &&& ~~~0xFFF ≤ frameOf addr ∧ frameOf addr < (call.2 + 0xFFF) &&& ~~~0xFFF

lemma SpaceOp.regions (op : SpaceOp) (hp : ∀ dir start stop flags, op ≠ .call (.promise dir start stop flags))
    (hu : op ≠ .call .unpromise) : (op.apply k s).mmu.demand.regions = s.mmu.demand.regions := by
  cases op with
  | create => rfl
  | destroy d => rfl
  | load d => rfl
  | handle addr err => exact (isrPageFault_regions s.mmu addr err).2
  | call op =>
    exact op.regions (fun dir start stop flags he => hp dir start stop flags (congrArg _ he))
      fun he => hu (congrArg _ he)

/-! ### The invariant -/

def Recorded (g : Promised) (s : Sys) : Prop :=
  ∀ i, (s.mmu.demand.regions i).active = true → ∃ call ∈ g (s.mmu.demand.regions i).dir,
    (s.mmu.demand.regions i).start = call.1 &&& ~~~0xFFF ∧
      (s.mmu.demand.regions i).stop = (call.2 + 0xFFF) &&& ~~~0xFFF

lemma Recorded.promise {g : Promised} (h : Recorded g s) (dir start stop flags : Word) :
    Recorded (Function.update g dir ((start, stop) :: g dir)) ((Op.promise dir start stop flags).apply k s) := by
  have hold : ∀ i, (s.mmu.demand.regions i).active = true →
      ∃ call ∈ Function.update g dir ((start, stop) :: g dir) (s.mmu.demand.regions i).dir,
        (s.mmu.demand.regions i).start = call.1 &&& ~~~0xFFF ∧
          (s.mmu.demand.regions i).stop = (call.2 + 0xFFF) &&& ~~~0xFFF := by
    intro i hi
    obtain ⟨call, hmem, hrange⟩ := h i hi
    refine ⟨call, ?_, hrange⟩
    by_cases hd : (s.mmu.demand.regions i).dir = dir
    · rw [hd, Function.update_self]
      exact List.mem_cons_of_mem _ (hd ▸ hmem)
    · rwa [Function.update_of_ne hd]
  intro i
  simp only [Op.apply, demandRegion]
  cases (List.finRange maxRegions).find? fun i => !(s.mmu.demand.regions i).active with
  | none => exact hold i
  | some j =>
    by_cases hij : i = j
    · subst hij
      simp only [Function.update_self]
      exact fun _ => ⟨(start, stop), List.mem_cons_self, rfl, rfl⟩
    · simp only [Function.update_of_ne hij]
      exact hold i

lemma Recorded.step {g : Promised} (h : Recorded g s) (op : SpaceOp) (hop : op.Clean k s) :
    Recorded (op.note k s g) (op.apply k s) := by
  by_cases hp : ∃ dir start stop flags, op = .call (.promise dir start stop flags)
  · obtain ⟨dir, start, stop, flags, rfl⟩ := hp
    exact h.promise (k := k) dir start stop flags
  by_cases hu : op = .call .unpromise
  · subst hu
    exact fun i hi => by cases hi
  have hnote : op.note k s g = (op.makes k s).elim g fun d => Function.update g d [] := by
    rw [SpaceOp.note]
    exact fun dir start stop flags he => hp ⟨dir, start, stop, flags, he⟩
  have hregions : (op.apply k s).mmu.demand.regions = s.mmu.demand.regions :=
    op.regions (fun dir start stop flags he => hp ⟨dir, start, stop, flags, he⟩) hu
  intro i hi
  rw [hregions] at hi ⊢
  obtain ⟨call, hmem, hrange⟩ := h i hi
  refine ⟨call, ?_, hrange⟩
  rw [hnote]
  cases hm : op.makes k s with
  | none => exact hmem
  | some d =>
    -- the region is not one of the new directory's
    rw [Option.elim_some, Function.update_of_ne (hop d hm i hi)]
    exact hmem

lemma recorded_of_run {first second : Word} {m : PhysMem} {g : Promised}
    (h : SpaceRun k (SpaceOp.Clean k) (boot k first second m) g s) : Recorded g s := by
  induction h with
  | boot => exact fun i hi => by cases hi
  | step op _ hop ih => exact ih.step op hop

/-! ### Served faults -/

lemma demandHandle_promised (h : (demandHandle u addr err).2 = true) : promised u.demand (frameOf u.cr3) addr ≠ none := by
  intro hn
  rw [demandHandle, hn] at h
  split at h <;> cases h

lemma covers_page {a b : Word} (h₁ : frameOf a ≤ addr) (h₂ : addr < frameOf b) :
    frameOf a ≤ frameOf addr ∧ frameOf addr < frameOf b := by
  rw [BitVec.le_def, BitVec.lt_def] at *
  rw [frameOf_toNat] at *
  rw [frameOf_toNat, frameOf_toNat]
  omega

/-- As long as no region is left over for a directory that is made, a fault is served only by a promise that was
made to the loaded address space itself. -/
theorem promise_within_lifetime {first second : Word} {m : PhysMem} {g : Promised}
    (h : SpaceRun k (SpaceOp.Clean k) (boot k first second m) g s) (addr err : Word)
    (hserved : (demandHandle s.mmu addr err).2 = true) : ∃ call ∈ g (frameOf s.mmu.cr3), Covers addr call := by
  obtain ⟨r, hr⟩ := Option.ne_none_iff_exists'.mp (demandHandle_promised hserved)
  obtain ⟨i, rfl, hactive, hdir, hstart, hstop⟩ := promised_some hr
  obtain ⟨call, hmem, hs, ht⟩ := recorded_of_run h i hactive
  rw [hdir] at hmem
  rw [hs] at hstart
  rw [ht] at hstop
  exact ⟨call, hmem, covers_page hstart hstop⟩

/-! A directory is promised a page and taken down; the next one gets its frame, and the page. -/

lemma vmmDestroyDir_empty {vm : Vm} (hz : d ≠ 0) (hk : d ≠ k.dir) (h : ∀ di, 2 ≤ di → isPresent (vm.mem d di) = false) :
    vmmDestroyDir k vm d = ⟨vm.mem, pmmFree vm.pmm d, vm.dirs.erase d⟩ := by
  have hloop : ∀ l : List ℕ, (∀ di ∈ l, 2 ≤ di) → l.foldl (destroyEntry d) vm = vm := by
    intro l hl
    induction l with
    | nil => rfl
    | cons di l ih =>
      have hstep : destroyEntry d vm di = vm := by
        rw [destroyEntry, h di (hl di List.mem_cons_self)]
        rfl
      rw [List.foldl_cons, hstep]
      exact ih fun di hdi => hl di (List.mem_cons_of_mem _ hdi)
  have he : destroyEntries d vm = vm := hloop _ fun di hdi => (List.mem_range'_1.mp hdi).1
  rw [vmmDestroyDir_eq hz hk, he]

def samplePromises : Sys :=
  SpaceOp.apply sampleDir (.call (.promise 0x400000 privateBase (privateBase + 0x1000) pfRw))
    (SpaceOp.create.apply sampleDir sampleBoot)

def sampleServed : Sys := SpaceOp.apply sampleDir (.load 0x400000) samplePromises

def sampleReused : Sys :=
  SpaceOp.apply sampleDir (.load 0x400000) (SpaceOp.create.apply sampleDir
    (SpaceOp.apply sampleDir (.destroy 0x400000) samplePromises))

lemma sampleReused_eq : SpaceOp.apply sampleDir (.destroy 0x400000) samplePromises =
    samplePromises.withVm ⟨samplePromises.mmu.vm.mem, pmmFree samplePromises.mmu.vm.pmm 0x400000, []⟩ := by
  have hdir : (vmmCreateDir sampleDir sampleBoot.mmu.vm).2 = 0x400000 := by decide +kernel
  have hempty : ∀ di, 2 ≤ di → isPresent (samplePromises.mmu.vm.mem 0x400000 di) = false := by
    intro di hdi
    have hsound : Sound sampleDir sampleBoot.mmu.vm := boot_sound
    rcases hsound.create with ⟨hc, _⟩ | ⟨vm, a, hc, hcr⟩
    · rw [hc] at hdir
      cases hdir
    · have hvm : samplePromises.mmu.vm = vm := congrArg Prod.fst hc
      obtain rfl : a = 0x400000 := (congrArg Prod.snd hc).symm.trans hdir
      rw [hvm, hcr.empty di hdi]
      rfl
  have hd := vmmDestroyDir_empty (k := sampleDir) (by decide) (by decide) hempty
  rw [SpaceOp.apply, hd, show samplePromises.mmu.vm.dirs.erase 0x400000 = [] by decide +kernel]

theorem promise_within_lifetime_sample : (demandHandle sampleServed.mmu privateBase 0x2).2 = true ∧
    ∃ g, SpaceRun sampleDir (SpaceOp.Clean sampleDir) sampleBoot g sampleServed ∧
      ∃ call ∈ g (frameOf sampleServed.mmu.cr3), Covers privateBase call := by
  have hserved : (demandHandle sampleServed.mmu privateBase 0x2).2 = true := by decide +kernel
  have h₀ : SpaceRun sampleDir (SpaceOp.Clean sampleDir) sampleBoot (fun _ => []) sampleBoot := .boot
  have h₁ := h₀.step .create fun _ _ i hi => by cases hi
  have h₂ := h₁.step (.call (.promise 0x400000 privateBase (privateBase + 0x1000) pfRw)) fun d hd => by cases hd
  have h₃ := h₂.step (.load 0x400000) fun d hd => by cases hd
  exact ⟨hserved, _, h₃, promise_within_lifetime h₃ privateBase 0x2 hserved⟩

theorem stale_promise_served : ∃ g, SpaceRun sampleDir (fun _ _ => True) sampleBoot g sampleReused ∧
    g (frameOf sampleReused.mmu.cr3) = [] ∧ (demandHandle sampleReused.mmu privateBase 0x2).2 = true := by
  have h₀ : SpaceRun sampleDir (fun _ _ => True) sampleBoot (fun _ => []) sampleBoot := .boot
  have h₁ := h₀.step .create trivial
  have h₂ : SpaceRun sampleDir (fun _ _ => True) sampleBoot _ samplePromises :=
    h₁.step (.call (.promise 0x400000 privateBase (privateBase + 0x1000) pfRw)) trivial
  have h₃ := h₂.step (.destroy 0x400000) trivial
  have h₄ := h₃.step .create trivial
  have hmakes : SpaceOp.create.makes sampleDir (SpaceOp.apply sampleDir (.destroy 0x400000) samplePromises) =
      some 0x400000 := by
    rw [sampleReused_eq]
    decide +kernel
  refine ⟨_, h₄.step (.load 0x400000) trivial, ?_, ?_⟩
  · have hcr3 : frameOf sampleReused.mmu.cr3 = 0x400000 := by decide
    have hload : ∀ s g, SpaceOp.note sampleDir (.load 0x400000) s g = g := fun _ _ => rfl
    rw [hcr3, hload]
    simp only [SpaceOp.note, hmakes, Option.elim_some, Function.update_self]
  · rw [sampleReused, sampleReused_eq]
    decide +kernel

end PyroOS
