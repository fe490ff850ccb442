import PyroOS.Paging.Runs

/-! What a mapping that runs out of memory leaves behind. -/

namespace PyroOS

open Sharing

variable {k : BootDir} {u : Mmu} {vm vm' : Vm} {p : Pmm} {L : Multiset Word} {d virt flags x : Word}

structure SameTables (k : BootDir) (vm vm' : Vm) : Prop where
  dirs : vm'.dirs = vm.dirs
  entry : ∀ d ∈ spaces k vm.dirs, ∀ virt, vm'.mem d (dirIndex virt) = vm.mem d (dirIndex virt)
  pte : ∀ d ∈ spaces k vm.dirs, ∀ virt,
    pteAt vm'.mem d (dirIndex virt) (tabIndex virt) = pteAt vm.mem d (dirIndex virt) (tabIndex virt)
  translate : ∀ d ∈ spaces k vm.dirs, ∀ virt, vmmTranslate vm' d virt = vmmTranslate vm d virt

structure SameFrames (p p' : Pmm) : Prop where
  bitmap : p'.bitmap = p.bitmap
  refcount : p'.refcount = p.refcount
  used : p'.usedFrames = p.usedFrames

def LastFrame (vm : Vm) (d virt : Word) : Prop :=
  pmmFreeFrames vm.pmm = 1 ∧ isPresent (vm.mem d (dirIndex virt)) = false

lemma SameTables.refl (k : BootDir) (vm : Vm) : SameTables k vm vm :=
  ⟨rfl, fun _ _ _ => rfl, fun _ _ _ => rfl, fun _ _ _ => rfl⟩

lemma Backed.fill_same {L' : Multiset Word} {page : ℕ → Word} (h : Backed k L vm) (hf : Fresh k vm.dirs vm.mem x)
    (hb : Backed k L' { vm with mem := vm.mem.setPage x page, pmm := p }) :
    SameTables k vm { vm with mem := vm.mem.setPage x page, pmm := p } := by
  have hag := hf.setPage_agree page
  have hlow : ∀ b < managedBase, vm.mem.setPage x page b = vm.mem b :=
    fun b hb => Function.update_of_ne (hf.high_ne hb) _ _
  have hu : Undisturbed k Nowhere vm { vm with mem := vm.mem.setPage x page, pmm := p } :=
    ⟨fun r hr _ _ => hag.target_eq hr, fun b i hb _ => congrFun (hlow b hb) i⟩
  refine ⟨rfl, fun d hd virt => hag.entry hd _, fun d hd virt => ?_, fun d hd virt => hu.translate h hb hd hd id⟩
  by_cases hv : 2 ≤ dirIndex virt
  · exact hag.pte (tab_mem_refs.mpr ⟨hd, hv, dirIndex_lt virt⟩)
  · obtain ⟨hent, htab⟩ := h.entry_low hb.layout hu.low hd hd (not_le.mp hv)
    rw [pteAt, pteAt, htab, hent]

namespace Pmm.Tidy

lemma alloc_frames (h : p.Tidy) (ha : (pmmAlloc p).2 ≠ 0) : pmmFreeFrames (pmmAlloc p).1 + 1 = pmmFreeFrames p ∧
    (pmmAlloc p).1.usedFrames = p.usedFrames + 1 := by
  have hfree := h.alloc_zero_iff.not.mp ha
  rcases h.alloc_cases with ⟨he, _⟩ | ⟨i, _, _, _, he⟩
  · rw [he] at ha
    exact (ha rfl).elim
  · have hused : (pmmAlloc p).1.usedFrames = p.usedFrames + 1 := by
      rw [he]
      rfl
    have htot : (pmmAlloc p).1.totalFrames = p.totalFrames := by
      rw [he]
      rfl
    refine ⟨?_, hused⟩
    rw [pmmFreeFrames, hused, htot]
    rw [pmmFreeFrames] at hfree ⊢
    omega

end Pmm.Tidy

lemma Mmu.Fit.mapAlloc (h : u.Fit k) (flags : Word) (hd : d ∈ spaces k u.vm.dirs) (hv : privateBase ≤ virt) :
    (vmmMapAlloc u.vm d virt flags = (u.vm, -1) ∧ pmmFreeFrames u.vm.pmm = 0) ∨
    (LastFrame u.vm d virt ∧ (vmmMapAlloc u.vm d virt flags).2 = -1 ∧
      SameTables k u.vm (vmmMapAlloc u.vm d virt flags).1 ∧
      (vmmMapAlloc u.vm d virt flags).1.pmm.usedFrames = u.vm.pmm.usedFrames + 1) ∨
    pmmFreeFrames u.vm.pmm ≠ 0 ∧ ¬ LastFrame u.vm d virt ∧ ∃ L L' vm', vmmMapAlloc u.vm d virt flags = (vm', 0) ∧
      Backed k L u.vm ∧ Backed k L' vm' ∧ Entered k L u.vm vm' d virt flags (pmmAlloc u.vm.pmm).2 fun _ => 0 := by
  obtain ⟨L, hb⟩ := h.backed
  rcases hb.mapAlloc_cases flags hd hv with ⟨hm, hz⟩ | ⟨p, x, ha, hne, habs, hnone, hm, hf, hb'⟩ |
    ⟨p, x, vm', ha, hne, hwhy, hm, _, he, hb'⟩
  · exact .inl ⟨hm, h.tidy.alloc_zero_iff.mp hz⟩
  · have hfr := h.tidy.alloc_frames (by rw [ha]; exact hne)
    have ht := h.tidy.alloc
    rw [ha] at hfr ht
    have hfree := ht.alloc_zero_iff.mp hnone
    rw [hm]
    exact .inr (.inl ⟨⟨by omega, habs⟩, rfl, hb.fill_same hf hb', hfr.2⟩)
  · have hfr := h.tidy.alloc_frames (by rw [ha]; exact hne)
    have ht := h.tidy.alloc
    rw [ha] at hfr ht
    rw [show x = (pmmAlloc u.vm.pmm).2 by rw [ha]] at he
    refine .inr (.inr ⟨by omega, fun hlast => ?_, L, _, vm', hm, hb, hb', he⟩)
    have hone := hlast.1
    rcases hwhy with hp | hsome
    · rw [hlast.2] at hp
      cases hp
    · exact hsome (ht.alloc_zero_iff.mpr (by omega))

def OutOfMemory (u : Mmu) (addr err : Word) : Prop :=
  err &&& 0x1 = 0 ∧ (promised u.demand (frameOf u.cr3) addr).isSome = true ∧ (demandHandle u addr err).2 = false

lemma demandHandle_of_promised {addr err : Word} {r : Region} (herr : err &&& 0x1 = 0)
    (hp : promised u.demand (frameOf u.cr3) addr = some r) (hal : Aligned u.cr3) :
    demandHandle u addr err =
      if (vmmMapAlloc u.vm u.cr3 (frameOf addr) r.flags).2 ≠ 0 then
        ({ u with vm := (vmmMapAlloc u.vm u.cr3 (frameOf addr) r.flags).1 }, false)
      else
        (⟨(vmmMapAlloc u.vm u.cr3 (frameOf addr) r.flags).1, ⟨u.demand.regions, u.demand.faultsServed + 1⟩, u.cr3⟩,
          true) := by
  have hdir : r.dir = u.cr3 := (promised_dir hp).trans hal
  simp only [demandHandle, herr, hp, hdir, and_pageMask, ne_eq, not_true_eq_false, if_false]

lemma lastFrame_page {addr : Word} : LastFrame vm d (frameOf addr) ↔ LastFrame vm d addr := by
  rw [LastFrame, LastFrame, dirIndex_frameOf]

def NothingLost (k : BootDir) (vm vm' : Vm) : Prop := SameFrames vm.pmm vm'.pmm ∧ SameTables k vm vm'

lemma Mmu.Fit.failed_map (h : u.Fit k) (flags : Word) (hd : d ∈ spaces k u.vm.dirs) (hv : privateBase ≤ virt) :
    (((vmmMapAlloc u.vm d virt flags).2 = -1 → NothingLost k u.vm (vmmMapAlloc u.vm d virt flags).1) ↔
      ¬ LastFrame u.vm d virt) ∧
    ((vmmMapAlloc u.vm d virt flags).2 ≠ 0 → (vmmMapAlloc u.vm d virt flags).2 = -1 ∧
      SameTables k u.vm (vmmMapAlloc u.vm d virt flags).1) ∧
    (LastFrame u.vm d virt → (vmmMapAlloc u.vm d virt flags).2 ≠ 0) := by
  rcases h.mapAlloc flags hd hv with ⟨hm, hfree⟩ | ⟨hlast, hm, hsame, hused⟩ | ⟨_, hlast, _, _, vm', hm, _⟩
  · have hlast : ¬ LastFrame u.vm d virt := by
      intro hlast
      have hone := hlast.1
      omega
    rw [hm]
    exact ⟨⟨fun _ => hlast, fun _ _ => ⟨⟨rfl, rfl, rfl⟩, .refl k u.vm⟩⟩, fun _ => ⟨rfl, .refl k u.vm⟩, fun _ => by simp⟩
  · refine ⟨⟨fun hh => ?_, fun hh => (hh hlast).elim⟩, fun _ => ⟨hm, hsame⟩, fun _ => by rw [hm]; decide⟩
    have heq := (hh hm).1.used
    omega
  · rw [hm]
    exact ⟨⟨fun _ => hlast, fun _ hh => by simp at hh⟩, fun hh => (hh rfl).elim, fun hh => (hlast hh).elim⟩

lemma Mmu.Fit.failed_demand (h : u.Fit k) (hl : u.cr3 ∈ spaces k u.vm.dirs) {addr : Word} (err : Word)
    (hv : privateBase ≤ addr) :
    ((OutOfMemory u addr err → NothingLost k u.vm (demandHandle u addr err).1.vm) ↔
      ¬ (err &&& 0x1 = 0 ∧ (promised u.demand (frameOf u.cr3) addr).isSome = true ∧ LastFrame u.vm u.cr3 addr)) ∧
    (OutOfMemory u addr err → SameTables k u.vm (demandHandle u addr err).1.vm) := by
  obtain ⟨L, hb⟩ := h.backed
  by_cases herr : err &&& 0x1 = 0
  · cases hp : promised u.demand (frameOf u.cr3) addr with
    | none => simp [OutOfMemory, hp]
    | some r =>
      obtain ⟨hiff, hsame, hfail⟩ := h.failed_map r.flags hl (frameOf_private hv)
      rw [lastFrame_page] at hiff hfail
      have hdem := demandHandle_of_promised herr hp (hb.layout.space_aligned hl)
      by_cases hz : (vmmMapAlloc u.vm u.cr3 (frameOf addr) r.flags).2 = 0
      · rw [if_neg (not_not.mpr hz)] at hdem
        have hlast : ¬ LastFrame u.vm u.cr3 addr := fun hh => hfail hh hz
        simp [OutOfMemory, hdem, hlast]
      · rw [if_pos hz] at hdem
        obtain ⟨hneg, hsame⟩ := hsame hz
        have hout : OutOfMemory u addr err := ⟨herr, by rw [hp]; rfl, by rw [hdem]⟩
        rw [hdem]
        simp only [hneg, forall_const] at hiff
        simp only [hout, forall_const, herr, Option.isSome_some, true_and]
        exact ⟨hiff, hsame⟩
  · exact ⟨⟨fun _ hh => herr hh.1, fun _ hh => (herr hh.1).elim⟩, fun hh => (herr hh.1).elim⟩

/-! ### Frames taken by directories -/

lemma vmmCreateDir_pmm (vm : Vm) : (vmmCreateDir k vm).1.pmm = (pmmAlloc vm.pmm).1 := by
  rw [vmmCreateDir]
  dsimp only
  split <;> rfl

def afterDirs (k : BootDir) (u : Mmu) (n : ℕ) : Mmu := ((MmuOp.vm .create).apply k)^[n] u

lemma afterDirs_spec (n : ℕ) (h : u.Fit k) (hn : n ≤ pmmFreeFrames u.vm.pmm) :
    MmuRun k (MmuOp.Allowed k) u (afterDirs k u n) ∧
      pmmFreeFrames (afterDirs k u n).vm.pmm + n = pmmFreeFrames u.vm.pmm ∧
      ∀ di, (afterDirs k u n).vm.mem k.dir di = u.vm.mem k.dir di := by
  induction n with
  | zero => exact ⟨.start, rfl, fun _ => rfl⟩
  | succ n ih =>
    obtain ⟨hrun, hfree, hdir⟩ := ih (by omega)
    have hfit := hrun.fit h
    obtain ⟨L, hb⟩ := hfit.backed
    have hstep : afterDirs k u (n + 1) = (MmuOp.vm .create).apply k (afterDirs k u n) := Function.iterate_succ_apply' ..
    rw [hstep]
    have ha : (pmmAlloc (afterDirs k u n).vm.pmm).2 ≠ 0 := hfit.tidy.alloc_zero_iff.not.mpr (by omega)
    have hfr := (hfit.tidy.alloc_frames ha).1
    refine ⟨.step (.vm .create) hrun trivial, ?_, fun di => ?_⟩
    · rw [show ((MmuOp.vm .create).apply k (afterDirs k u n)).vm.pmm = _ from vmmCreateDir_pmm _]
      omega
    · rw [← hdir di]
      rcases hb.booked.create with ⟨_, hz⟩ | ⟨p, a, hc, _, hf, _⟩
      · exact (ha hz).elim
      · have hmem : ((MmuOp.vm .create).apply k (afterDirs k u n)).vm.mem = withDir k (afterDirs k u n).vm.mem a :=
          congrArg (fun r : Vm × Word => r.1.mem) hc
        have hne : k.dir ≠ a := fun he => hf.not_space (he ▸ List.mem_cons_self)
        rw [hmem, withDir_other hne]

lemma afterDirs_fails {n : ℕ} (flags : Word) (h : u.Fit k) (hn : pmmFreeFrames u.vm.pmm = n) (hv : privateBase ≤ virt) :
    MmuRun k (MmuOp.Allowed k) u (afterDirs k u n) ∧ (vmmMapAlloc (afterDirs k u n).vm k.dir virt flags).2 = -1 ∧
      pmmFreeFrames (afterDirs k u n).vm.pmm = 0 := by
  obtain ⟨hrun, hleft, _⟩ := afterDirs_spec n h (by omega)
  have hfree : pmmFreeFrames (afterDirs k u n).vm.pmm = 0 := by omega
  refine ⟨hrun, ?_, hfree⟩
  rcases (hrun.fit h).mapAlloc flags List.mem_cons_self hv with ⟨hm, _⟩ | ⟨_, hm, _⟩ | ⟨hne, _⟩
  · rw [hm]
  · exact hm
  · exact (hne hfree).elim

lemma afterDirs_leaks {n : ℕ} (flags : Word) (h : u.Fit k) (hn : pmmFreeFrames u.vm.pmm = n + 1)
    (hv : privateBase ≤ virt)
    (habs : isPresent (u.vm.mem k.dir (dirIndex virt)) = false) : MmuRun k (MmuOp.Allowed k) u (afterDirs k u n) ∧
      (vmmMapAlloc (afterDirs k u n).vm k.dir virt flags).2 = -1 ∧
      (vmmMapAlloc (afterDirs k u n).vm k.dir virt flags).1.pmm.usedFrames = (afterDirs k u n).vm.pmm.usedFrames + 1 := by
  obtain ⟨hrun, hleft, hdir⟩ := afterDirs_spec n h (by omega)
  have hlast : LastFrame (afterDirs k u n).vm k.dir virt := ⟨by omega, by rw [hdir]; exact habs⟩
  refine ⟨hrun, ?_⟩
  rcases (hrun.fit h).mapAlloc flags List.mem_cons_self hv with ⟨_, hz⟩ | ⟨_, hm, _, hused⟩ | ⟨_, hno, _⟩
  · have hone := hlast.1
    omega
  · exact ⟨hm, hused⟩
  · exact (hno hlast).elim

/-- A mapping that fails changes no table; the frames are as before unless the page took the last one and its table
was still to be made. -/
theorem failed_mapping {first second memBytes : Word} {m : PhysMem} (ht : BootTables k first second)
    (h : MmuRun k (MmuOp.Allowed k) (bootWith k first second memBytes m).mmu u) :
    (∀ d ∈ spaces k u.vm.dirs, ∀ virt flags, privateBase ≤ virt →
      (((vmmMapAlloc u.vm d virt flags).2 = -1 → NothingLost k u.vm (vmmMapAlloc u.vm d virt flags).1) ↔
        ¬ LastFrame u.vm d virt) ∧
      ((vmmMapAlloc u.vm d virt flags).2 = -1 → SameTables k u.vm (vmmMapAlloc u.vm d virt flags).1)) ∧
    (u.cr3 ∈ spaces k u.vm.dirs → ∀ addr err, privateBase ≤ addr →
      ((OutOfMemory u addr err → NothingLost k u.vm (demandHandle u addr err).1.vm) ↔
        ¬ (err &&& 0x1 = 0 ∧ (promised u.demand (frameOf u.cr3) addr).isSome = true ∧ LastFrame u.vm u.cr3 addr)) ∧
      (OutOfMemory u addr err → SameTables k u.vm (demandHandle u addr err).1.vm)) := by
  have hfit := h.fit (boot_fit ht)
  refine ⟨fun d hd virt flags hv => ?_, fun hl addr err hv => hfit.failed_demand hl err hv⟩
  obtain ⟨hiff, hsame, _⟩ := hfit.failed_map flags hd hv
  exact ⟨hiff, fun hneg => (hsame (by rw [hneg]; decide)).2⟩

lemma sample_tables : BootTables sampleDir 0x21000 0x22000 :=
  ⟨⟨by decide, by decide⟩, ⟨by decide, by decide⟩, by decide, by decide⟩

theorem failed_mapping_full :
    MmuRun sampleDir (MmuOp.Allowed sampleDir) sampleBoot.mmu (afterDirs sampleDir sampleBoot.mmu 1024) ∧
    (vmmMapAlloc (afterDirs sampleDir sampleBoot.mmu 1024).vm sampleDir.dir 0x800000 6).2 = -1 ∧
    NothingLost sampleDir (afterDirs sampleDir sampleBoot.mmu 1024).vm
      (vmmMapAlloc (afterDirs sampleDir sampleBoot.mmu 1024).vm sampleDir.dir 0x800000 6).1 := by
  have hfit : sampleBoot.mmu.Fit sampleDir := boot_fit sample_tables
  obtain ⟨hrun, hfail, hfree⟩ := afterDirs_fails 6 hfit (by decide : pmmFreeFrames sampleBoot.mmu.vm.pmm = 1024)
    (by decide : privateBase ≤ 0x800000)
  obtain ⟨hiff, -⟩ := (failed_mapping sample_tables hrun).1 sampleDir.dir List.mem_cons_self 0x800000 6 (by decide)
  have hlast : ¬ LastFrame (afterDirs sampleDir sampleBoot.mmu 1024).vm sampleDir.dir 0x800000 := fun h =>
    absurd (hfree.symm.trans h.1) (by decide)
  exact ⟨hrun, hfail, hiff.mpr hlast hfail⟩

theorem failed_mapping_leaks :
    MmuRun sampleDir (MmuOp.Allowed sampleDir) sampleBoot.mmu (afterDirs sampleDir sampleBoot.mmu 1023) ∧
    (vmmMapAlloc (afterDirs sampleDir sampleBoot.mmu 1023).vm sampleDir.dir 0x800000 6).2 = -1 ∧
    (vmmMapAlloc (afterDirs sampleDir sampleBoot.mmu 1023).vm sampleDir.dir 0x800000 6).1.pmm.usedFrames =
      (afterDirs sampleDir sampleBoot.mmu 1023).vm.pmm.usedFrames + 1 :=
  afterDirs_leaks 6 (boot_fit sample_tables) (by decide) (by decide) (by decide)

end PyroOS
