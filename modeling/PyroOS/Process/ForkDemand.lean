import PyroOS.Process.KernelRange

/-! Fork and demand paging: the child inherits the pages that are there, but not the promises. -/

namespace PyroOS

variable {k : BootDir} {s : Sys} {u t : Mmu} {i : Slot} {va p c d : Word} {write user : Bool}

def InRegion (dm : Demand) (d va : Word) : Prop :=
  ∃ j, (dm.regions j).active = true ∧ (dm.regions j).dir = d ∧ (dm.regions j).start ≤ va ∧ va < (dm.regions j).stop

def Forked (k : BootDir) (s : Sys) (i : Slot) : Prop :=
  (procAlloc s none).2 = some i ∧ ((procFork k s).1.table i).dir ≠ 0

structure Follows (u : Mmu) (p c va : Word) : Prop where
  load : ∀ user, (loadByte (u.on p) va user).2.isSome = true → (loadByte (u.on c) va user).2.isSome = true
  store : ∀ user b, (storeByte (u.on p) va b user).2 = true → (storeByte (u.on c) va b user).2 = true

def SameByte (u : Mmu) (p c va : Word) : Prop :=
  ∀ user b, (loadByte (u.on p) va user).2 = some b → (loadByte (u.on c) va user).2 = some b

/-- The page that a fault at `va` would fill in for directory `d`, under the tables of the loaded one. -/
def Mmu.promiseFor (u : Mmu) (d va : Word) : PageView :=
  (promised u.demand d va).map fun r =>
    ((tableView u.vm.mem u.cr3 (dirIndex va)).getD (tableFlags r.flags), settledFlags (pageFlags r.flags), fun _ => 0)

/-- The frame `c` has been promised the page as well, with no fewer rights. -/
def PromisedToo (u : Mmu) (c va : Word) : Prop :=
  ∀ write user, viewPermits (u.promiseFor u.cr3 va) write user = true →
    viewPermits (u.promiseFor c va) write user = true

/-- Loads and stores of the two sides of a fork; `dirty` once there was a store. -/
inductive Accesses (p c : Word) (u₀ : Mmu) : Bool → Mmu → Prop
  | start : Accesses p c u₀ false u₀
  | load {dirty : Bool} {u : Mmu} (d va : Word) (user : Bool) : Accesses p c u₀ dirty u → d = p ∨ d = c →
    (u.on d).MapsSucceed va → Accesses p c u₀ dirty (loadByte (u.on d) va user).1
  | store {dirty : Bool} {u : Mmu} (d va : Word) (b : Byte) (user : Bool) : Accesses p c u₀ dirty u → d = p ∨ d = c →
    privateBase ≤ va → (u.on d).MapsSucceed va → Accesses p c u₀ true (storeByte (u.on d) va b user).1

/-! ### What changes the region table -/

lemma procSwitchTo_demand (s : Sys) (pid : ℤ) : (procSwitchTo s pid).1.mmu.demand = s.mmu.demand := by
  rw [procSwitchTo]
  cases procGet s pid with
  | none => rfl
  | some i =>
    dsimp only
    split
    · rfl
    · split <;> rfl

lemma procFree_demand (s : Sys) (i : Slot) : (procFree k s i).mmu.demand = s.mmu.demand := by
  rw [procFree]
  split
  · rfl
  · dsimp only
    split <;> rfl

lemma Op.regions (op : Op) (hp : ∀ dir start stop flags, op ≠ .promise dir start stop flags) (hu : op ≠ .unpromise) :
    (op.apply k s).mmu.demand.regions = s.mmu.demand.regions := by
  cases op with
  | alloc name => rcases procAlloc_cases s name with ⟨ha, _⟩ | ⟨i, _, _, _, ha⟩ <;> (rw [Op.apply, ha]; try rfl)
  | assign i => rfl
  | fork =>
    rw [Op.apply, procFork]
    rcases procForkWith_cases (vmmCloneCow k) s with ⟨hf, _⟩ | ⟨i, _, _, _, hf⟩
    · rw [hf]
    · rcases hc : vmmCloneCow k s.mmu.vm (procCurrent s).dir with ⟨vm, dir⟩
      rw [hf _ _ hc]
      by_cases hdir : dir = 0
      · rw [if_pos hdir]
        rfl
      · rw [if_neg hdir]
        rfl
  | exit code =>
    rw [Op.apply, procExit]
    dsimp only
    split
    · rfl
    · split <;> rfl
  | wait =>
    rw [Op.apply, procWait]
    split
    · rfl
    · rw [procFree_demand]
  | switch pid => rw [Op.apply, procSwitchTo_demand]
  | beginUser name =>
    rw [Op.apply]
    rcases procBeginUser_cases k s name with ⟨ha, _⟩ | ⟨i, _, _, _, ha⟩
    · rw [ha]
    · rw [ha, procSwitchTo_demand]
      rfl
  | endUser pid =>
    rw [Op.apply, procEndUser]
    split
    · rw [procSwitchTo_demand]
    · rw [procFree_demand, procSwitchTo_demand]
  | map dir virt flags => rfl
  | unmap dir virt => rfl
  | promise dir start stop flags => exact (hp dir start stop flags rfl).elim
  | unpromise => exact (hu rfl).elim
  | load va user => exact loadByte_regions va user
  | store va b user => exact storeByte_regions va b user

lemma demandRegion_paged {dm : Demand} (h : dm.Paged) (dir start stop flags : Word) :
    (demandRegion dm dir start stop flags).Paged := by
  rw [demandRegion]
  split
  · exact h
  · rename_i j _
    intro i
    by_cases hij : i = j
    · subst hij
      simp only [Function.update_self]
      exact fun _ => ⟨frameOf_frameOf start, frameOf_frameOf (stop + 0xFFF)⟩
    · simp only [Function.update_of_ne hij]
      exact h i

lemma paged_of_run {first second : Word} {m : PhysMem} {n : ℕ} {ok : Op → Sys → Prop}
    (h : Run k ok (boot k first second m) n s) : s.mmu.demand.Paged := by
  induction h with
  | boot => exact fun i hi => by cases hi
  | step op _ _ ih =>
    by_cases hp : ∃ dir start stop flags, op = .promise dir start stop flags
    · obtain ⟨dir, start, stop, flags, rfl⟩ := hp
      exact demandRegion_paged ih dir start stop flags
    by_cases hu : op = .unpromise
    · subst hu
      exact fun i hi => by cases hi
    rw [Demand.Paged, op.regions (fun dir start stop flags he => hp ⟨dir, start, stop, flags, he⟩) hu]
    exact ih

/-! ### Single accesses -/

structure Offers (v v' : PageView) : Prop where
  permits : ∀ write user, viewPermits v write user = true → viewPermits v' write user = true
  holds : ∀ w w', v = some w → v' = some w' → w.2.2 = w'.2.2

lemma Offers.refl (v : PageView) : Offers v v :=
  ⟨fun _ _ h => h, fun w w' h h' => by rw [Option.some.inj (h.symm.trans h')]⟩

lemma Offers.byte {v v' : PageView} {b : Byte} (h : Offers v v') (hb : viewByte v va user = some b) :
    viewByte v' va user = some b := by
  have hperm : viewPermits v false user = true := by rw [← isSome_viewByte va, hb]; rfl
  have hperm' := h.permits false user hperm
  rw [viewByte, if_pos hperm] at hb
  rw [viewByte, if_pos hperm', ← hb]
  cases v with
  | none => cases hb
  | some w =>
    cases v' with
    | none => cases hperm'
    | some w' => rw [Option.map_some, Option.map_some, h.holds w w' rfl rfl]

section

variable (hp : (u.on p).Ok k) (hc : (u.on c).Ok k) (hv : privateBase ≤ va) (hfree : FreeFrames u.vm.pmm)
include hp hc hv hfree

lemma follows_iff_seen : Follows u p c va ↔ ∀ write user,
    viewPermits ((u.on p).seen va) write user = true → viewPermits ((u.on c).seen va) write user = true := by
  have hload : ∀ d user, (u.on d).Ok k → (loadByte (u.on d) va user).2 = viewByte ((u.on d).seen va) va user :=
    fun d user hd => (loadByte_supplies hd hv (hd.mapsSucceed hv hfree)).1
  have hstore : ∀ d user b, (u.on d).Ok k →
      (storeByte (u.on d) va b user).2 = viewPermits ((u.on d).seen va) true user :=
    fun d user b hd => storeByte_seen hd hv hfree b
  refine ⟨fun h write user hperm => ?_, fun h => ⟨fun user hl => ?_, fun user b hst => ?_⟩⟩
  · cases write with
    | true =>
      have hst := h.store user 0
      rw [hstore p user 0 hp, hstore c user 0 hc] at hst
      exact hst hperm
    | false =>
      have hl := h.load user
      rw [hload p user hp, hload c user hc, isSome_viewByte, isSome_viewByte] at hl
      exact hl hperm
  · rw [hload p user hp, isSome_viewByte] at hl
    rw [hload c user hc, isSome_viewByte]
    exact h false user hl
  · rw [hstore p user b hp] at hst
    rw [hstore c user b hc]
    exact h true user hst

lemma Offers.sameByte (h : Offers ((u.on p).seen va) ((u.on c).seen va)) : SameByte u p c va := by
  intro user b hl
  rw [(loadByte_supplies hp hv (hp.mapsSucceed hv hfree)).1] at hl
  rw [(loadByte_supplies hc hv (hc.mapsSucceed hv hfree)).1]
  exact h.byte hl

end

lemma loadByte_eq_map {u' : Mmu} {r : Option Word} (ha : access u va false user = (u', r)) :
    loadByte u va user = (u', r.map fun e => byteOf (u'.vm.mem (frameOf e) (wordIndex va)) (byteIndex va)) := by
  rw [loadByte, ha]
  cases r <;> rfl

lemma KernelMap.loadByte (user : Bool) (h : KernelMap k u.vm.mem) (hp : (u.on p).Ok k) (hc : (u.on c).Ok k)
    (hv : ¬ privateBase ≤ va) : (PyroOS.loadByte (u.on p) va user).2 = (PyroOS.loadByte (u.on c) va user).2 ∧
      (PyroOS.loadByte (u.on p) va user).1 = u.on p := by
  have hkp : KernelMap k (u.on p).vm.mem := h
  have hkc : KernelMap k (u.on c).vm.mem := h
  rw [loadByte_eq_map (hkp.accessWith 2 hp hv), loadByte_eq_map (hkc.accessWith 2 hc hv)]
  exact ⟨rfl, rfl⟩

lemma KernelMap.storeByte (user : Bool) (b : Byte) (h : KernelMap k u.vm.mem) (hp : (u.on p).Ok k) (hc : (u.on c).Ok k)
    (hv : ¬ privateBase ≤ va) : (PyroOS.storeByte (u.on p) va b user).2 = (PyroOS.storeByte (u.on c) va b user).2 := by
  have hkp : KernelMap k (u.on p).vm.mem := h
  have hkc : KernelMap k (u.on c).vm.mem := h
  rw [storeByte_snd, storeByte_snd, access, access, hkp.accessWith 2 hp hv, hkc.accessWith 2 hc hv]
  rfl

lemma KernelMap.follows (h : KernelMap k u.vm.mem) (hp : (u.on p).Ok k) (hc : (u.on c).Ok k) (hv : ¬ privateBase ≤ va) :
    Follows u p c va ∧ SameByte u p c va := by
  refine ⟨⟨fun user hl => ?_, fun user b hst => ?_⟩, fun user b hl => ?_⟩
  · rwa [← (h.loadByte user hp hc hv).1]
  · rwa [← h.storeByte user b hp hc hv]
  · rwa [← (h.loadByte user hp hc hv).1]

/-! ### The state after the fork -/

structure Siblings (k : BootDir) (u : Mmu) (p c : Word) (dirty : Bool) (t : Mmu) : Prop where
  sound : Sound k t.vm
  parent : p ∈ spaces k t.vm.dirs
  child : c ∈ spaces k t.vm.dirs
  backed : Backed k 0 t.vm
  kernel : KernelMap k t.vm.mem
  paged : t.demand.Paged
  grants : ∀ d, d = p ∨ d = c → ∀ va, privateBase ≤ va → (u.on d).Steady va →
    (t.on d).Steady va ∧ grant ((t.on d).seen va) = grant ((u.on d).seen va)
  views : dirty = false → ∀ d, d = p ∨ d = c → ∀ va, privateBase ≤ va → (u.on d).Steady va →
    (t.on d).seen va = (u.on d).seen va

namespace Siblings

variable {dirty : Bool}

lemma side (h : Siblings k u p c dirty t) (hd : d = p ∨ d = c) : (t.on d).Ok k := by
  rcases hd with rfl | rfl
  · exact ⟨h.sound, h.parent⟩
  · exact ⟨h.sound, h.child⟩

lemma mapsSucceed (h : Siblings k u p c dirty t) (hd : d = p ∨ d = c) (hv : privateBase ≤ va)
    (hfree : FreeFrames t.vm.pmm) : (t.on d).MapsSucceed va :=
  (h.side hd).mapsSucceed hv hfree

lemma step (h : Siblings k u p c dirty t) {t' : Mmu} {dirty' : Bool} (hacc : Accessed k (t.on d) t')
    (hlow : LowKept k t.vm t'.vm)
    (hgrant : ∀ d ∈ spaces k t.vm.dirs, ∀ va, privateBase ≤ va → (t.on d).Steady va →
      (t'.on d).Steady va ∧ grant ((t'.on d).seen va) = grant ((t.on d).seen va))
    (hview : dirty' = false → dirty = false ∧ ∀ d ∈ spaces k t.vm.dirs, ∀ va, privateBase ≤ va → (t.on d).Steady va →
      (t'.on d).seen va = (t.on d).seen va) :
    Siblings k u p c dirty' t' := by
  refine ⟨hacc.sound, by rw [hacc.dirs]; exact h.parent, by rw [hacc.dirs]; exact h.child,
    hlow.backed h.backed hacc.sound, hlow.kernelMap h.backed h.kernel, ?_, fun d hd va hv hst => ?_,
    fun hd' d hd va hv hst => ?_⟩
  · rw [Demand.Paged, hacc.regions]
    exact h.paged
  · obtain ⟨hst₁, hg₁⟩ := h.grants d hd va hv hst
    obtain ⟨hst₂, hg₂⟩ := hgrant d (h.side hd).loaded va hv hst₁
    exact ⟨hst₂, hg₂.trans hg₁⟩
  · obtain ⟨hclean, hkeep⟩ := hview hd'
    rw [← h.views hclean d hd va hv hst]
    exact hkeep d (h.side hd).loaded va hv (h.grants d hd va hv hst).1

lemma load (h : Siblings k u p c dirty t) (user : Bool) (hd : d = p ∨ d = c) (hmap : (t.on d).MapsSucceed va) :
    Siblings k u p c dirty (loadByte (t.on d) va user).1 := by
  by_cases hv : privateBase ≤ va
  · have hb : Backed k 0 (t.on d).vm := h.backed
    have hsup : Supplied k (t.on d) (loadByte (t.on d) va user).1 := (loadByte_supplies (h.side hd) hv hmap).2
    have hlow := (loadByte_serviced user hb (h.side hd).loaded hv).run.low hb
    have hseen := hsup.seen h.paged
    exact h.step hsup.toAccessed hlow
      (fun d hd va hv hst => ⟨(hseen d hd va hv hst).1, congrArg grant (hseen d hd va hv hst).2⟩)
      fun hc => ⟨hc, fun d hd va hv hst => (hseen d hd va hv hst).2⟩
  · rw [(h.kernel.loadByte user (h.side hd) (h.side hd) hv).2]
    exact h.step (.refl (h.side hd).sound) (fun _ _ _ _ => rfl) (fun _ _ _ _ hst => ⟨hst, rfl⟩)
      fun hc => ⟨hc, fun _ _ _ _ _ => rfl⟩

lemma store (h : Siblings k u p c dirty t) (b : Byte) (user : Bool) (hd : d = p ∨ d = c) (hv : privateBase ≤ va)
    (hmap : (t.on d).MapsSucceed va) : Siblings k u p c true (storeByte (t.on d) va b user).1 := by
  have hb : Backed k 0 (t.on d).vm := h.backed
  have hacc : Accessed k (t.on d) (storeByte (t.on d) va b user).1 := storeByte_accessed (h.side hd) hv hmap b
  have hlow := (MmuOp.step (.store va b user) hb ⟨(h.side hd).loaded, hv⟩).2
  exact h.step hacc hlow
    (fun _ hd' _ hv' hst => storeByte_grant b user (h.side hd) hv hmap h.paged hd' hv' hst) fun hc => by cases hc

lemma accesses {u : Mmu} (h : Siblings k u p c false u) (ha : Accesses p c u dirty t) : Siblings k u p c dirty t := by
  induction ha with
  | start => exact h
  | load d va user _ hd hmap ih => exact ih.load user hd hmap
  | store d va b user _ hd hv hmap ih => exact ih.store b user hd hv hmap

lemma follows (h : Siblings k u p c dirty t) (hfree : FreeFrames t.vm.pmm) (hv : privateBase ≤ va)
    (hst : ∀ d, d = p ∨ d = c → (u.on d).Steady va) (ho : Offers ((u.on p).seen va) ((u.on c).seen va)) :
    Follows t p c va ∧ (dirty = false → SameByte t p c va) := by
  have hgrant := fun (d : Word) (hd : d = p ∨ d = c) => (h.grants d hd va hv (hst d hd)).2
  refine ⟨(follows_iff_seen (h.side (.inl rfl)) (h.side (.inr rfl)) hv hfree).mpr fun write user hperm => ?_,
    fun hclean => Offers.sameByte (h.side (.inl rfl)) (h.side (.inr rfl)) hv hfree ?_⟩
  · rw [viewPermits_grant (hgrant p (.inl rfl))] at hperm
    rw [viewPermits_grant (hgrant c (.inr rfl))]
    exact ho.permits write user hperm
  · rw [h.views hclean p (.inl rfl) va hv (hst p (.inl rfl)), h.views hclean c (.inr rfl) va hv (hst c (.inr rfl))]
    exact ho

end Siblings

lemma cloneWith_dst (page : Word → Word → Vm → ℕ → Except Vm Vm) (vm : Vm) (src : Word)
    (h : (cloneWith k page vm src).2 ≠ 0) : (cloneWith k page vm src).2 = (pmmAlloc vm.pmm).2 := by
  have hdir : (vmmCreateDir k vm).2 = (pmmAlloc vm.pmm).2 := by
    rw [vmmCreateDir]
    rcases pmmAlloc vm.pmm with ⟨p, phys⟩
    dsimp only
    split
    · rename_i hz
      exact hz.symm
    · rfl
  revert h
  rw [cloneWith]
  rcases hc : vmmCreateDir k vm with ⟨vm', dst⟩
  rw [hc] at hdir
  dsimp only
  split
  · exact fun h => (h rfl).elim
  · split
    · exact fun h => (h rfl).elim
    · split
      · exact fun _ => hdir
      · exact fun h => (h rfl).elim

lemma Forked.cloned (h : Inv k s) (hf : Forked k s i) :
    Cloned k s.mmu.vm (procFork k s).1.mmu.vm (procCurrent s).dir ((procFork k s).1.table i).dir ∧
      (procFork k s).1.mmu.demand = s.mmu.demand ∧ ((procFork k s).1.table i).dir = (pmmAlloc s.mmu.vm.pmm).2 := by
  obtain ⟨hslot, hdir⟩ := hf
  rw [procFork] at hdir ⊢
  rcases procForkWith_cases (vmmCloneCow k) s with ⟨_, hnone⟩ | ⟨j, _, _, hj, hfork⟩
  · rw [hnone] at hslot
    cases hslot
  · obtain rfl : j = i := Option.some.inj (hj.symm.trans hslot)
    rcases cloneSpec_cow k _ _ h.sound h.current_space h.length_le with ⟨vm, dst, hcl, hz, hd⟩ | ⟨vm, hcl, _⟩
    · have hdst := cloneWith_dst sharePage s.mmu.vm (procCurrent s).dir (k := k)
      rw [← vmmCloneCow, hcl] at hdst
      rw [hfork vm dst hcl, if_neg hz]
      simp only [set_table, Function.update_self]
      exact ⟨hd, rfl, hdst hz⟩
    · rw [hfork vm 0 hcl, if_pos rfl] at hdir
      simp [set_table, stillborn, newProc, Proc.zero] at hdir

section

variable (h : Inv k s) (hf : Forked k s i) (hd : d = (procCurrent s).dir ∨ d = ((procFork k s).1.table i).dir)
  (hv : privateBase ≤ va)
include h hf hd hv

lemma Forked.same : tableView (procFork k s).1.mmu.vm.mem d (dirIndex va) =
      tableView s.mmu.vm.mem s.mmu.cr3 (dirIndex va) ∧
    ((procFork k s).1.mmu.on d).view va = s.mmu.view va := by
  have hcl := (hf.cloned h).1
  have h₂ := dirIndex_private hv
  rw [Mmu.view, Mmu.view, h.runs.loaded]
  rcases hd with rfl | rfl
  · have hsame := hcl.same _ h.current_space _ h₂ (dirIndex_lt va)
    exact ⟨hsame.1.symm, (hsame.2 _ (tabIndex_lt va)).symm⟩
  · have hcopy := hcl.copy _ h₂ (dirIndex_lt va)
    exact ⟨hcopy.1.symm, (hcopy.2 _ (tabIndex_lt va)).symm⟩

lemma Forked.seen (hal : Aligned d) :
    ((procFork k s).1.mmu.on d).seen va = (s.mmu.view va).or (s.mmu.promiseFor d va) := by
  obtain ⟨htab, hview⟩ := hf.same h hd hv
  have hdemand := (hf.cloned h).2.1
  rw [Mmu.seen, hview, Mmu.promiseView, Mmu.promiseFor,
    show ((procFork k s).1.mmu.on d).demand = s.mmu.demand from hdemand,
    show frameOf ((procFork k s).1.mmu.on d).cr3 = d from hal, ← htab]
  rfl

lemma Forked.steady (hst : s.mmu.Steady va) : ((procFork k s).1.mmu.on d).Steady va := by
  obtain ⟨htab, -⟩ := hf.same h hd hv
  exact hst.congr (congrArg Demand.regions (hf.cloned h).2.1) fun hthere => ne_of_eq_of_ne htab hthere

end

lemma Forked.siblings {first second : Word} {m : PhysMem} {n : ℕ} (ht : BootTables k first second)
    (hne : first ≠ second) (h : Run k Op.Enabled (boot k first second m) n s) (hf : Forked k s i) :
    Siblings k (procFork k s).1.mmu (procCurrent s).dir ((procFork k s).1.table i).dir false (procFork k s).1.mmu := by
  have hinv := h.inv boot_inv
  obtain ⟨hcl, hdemand, -⟩ := hf.cloned hinv
  have hlow := lowKept_of_run (h.step .fork trivial) ht
  refine ⟨hcl.sound, ?_, ?_, hlow.backed (boot_backed ht) hcl.sound,
    hlow.kernelMap (boot_backed ht) (boot_kernelMap ht hne), by rw [hdemand]; exact paged_of_run h,
    fun d hd va hv hst => ⟨hst, rfl⟩, fun _ d hd va hv hst => rfl⟩
  · rw [hcl.dirs]
    exact List.cons_subset_cons _ (List.subset_cons_self _ _) hinv.current_space
  · rw [hcl.dirs]
    exact List.mem_cons_of_mem _ List.mem_cons_self

lemma promiseFor_zero {w : Word × Word × (ℕ → Word)} (h : u.promiseFor d va = some w) : w.2.2 = fun _ => 0 := by
  rw [Mmu.promiseFor, Option.map_eq_some_iff] at h
  obtain ⟨r, -, rfl⟩ := h
  rfl

lemma PromisedToo.offers (h : s.mmu.view va ≠ none ∨ PromisedToo s.mmu c va) :
    Offers ((s.mmu.view va).or (s.mmu.promiseFor s.mmu.cr3 va)) ((s.mmu.view va).or (s.mmu.promiseFor c va)) := by
  cases hview : s.mmu.view va with
  | some w => exact .refl _
  | none =>
    have hprom := h.resolve_left fun hn => hn hview
    exact ⟨hprom, fun w w' hw hw' => (promiseFor_zero hw).trans (promiseFor_zero hw').symm⟩

/-- After a fork the child, whose directory is the frame that `pmm_alloc` hands out next, can do what the parent can
in the parent's regions if and only if every page of them was there at the fork, or that frame had been promised it too.
On the pages that were there, and below 8 MB, this holds whatever the two do afterwards, and until one of them stores
they load the same bytes. On pages promised to both it does as well, if no other page can bring a table with fewer
rights. -/
theorem fork_promises_iff {first second : Word} {m : PhysMem} {n : ℕ} (ht : BootTables k first second)
    (hne : first ≠ second) (h : Run k Op.Enabled (boot k first second m) n s) (hf : Forked k s i)
    (hfree : FreeFrames (procFork k s).1.mmu.vm.pmm) (hp : p = (procCurrent s).dir)
    (hc : c = (pmmAlloc s.mmu.vm.pmm).2) (hu : u = (procFork k s).1.mmu) :
    ((procFork k s).1.table i).dir = c ∧
    ((∀ va, InRegion s.mmu.demand p va → Follows u p c va ∧ SameByte u p c va) ↔
      ∀ va, privateBase ≤ va → InRegion s.mmu.demand p va → s.mmu.view va ≠ none ∨ PromisedToo s.mmu c va) ∧
    ∀ dirty t, Accesses p c u dirty t → FreeFrames t.vm.pmm → ∀ va,
      (privateBase ≤ va → s.mmu.view va ≠ none ∨ PromisedToo s.mmu c va ∧ s.mmu.Steady va) →
      Follows t p c va ∧ (dirty = false → SameByte t p c va) := by
  have hinv := h.inv boot_inv
  have hdir := (hf.cloned hinv).2.2
  have hsib := hf.siblings ht hne h
  have hsteady := fun (d va : Word) (hd : d = _ ∨ d = _) (hv : privateBase ≤ va) => hf.steady hinv hd hv
  have hseen := fun (d va : Word) (hd : d = _ ∨ d = _) (hv : privateBase ≤ va) =>
    hf.seen hinv hd hv (hsib.sound.space_aligned (hsib.side hd).loaded)
  rw [← hc] at hdir
  rw [hdir, ← hp, ← hu] at hsib hsteady hseen
  rw [← hu] at hfree
  have hcr3 : s.mmu.cr3 = p := hinv.runs.loaded.trans hp.symm
  have hlow : ∀ {dirty t va}, Siblings k u p c dirty t → ¬ privateBase ≤ va → Follows t p c va ∧ SameByte t p c va :=
    fun ht hv => ht.kernel.follows (ht.side (.inl rfl)) (ht.side (.inr rfl)) hv
  have hoffers : ∀ va, privateBase ≤ va → s.mmu.view va ≠ none ∨ PromisedToo s.mmu c va →
      Offers ((u.on p).seen va) ((u.on c).seen va) := by
    intro va hv hpage
    rw [hseen p va (.inl rfl) hv, hseen c va (.inr rfl) hv, ← hcr3]
    exact PromisedToo.offers hpage
  refine ⟨hdir, ⟨fun hall va hv hr => ?_, fun hcond va hr => ?_⟩, fun dirty t ha hfree' va hthere => ?_⟩
  · by_cases hs : s.mmu.view va = none
    · have hperm := (follows_iff_seen (hsib.side (.inl rfl)) (hsib.side (.inr rfl)) hv hfree).mp (hall va hr).1
      rw [hseen p va (.inl rfl) hv, hseen c va (.inr rfl) hv, hs, Option.none_or, Option.none_or, ← hcr3] at hperm
      exact .inr hperm
    · exact .inl hs
  · by_cases hv : privateBase ≤ va
    · have ho := hoffers va hv (hcond va hv hr)
      exact ⟨(follows_iff_seen (hsib.side (.inl rfl)) (hsib.side (.inr rfl)) hv hfree).mpr ho.permits,
        ho.sameByte (hsib.side (.inl rfl)) (hsib.side (.inr rfl)) hv hfree⟩
    · exact hlow hsib hv
  · have hsib' := hsib.accesses ha
    by_cases hv : privateBase ≤ va
    · have hst : s.mmu.Steady va := (hthere hv).elim Mmu.steady_of_view And.right
      exact hsib'.follows hfree' hv (fun d hd => hsteady d va hd hv hst)
        (hoffers va hv ((hthere hv).imp_right And.left))
    · exact ⟨(hlow hsib' hv).1, fun _ => (hlow hsib' hv).2⟩

/-! A process with one promised page, before and after it touches it. -/

def samplePromise : Sys :=
  Op.apply sampleDir (.promise 0x400000 privateBase (privateBase + 0x1000) (pfRw ||| pfUser))
    (Op.apply sampleDir (.switch 1) (Op.apply sampleDir (.assign 1) (Op.apply sampleDir (.alloc none) sampleBoot)))

def sampleTouched : Sys := Op.apply sampleDir (.load privateBase true) samplePromise

lemma samplePromise_run : ∃ n, Run sampleDir Op.Enabled sampleBoot n samplePromise := by
  have h₀ : Run sampleDir Op.Enabled sampleBoot 0 sampleBoot := .boot
  have h₁ := h₀.step (.alloc none) trivial
  have h₂ := h₁.step (.assign 1) ⟨by decide +kernel, by decide +kernel⟩
  have h₃ := h₂.step (.switch 1) trivial
  exact ⟨_, h₃.step (.promise 0x400000 privateBase (privateBase + 0x1000) (pfRw ||| pfUser)) trivial⟩

lemma sampleTouched_run : ∃ n, Run sampleDir Op.Enabled sampleBoot n sampleTouched := by
  obtain ⟨n, h⟩ := samplePromise_run
  have hfree : FreeFrames samplePromise.mmu.vm.pmm := by decide +kernel
  have hle : privateBase ≤ privateBase := by decide
  exact ⟨_, h.step (.load privateBase true) ⟨hle, (h.inv boot_inv).ok.mapsSucceed hle hfree⟩⟩

def samplePromisedToo : Sys :=
  Op.apply sampleDir (.promise 0x403000 (privateBase + 0x1000) (privateBase + 0x2000) (pfRw ||| pfUser))
    (Op.apply sampleDir (.promise 0x400000 (privateBase + 0x1000) (privateBase + 0x2000) (pfRw ||| pfUser))
      sampleTouched)

lemma samplePromisedToo_run : ∃ n, Run sampleDir Op.Enabled sampleBoot n samplePromisedToo := by
  obtain ⟨n, h⟩ := sampleTouched_run
  have h₁ := h.step (.promise 0x400000 (privateBase + 0x1000) (privateBase + 0x2000) (pfRw ||| pfUser)) trivial
  exact ⟨_, h₁.step (.promise 0x403000 (privateBase + 0x1000) (privateBase + 0x2000) (pfRw ||| pfUser)) trivial⟩

theorem fork_promises_touched : samplePromisedToo.mmu.view privateBase ≠ none ∧
    samplePromisedToo.mmu.view (privateBase + 0x1000) = none ∧
    ∃ t, Accesses 0x400000 0x403000 (procFork sampleDir samplePromisedToo).1.mmu false t ∧
      Follows t 0x400000 0x403000 privateBase ∧ Follows t 0x400000 0x403000 (privateBase + 0x1000) := by
  obtain ⟨n, h⟩ := samplePromisedToo_run
  have hf : Forked sampleDir samplePromisedToo 2 := ⟨by decide +kernel, by decide +kernel⟩
  have hfree : FreeFrames (procFork sampleDir samplePromisedToo).1.mmu.vm.pmm := by decide +kernel
  have hp : (0x400000 : Word) = (procCurrent samplePromisedToo).dir := by decide +kernel
  have hc : (0x403000 : Word) = (pmmAlloc samplePromisedToo.mmu.vm.pmm).2 := by decide +kernel
  have hview : samplePromisedToo.mmu.view privateBase ≠ none := by
    have hpte : (samplePromisedToo.mmu.pte privateBase).isSome = true := by decide +kernel
    obtain ⟨e, he⟩ := Option.isSome_iff_exists.mp hpte
    rw [Mmu.view_some he]
    exact Option.some_ne_none _
  have hprom : PromisedToo samplePromisedToo.mmu 0x403000 (privateBase + 0x1000) := by
    rw [PromisedToo]
    decide +kernel
  have hmap := (hf.siblings ⟨by decide, by decide, by decide⟩ (by decide) h).mapsSucceed (.inl hp)
    (show privateBase ≤ privateBase + 0x1000 by decide) hfree
  have hall := (fork_promises_iff ⟨by decide, by decide, by decide⟩ (by decide) h hf hfree hp hc rfl).2.2 false _
    (.load 0x400000 (privateBase + 0x1000) true .start (.inl rfl) hmap) (by decide +kernel)
  exact ⟨hview, Mmu.view_none (by decide +kernel), _, .load 0x400000 (privateBase + 0x1000) true .start (.inl rfl) hmap,
    (hall privateBase fun _ => .inl hview).1,
    (hall (privateBase + 0x1000) fun _ => .inr ⟨hprom, .inl (by decide +kernel)⟩).1⟩

/-- The parent loads a zero from its untouched page; the same load of the child is fatal. -/
theorem fork_drops_promise : (∃ n, Run sampleDir Op.Enabled sampleBoot n samplePromise) ∧
    Forked sampleDir samplePromise 2 ∧ FreeFrames (procFork sampleDir samplePromise).1.mmu.vm.pmm ∧
    InRegion samplePromise.mmu.demand (procCurrent samplePromise).dir privateBase ∧
    (loadByte ((procFork sampleDir samplePromise).1.mmu.on (procCurrent samplePromise).dir) privateBase true).2 =
      some 0 ∧
    (loadByte ((procFork sampleDir samplePromise).1.mmu.on ((procFork sampleDir samplePromise).1.table 2).dir)
      privateBase true).2 = none :=
  ⟨samplePromise_run, ⟨by decide +kernel, by decide +kernel⟩, by decide +kernel, ⟨0, by decide +kernel⟩,
    by decide +kernel⟩

end PyroOS
