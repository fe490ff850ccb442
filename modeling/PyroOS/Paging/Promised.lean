import PyroOS.Paging.FailedMap

/-! Demand paging serves what was promised, and nothing else. -/

namespace PyroOS

open Sharing

variable {k : BootDir} {u u' : Mmu} {dm : Demand} {d addr err va : Word}

structure Promise where
  dir : Word
  start : Word
  stop : Word
  flags : Word

namespace Promise

def Proper (c : Promise) : Prop := c.start < c.stop ∧ c.stop ≤ 0xFFFFF000 ∧ privateBase ≤ c.start

def Covers (c : Promise) (d addr : Word) : Prop :=
  c.dir = d ∧ c.start.toNat / 4096 ≤ addr.toNat / 4096 ∧ addr.toNat / 4096 < (c.stop.toNat + 4095) / 4096

instance (c : Promise) (d addr : Word) : Decidable (c.Covers d addr) := inferInstanceAs (Decidable (_ ∧ _))

def region (c : Promise) : Region := ⟨c.dir, c.start &&& ~~~0xFFF, (c.stop + 0xFFF) &&& ~~~0xFFF, c.flags, true⟩

end Promise

def Demand.promises (dm : Demand) (calls : List Promise) : Demand :=
  calls.foldl (fun dm c => demandRegion dm c.dir c.start c.stop c.flags) dm

def framesFor (vm : Vm) (d addr : Word) : ℕ := if isPresent (vm.mem d (dirIndex addr)) then 1 else 2

/-! ### The region table -/

lemma find?_finRange {n : ℕ} {P : Fin n → Bool} {i : Fin n} (hi : P i = true) (hlt : ∀ j < i, P j = false) :
    (List.finRange n).find? P = some i := by
  rw [List.find?_eq_some_iff_getElem]
  refine ⟨hi, i, by simp, by simp, fun j hj => ?_⟩
  simpa using hlt ⟨j, hj.trans i.isLt⟩ hj

def Listed (dm : Demand) (calls : List Promise) : Prop :=
  ∀ i : Fin maxRegions, match calls[i.val]? with
    | some c => dm.regions i = c.region
    | none => (dm.regions i).active = false

lemma Listed.call {calls : List Promise} (h : Listed dm calls) (c : Promise) (hlen : calls.length < maxRegions) :
    Listed (demandRegion dm c.dir c.start c.stop c.flags) (calls ++ [c]) := by
  -- the next free slot is the one after the last call
  have hslot : (List.finRange maxRegions).find? (fun i => !(dm.regions i).active) = some ⟨calls.length, hlen⟩ := by
    apply find?_finRange
    · have hi := h ⟨calls.length, hlen⟩
      rw [List.getElem?_eq_none le_rfl] at hi
      simpa using hi
    · intro j hj
      have hi := h j
      rw [List.getElem?_eq_getElem hj] at hi
      rw [hi]
      rfl
  intro i
  have hi := h i
  rw [demandRegion, hslot]
  by_cases he : i.val = calls.length
  · obtain rfl : i = ⟨calls.length, hlen⟩ := Fin.ext he
    simp [Promise.region]
  · have hne : i ≠ ⟨calls.length, hlen⟩ := fun hh => he (congrArg Fin.val hh)
    simp only [Function.update_of_ne hne]
    rcases Nat.lt_or_gt_of_ne he with hlt | hgt
    · rw [List.getElem?_append_left hlt]
      exact hi
    · rw [List.getElem?_eq_none (by simp; omega)]
      rw [List.getElem?_eq_none (by omega)] at hi
      exact hi

lemma Listed.promises (hnone : ∀ i, (dm.regions i).active = false) (calls : List Promise)
    (hlen : calls.length ≤ maxRegions) :
    Listed (dm.promises calls) calls ∧ (dm.promises calls).faultsServed = dm.faultsServed := by
  induction calls using List.reverseRecOn with
  | nil => exact ⟨fun i => hnone i, rfl⟩
  | append_singleton calls c ih =>
    rw [List.length_append, List.length_singleton] at hlen
    obtain ⟨hlisted, hserved⟩ := ih (by omega)
    rw [Demand.promises, List.foldl_append]
    refine ⟨hlisted.call c (by omega), ?_⟩
    rw [← hserved]
    simp only [List.foldl_cons, List.foldl_nil, demandRegion]
    split <;> rfl

lemma Promise.Proper.covers_iff {c : Promise} (h : c.Proper) :
    (c.region.active && c.region.dir == d && decide (c.region.start ≤ addr) && decide (addr < c.region.stop)) =
      decide (c.Covers d addr) := by
  obtain ⟨_, hstop, _⟩ := h
  rw [BitVec.le_def] at hstop
  simp only [BitVec.ofNat_eq_ofNat, BitVec.toNat_ofNat] at hstop
  have hround : ∀ x : Word, (x &&& ~~~0xFFF).toNat = x.toNat / 2 ^ 12 * 2 ^ 12 := fun x => and_not_low x (by decide)
  have hsum : (c.stop + 0xFFF).toNat = c.stop.toNat + 4095 := by
    rw [BitVec.toNat_add]
    simp only [BitVec.ofNat_eq_ofNat, BitVec.toNat_ofNat]
    omega
  have h₁ : c.start &&& ~~~0xFFF ≤ addr ↔ c.start.toNat / 4096 ≤ addr.toNat / 4096 := by
    rw [BitVec.le_def, hround]
    omega
  have h₂ : addr < (c.stop + 0xFFF) &&& ~~~0xFFF ↔ addr.toNat / 4096 < (c.stop.toNat + 4095) / 4096 := by
    rw [BitVec.lt_def, hround, hsum]
    omega
  rw [Bool.eq_iff_iff, decide_eq_true_iff]
  simp only [Promise.region, Bool.true_and, Bool.and_eq_true, beq_iff_eq, decide_eq_true_eq, h₁, h₂, Promise.Covers,
    and_assoc]

lemma Listed.promised {calls : List Promise} (h : Listed dm calls) (hlen : calls.length ≤ maxRegions)
    (hcalls : ∀ c ∈ calls, c.Proper) (d addr : Word) :
    promised dm d addr = (calls.find? fun c => decide (c.Covers d addr)).map Promise.region := by
  have hslot : ∀ (i : Fin maxRegions) (hi : i.val < calls.length), dm.regions i = (calls[i.val]).region := by
    intro i hi
    have hh := h i
    rw [List.getElem?_eq_getElem hi] at hh
    exact hh
  have hcover : ∀ (i : Fin maxRegions) (hi : i.val < calls.length), ((dm.regions i).active && (dm.regions i).dir == d &&
      decide ((dm.regions i).start ≤ addr) && decide (addr < (dm.regions i).stop)) = decide
        ((calls[i.val]).Covers d addr) := by
    intro i hi
    rw [hslot i hi]
    exact (hcalls _ (List.getElem_mem hi)).covers_iff
  rw [PyroOS.promised]
  cases hfind : calls.find? fun c => decide (c.Covers d addr) with
  | none =>
    rw [List.find?_eq_none] at hfind
    rw [Option.map_none, Option.map_eq_none_iff, List.find?_eq_none]
    intro i _
    by_cases hi : i.val < calls.length
    · rw [hcover i hi]
      exact hfind _ (List.getElem_mem hi)
    · have hh := h i
      rw [List.getElem?_eq_none (by omega)] at hh
      simp [hh]
  | some c =>
    obtain ⟨hc, i, hi, rfl, hbefore⟩ := List.find?_eq_some_iff_getElem.mp hfind
    have hfirst : (List.finRange maxRegions).find? (fun i => (dm.regions i).active && (dm.regions i).dir == d &&
        decide ((dm.regions i).start ≤ addr) && decide (addr < (dm.regions i).stop)) = some ⟨i, by omega⟩ := by
      apply find?_finRange
      · rw [hcover ⟨i, by omega⟩ hi]
        exact hc
      · intro j hj
        rw [hcover j (lt_trans hj hi)]
        simpa using hbefore j.val hj
    rw [hfirst, Option.map_some, Option.map_some, hslot ⟨i, by omega⟩ hi]

/-! ### A served page -/

structure PageServed (k : BootDir) (u u' : Mmu) (addr flags : Word) : Prop where
  cr3 : u'.cr3 = u.cr3
  regions : u'.demand.regions = u.demand.regions
  counter : u'.demand.faultsServed = u.demand.faultsServed + 1
  dirs : u'.vm.dirs = u.vm.dirs
  fresh : Fresh k u.vm.dirs u.vm.mem (pmmAlloc u.vm.pmm).2
  mapped : u'.pte addr = some ((pmmAlloc u.vm.pmm).2 ||| pageFlags flags)
  zero : ∀ i, u'.vm.mem (pmmAlloc u.vm.pmm).2 i = 0
  entries : ∀ d ∈ spaces k u.vm.dirs, ∀ va, ¬ (d = u.cr3 ∧ dirIndex va = dirIndex addr ∧
    isPresent (u.vm.mem d (dirIndex va)) = false) → u'.vm.mem d (dirIndex va) = u.vm.mem d (dirIndex va)
  others : ∀ d ∈ spaces k u.vm.dirs, ∀ va, ¬ (d = u.cr3 ∧ frameOf va = frameOf addr) →
    pteAt u'.vm.mem d (dirIndex va) (tabIndex va) = pteAt u.vm.mem d (dirIndex va) (tabIndex va) ∧
      (privateBase ≤ va → ∀ e, pteAt u.vm.mem d (dirIndex va) (tabIndex va) = some e →
        u'.vm.mem (frameOf e) = u.vm.mem (frameOf e))

lemma privateBase_le_of (h : 2 ≤ dirIndex va) : privateBase ≤ va := by
  rw [dirIndex_eq] at h
  rw [BitVec.le_def]
  simp only [privateBase, BitVec.ofNat_eq_ofNat, BitVec.toNat_ofNat]
  omega

lemma Entered.pageServed {L L' : Multiset Word} {flags : Word} {vm' : Vm} (hb : Backed k L u.vm) (hb' : Backed k L' vm')
    (he : Entered k L u.vm vm' u.cr3 (frameOf addr) flags (pmmAlloc u.vm.pmm).2 fun _ => 0) :
    PageServed k u ⟨vm', ⟨u.demand.regions, u.demand.faultsServed + 1⟩, u.cr3⟩ addr flags := by
  have hdi := dirIndex_frameOf addr
  have hti := tabIndex_frameOf addr
  have hentries := he.entries
  have hptes := he.ptes
  have hpages := he.pages
  have hentry := he.entry
  rw [hdi, hti] at hentry
  rw [hdi] at hentries
  simp only [hdi, hti] at hptes hpages
  refine ⟨rfl, rfl, rfl, he.dirs, he.fresh, hentry, fun i => congrFun he.content i,
    fun d hd va hne => hentries d hd _ hne, fun d hd va hne => ?_⟩
  by_cases hlow : 2 ≤ dirIndex va
  · have hr := page_ref hd (privateBase_le_of hlow)
    have hne' : ¬ (d = u.cr3 ∧ dirIndex va = dirIndex addr ∧ tabIndex va = tabIndex addr) := fun hh =>
      hne ⟨hh.1, frameOf_eq_of_index hh.2.1 hh.2.2⟩
    have hpte := hptes d _ _ hr hne'
    refine ⟨hpte, fun _ e hpe => ?_⟩
    have hview := hpages d _ _ hr
    rw [if_neg hne', pageView_some (hpte.trans hpe), pageView_some hpe] at hview
    exact (Prod.mk.inj (Prod.mk.inj (Option.some.inj hview)).2).2
  · exact ⟨hb.pte_low hb'.layout he.low hd (by rw [he.dirs]; exact hd) (not_le.mp hlow),
      fun hp => (hlow (dirIndex_private hp)).elim⟩

lemma Mmu.Fit.demandHandle {r : Region} (h : u.Fit k) (hl : u.cr3 ∈ spaces k u.vm.dirs) (hv : privateBase ≤ addr)
    (herr : err &&& 0x1 = 0) (hp : promised u.demand (frameOf u.cr3) addr = some r) :
    (pmmFreeFrames u.vm.pmm < framesFor u.vm u.cr3 addr ∧ ∃ vm',
      demandHandle u addr err = ({ u with vm := vm' }, false) ∧ SameTables k u.vm vm') ∨
    framesFor u.vm u.cr3 addr ≤ pmmFreeFrames u.vm.pmm ∧ ∃ u', demandHandle u addr err = (u', true) ∧
      PageServed k u u' addr r.flags := by
  obtain ⟨L, hb⟩ := h.backed
  have hdem := demandHandle_of_promised herr hp (hb.layout.space_aligned hl)
  have hdi := dirIndex_frameOf addr
  rcases h.mapAlloc r.flags hl (frameOf_private hv) with ⟨hm, hfree⟩ | ⟨hlast, hm, hsame, _⟩ |
    ⟨hfree, hlast, L₁, L', vm', hm, hb₁, hb', he⟩
  · rw [hm, if_pos (show (-1 : ℤ) ≠ 0 by decide)] at hdem
    refine .inl ⟨?_, u.vm, hdem, .refl k u.vm⟩
    rw [hfree, framesFor]
    split <;> omega
  · rw [if_pos (by rw [hm]; decide)] at hdem
    refine .inl ⟨?_, _, hdem, hsame⟩
    rw [hlast.1, framesFor, ← hdi, hlast.2, if_neg Bool.false_ne_true]
    omega
  · rw [hm, if_neg (not_not.mpr rfl)] at hdem
    refine .inr ⟨?_, _, hdem, he.pageServed hb₁ hb'⟩
    rw [framesFor, ← hdi]
    split
    · omega
    · rename_i habs
      have hone : pmmFreeFrames u.vm.pmm ≠ 1 := fun hh => hlast ⟨hh, Bool.eq_false_iff.mpr habs⟩
      omega

lemma Promise.Covers.privateBase_le {c : Promise} (h : c.Covers d addr) (hc : c.Proper) : privateBase ≤ addr := by
  have hstart := hc.2.2
  have hpage := h.2.1
  rw [BitVec.le_def] at hstart ⊢
  simp only [privateBase, BitVec.ofNat_eq_ofNat, BitVec.toNat_ofNat] at hstart ⊢
  omega

structure ServesExactly (k : BootDir) (u : Mmu) (calls : List Promise) (addr err : Word) (res : Mmu × Bool) : Prop where
  returns : res.2 = true ↔ err &&& 0x1 = 0 ∧ (∃ c ∈ calls, c.Covers u.cr3 addr) ∧
    framesFor u.vm u.cr3 addr ≤ pmmFreeFrames u.vm.pmm
  served : res.2 = true → ∃ c, calls.find? (fun c => decide (c.Covers u.cr3 addr)) = some c ∧
    PageServed k u res.1 addr c.flags
  refused : res.2 = false → SameTables k u.vm res.1.vm ∧ res.1.demand = u.demand ∧ res.1.cr3 = u.cr3

lemma ServesExactly.unpromised {calls : List Promise} (hno : err &&& 0x1 = 0 → ∀ c ∈ calls, ¬ c.Covers u.cr3 addr) :
    ServesExactly k u calls addr err (u, false) := by
  refine ⟨⟨nofun, ?_⟩, nofun, fun _ => ⟨.refl k u.vm, rfl, rfl⟩⟩
  rintro ⟨herr, ⟨c, hc, hcov⟩, _⟩
  exact (hno herr c hc hcov).elim

theorem demand_exact {first second memBytes : Word} {m : PhysMem} (ht : BootTables k first second)
    (h : MmuRun k (MmuOp.Allowed k) (bootWith k first second memBytes m).mmu u) (hd : u.cr3 ∈ spaces k u.vm.dirs)
    (hnone : ∀ i, (dm.regions i).active = false) {calls : List Promise} (hlen : calls.length ≤ maxRegions)
    (hcalls : ∀ c ∈ calls, c.Proper) (addr err : Word) :
    ServesExactly k { u with demand := dm.promises calls } calls addr err
      (demandHandle { u with demand := dm.promises calls } addr err) := by
  have hfit : Mmu.Fit k { u with demand := dm.promises calls } :=
    ⟨(h.fit (boot_fit ht)).backed, (h.fit (boot_fit ht)).tidy⟩
  have hp := (Listed.promises hnone calls hlen).1.promised hlen hcalls u.cr3 addr
  have hal : frameOf u.cr3 = u.cr3 := by
    obtain ⟨L, hb⟩ := hfit.backed
    exact hb.layout.space_aligned hd
  by_cases herr : err &&& 0x1 = 0
  · cases hfind : calls.find? fun c => decide (c.Covers u.cr3 addr) with
    | none =>
      have hdem : demandHandle { u with demand := dm.promises calls } addr err =
          ({ u with demand := dm.promises calls }, false) := by
        simp only [demandHandle, herr, hal, hp, hfind, ne_eq, not_true_eq_false, if_false, Option.map_none]
      rw [hdem]
      exact .unpromised fun _ c hc hcov => List.find?_eq_none.mp hfind c hc (decide_eq_true hcov)
    | some c =>
      have hcov : c.Covers u.cr3 addr := by simpa using List.find?_some hfind
      have hmem := List.mem_of_find?_eq_some hfind
      rw [hfind, Option.map_some, ← hal] at hp
      rcases hfit.demandHandle hd (hcov.privateBase_le (hcalls c hmem)) herr hp with ⟨hlt, vm', hdem, hsame⟩ |
        ⟨hle, u', hdem, hserved⟩
      · rw [hdem]
        exact ⟨⟨fun h => (by cases h), fun hh => (not_le.mpr hlt hh.2.2).elim⟩, fun h => (by cases h),
          fun _ => ⟨hsame, rfl, rfl⟩⟩
      · rw [hdem]
        exact ⟨⟨fun _ => ⟨herr, ⟨c, hmem, hcov⟩, hle⟩, fun _ => rfl⟩, fun _ => ⟨c, hfind, hserved⟩,
          fun h => (by cases h)⟩
  · have hdem : demandHandle { u with demand := dm.promises calls } addr err =
        ({ u with demand := dm.promises calls }, false) := by rw [demandHandle, if_pos herr]
    rw [hdem]
    exact .unpromised fun hz => (herr hz).elim

def overlappingPromises : List Promise := [⟨0x20000, 0x800800, 0x801001, 2⟩, ⟨0x20000, 0x801000, 0x900000, 6⟩]

theorem demand_exact_boot :
    ServesExactly sampleDir { sampleBoot.mmu with demand := sampleBoot.mmu.demand.promises overlappingPromises }
      overlappingPromises 0x801FFF 4
      (demandHandle { sampleBoot.mmu with demand := sampleBoot.mmu.demand.promises overlappingPromises } 0x801FFF 4) :=
  demand_exact sample_tables .start List.mem_cons_self (fun _ => rfl) (by decide)
    (by simp [overlappingPromises, Promise.Proper, privateBase]) _ _

end PyroOS
