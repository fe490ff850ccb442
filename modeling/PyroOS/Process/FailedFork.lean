import PyroOS.Paging.Retries
import PyroOS.Process.ForkDemand

/-! A fork that fails can be noticed by nobody: neither by what is read nor by what can be written in place. -/

namespace PyroOS

open Sharing

variable {k : BootDir} {s : Sys} {u u' : Mmu} {vm vm' : Vm} {p p' : Pmm} {L L' R : Multiset Word} {d src va e : Word}
  {user : Bool}

/-! ### What a load finds -/

def Mmu.found (u : Mmu) (va : Word) : PageView :=
  (u.view va).or (if framesFor u.vm u.cr3 va ≤ pmmFreeFrames u.vm.pmm then u.promiseView va else none)

lemma Mmu.Fit.serve {r : Region} {code : Word} (h : u.Fit k) (hl : u.cr3 ∈ spaces k u.vm.dirs) (hv : privateBase ≤ va)
    (habs : u.pte va = none) (hcode : code &&& 0x1 = 0) (hp : promised u.demand (frameOf u.cr3) va = some r) :
    (pmmFreeFrames u.vm.pmm < framesFor u.vm u.cr3 va ∧ (isrPageFault u va code).2 = false) ∨
    framesFor u.vm u.cr3 va ≤ pmmFreeFrames u.vm.pmm ∧ ∃ u', isrPageFault u va code = (u', true) ∧
      u'.cr3 = u.cr3 ∧ u'.view va = u.promiseView va ∧ u'.vm = (vmmMapAlloc u.vm u.cr3 (frameOf va) r.flags).1 ∧
        (vmmMapAlloc u.vm u.cr3 (frameOf va) r.flags).2 = 0 := by
  obtain ⟨L, hb⟩ := h.backed
  have hal : frameOf u.cr3 = u.cr3 := hb.layout.space_aligned hl
  rcases h.demandHandle hl hv hcode hp with ⟨hlt, vm', hdem, hsame⟩ | ⟨hle, u', hdem, -⟩
  · refine .inl ⟨hlt, ?_⟩
    have habs' : pteAt vm'.mem u.cr3 (dirIndex va) (tabIndex va) = none := (hsame.pte _ hl va).trans habs
    rw [isrPageFault_unserved hal hdem habs']
  · have hserve := demandHandle_of_promised hcode hp hal
    rw [hdem] at hserve
    split at hserve
    · cases hserve
    · rename_i hok
      obtain rfl := (Prod.mk.inj hserve).1
      refine .inr ⟨hle, ⟨(vmmMapAlloc u.vm u.cr3 (frameOf va) r.flags).1,
        ⟨u.demand.regions, u.demand.faultsServed + 1⟩, u.cr3⟩, by rw [isrPageFault, hdem]; rfl, rfl, ?_, rfl,
        not_not.mp hok⟩
      rcases hb.mapAlloc_cases r.flags hl (frameOf_private hv) with ⟨hm, -⟩ | ⟨_, _, _, _, _, _, hm, -⟩ |
        ⟨_, x, vm', _, _, _, hm, _, he, -⟩
      · rw [hm] at hok
        exact (hok (by dsimp only; decide)).elim
      · rw [hm] at hok
        exact (hok (by dsimp only; decide)).elim
      · have hpages := he.pages _ _ _ (page_ref hl hv)
        rw [dirIndex_frameOf, tabIndex_frameOf, if_pos ⟨rfl, rfl, rfl⟩] at hpages
        rw [Mmu.view, Mmu.promiseView, hp, hm]
        exact hpages

lemma isrPageFault_unpromised {code : Word} (hal : Aligned u.cr3) (habs : u.pte va = none)
    (hp : promised u.demand (frameOf u.cr3) va = none) : isrPageFault u va code = (u, false) := by
  refine isrPageFault_unserved hal ?_ habs
  rw [demandHandle, hp]
  split <;> rfl

lemma Mmu.Fit.load_found (h : u.Fit k) (hmap : KernelMap k u.vm.mem) (hl : u.cr3 ∈ spaces k u.vm.dirs) (va : Word)
    (user : Bool) : (loadByte u va user).2 = viewByte (u.found va) va user := by
  obtain ⟨L, hb⟩ := h.backed
  have hal : Aligned u.cr3 := hb.layout.space_aligned hl
  cases hpte : u.pte va with
  | some e =>
    have hview : u.view va ≠ none := by
      rw [Mmu.view_some hpte]
      exact Option.some_ne_none _
    rw [loadByte_of_access (accessWith_read 2 user hal hview), Mmu.found, Mmu.view_some hpte, Option.some_or]
  | none =>
    have hv : privateBase ≤ va := by
      by_contra hlow
      obtain ⟨e, he, -⟩ := hmap.pte hb.layout hl hlow
      cases hpte.symm.trans he
    have hw : walk u.vm.mem u.cr3 va false user = .error (accessCode false user) := walk_absent hal hpte
    rw [Mmu.found, Mmu.view_none hpte, Option.none_or]
    cases hp : promised u.demand (frameOf u.cr3) va with
    | none =>
      have ha : access u va false user = (u, none) := accessWith_refused hw (isrPageFault_unpromised hal hpte hp)
      have hnone : u.promiseView va = none := by rw [Mmu.promiseView, hp, Option.map_none]
      rw [loadByte, ha, hnone, ite_self]
      rfl
    | some r =>
      rcases h.serve hl hv hpte (accessCode_absent false user) hp with ⟨hlt, hf⟩ | ⟨hle, u', hf, hcr3, hview, -⟩
      · have ha : access u va false user = (_, none) := accessWith_refused hw (Prod.ext rfl hf)
        rw [loadByte, ha, if_neg (not_le.mpr hlt)]
        rfl
      · have ha : access u va false user = accessWith 2 u' va false user := accessWith_again hw hf
        have hsome : u'.view va ≠ none := by
          rw [hview]
          exact Mmu.promiseView_some hp
        rw [accessWith_read 1 user (hcr3 ▸ hal) hsome] at ha
        rw [loadByte_of_access ha, hview, if_pos hle]

/-! ### Stores that take no frame -/

def WritesInPlace (u : Mmu) (va : Word) (b : Byte) (user : Bool) : Prop :=
  (storeByte u va b user).2 = true ∧ (storeByte u va b user).1.vm.pmm.bitmap = u.vm.pmm.bitmap

lemma pmmAlloc_bits (p : Pmm) {i : ℕ} (hi : p.bitmap i = true) : (pmmAlloc p).1.bitmap i = true := by
  have htake : ∀ j, (p.take j).bitmap i = true := fun j => by
    by_cases he : i = j <;> simp [Pmm.take, he, hi]
  rw [pmmAlloc]
  split
  · exact hi
  · split
    · exact htake _
    · split
      · exact htake _
      · exact hi

lemma Pmm.Tidy.alloc_takes (h : p.Tidy) (ha : (pmmAlloc p).2 ≠ 0) :
    ∃ i, p.bitmap i = false ∧ (pmmAlloc p).1.bitmap i = true := by
  rcases h.alloc_cases with ⟨hz, -⟩ | ⟨i, -, hb, -, ht⟩
  · rw [hz] at ha
    exact (ha rfl).elim
  · exact ⟨i, hb, by rw [ht]; simp [Pmm.take]⟩

lemma vmmMapAlloc_takes {virt flags : Word} (h : vm.pmm.Tidy) (hok : (vmmMapAlloc vm d virt flags).2 = 0) :
    ∃ i, vm.pmm.bitmap i = false ∧ (vmmMapAlloc vm d virt flags).1.pmm.bitmap i = true := by
  have hne : (pmmAlloc vm.pmm).2 ≠ 0 := fun hz => by
    simp [vmmMapAlloc, hz] at hok
  obtain ⟨i, hi, hset⟩ := h.alloc_takes hne
  refine ⟨i, hi, ?_⟩
  rcases vmmMapAlloc_pmm vm d virt flags with hp | hp <;> rw [hp]
  · exact hset
  · exact pmmAlloc_bits _ hset

lemma vmmMapAlloc_bits (vm : Vm) (d virt flags : Word) {i : ℕ} (hi : vm.pmm.bitmap i = true) :
    (vmmMapAlloc vm d virt flags).1.pmm.bitmap i = true := by
  rcases vmmMapAlloc_pmm vm d virt flags with hp | hp <;> rw [hp]
  · exact pmmAlloc_bits _ hi
  · exact pmmAlloc_bits _ (pmmAlloc_bits _ hi)

lemma pmmFree_shared {f : Word} (h : 1 < pmmRefcount p f) : (pmmFree p f).bitmap = p.bitmap := by
  rw [pmmRefcount] at h
  rw [pmmFree]
  split at h
  · cases h
  · rename_i hf
    rw [if_neg hf]
    dsimp only at h ⊢
    split
    · rfl
    · split at h
      · rw [if_pos h]
      · cases h

lemma Pmm.Tidy.alloc_shared {f : Word} (h : p.Tidy) (hf : 1 < pmmRefcount p f) : 1 < pmmRefcount (pmmAlloc p).1 f := by
  rcases h.alloc_cases with ⟨ha, -⟩ | ⟨i, hi, hb, -, ha⟩
  · rwa [ha]
  · have hz := h.refcount_zero hb
    have htake : pmmRefcount (p.take i) f = if f < managedBase then 0 else
        if frameIndex f < p.totalFrames then Function.update p.refcount i 1 (frameIndex f) else 0 := rfl
    rw [ha, htake]
    rw [pmmRefcount] at hf
    split at hf
    · cases hf
    · rename_i hlow
      dsimp only at hf
      split at hf
      · rename_i hlt
        rw [if_neg hlow, if_pos hlt, Function.update_of_ne]
        · exact hf
        · intro he
          rw [he, hz] at hf
          cases hf
      · cases hf

lemma vmmCowHandle_cow {err : Word} (hal : Aligned d) (he : pteAt vm.mem d (dirIndex va) (tabIndex va) = some e)
    (hc : isCow e = true) (herr : err &&& 0x2 ≠ 0) : vmmCowHandle vm d va err =
      if pmmRefcount vm.pmm (frameOf e) ≤ 1 then ({ vm with
        mem := vm.mem.setWord (frameOf (vm.mem d (dirIndex va))) (tabIndex va) (frameOf e ||| reclaimedFlags e) }, true)
      else if (pmmAlloc vm.pmm).2 = 0 then ({ vm with pmm := (pmmAlloc vm.pmm).1 }, false)
      else ({ vm with
        mem := (vm.mem.setPage (pmmAlloc vm.pmm).2 (vm.mem (frameOf e))).setWord (frameOf (vm.mem d (dirIndex va)))
          (tabIndex va) ((pmmAlloc vm.pmm).2 ||| reclaimedFlags e)
        pmm := pmmFree (pmmAlloc vm.pmm).1 (frameOf e) }, true) := by
  have hal' : frameOf d = d := hal
  obtain ⟨hp, hpe, hat⟩ := pteAt_some he
  rw [vmmCowHandle, if_neg herr, hal']
  simp only [hp, hat, hpe, hc, Bool.not_true, Bool.or_self, Bool.false_eq_true, if_false]

lemma vmmCowHandle_bits (cr3 va err : Word) (h : vm.pmm.Tidy) {i : ℕ} (hi : vm.pmm.bitmap i = true) :
    (vmmCowHandle vm cr3 va err).1.pmm.bitmap i = true := by
  rcases vmmCowHandle_pmm vm cr3 va err with hp | hp | ⟨f, hf, hp⟩ <;> rw [hp]
  · exact hi
  · exact pmmAlloc_bits _ hi
  · rw [pmmFree_shared (h.alloc_shared hf)]
    exact pmmAlloc_bits _ hi

lemma isrPageFault_bits (va code : Word) (h : u.vm.pmm.Tidy) {i : ℕ} (hi : u.vm.pmm.bitmap i = true) :
    (isrPageFault u va code).1.vm.pmm.Tidy ∧ (isrPageFault u va code).1.vm.pmm.bitmap i = true := by
  have hd : (demandHandle u va code).1.vm.pmm.Tidy ∧ (demandHandle u va code).1.vm.pmm.bitmap i = true := by
    rw [demandHandle]
    split
    · exact ⟨h, hi⟩
    · cases promised u.demand (frameOf u.cr3) va with
      | none => exact ⟨h, hi⟩
      | some r =>
        have ht : (vmmMapAlloc u.vm r.dir (va &&& ~~~0xFFF) r.flags).1.pmm.Tidy := vmmMapAlloc_tidy h
        have hb := vmmMapAlloc_bits u.vm r.dir (va &&& ~~~0xFFF) r.flags hi
        dsimp only
        split <;> exact ⟨ht, hb⟩
  rw [isrPageFault]
  generalize demandHandle u va code = r at hd ⊢
  obtain ⟨u', _ | _⟩ := r
  · exact ⟨vmmCowHandle_tidy hd.1, vmmCowHandle_bits _ _ _ hd.1 hd.2⟩
  · exact hd

lemma accessWith_bits (n : ℕ) (va : Word) (write user : Bool) (h : u.vm.pmm.Tidy) {i : ℕ}
    (hi : u.vm.pmm.bitmap i = true) :
    (accessWith n u va write user).1.vm.pmm.bitmap i = true := by
  induction n generalizing u with
  | zero => exact hi
  | succ n ih =>
    rw [accessWith]
    cases walk u.vm.mem u.cr3 va write user with
    | ok e => exact hi
    | error code =>
      have hf := isrPageFault_bits va code h hi
      dsimp only
      generalize isrPageFault u va code = r at hf ⊢
      obtain ⟨u', _ | _⟩ := r
      · exact hf.2
      · exact ih hf.1 hf.2

lemma storeByte_pmm (b : Byte) : (storeByte u va b user).1.vm.pmm = (access u va true user).1.vm.pmm := by
  rw [storeByte]
  generalize access u va true user = r
  obtain ⟨u', _ | e⟩ := r <;> rfl

lemma WritesInPlace.not_again {b : Byte} {code : Word} (hw : walk u.vm.mem u.cr3 va true user = .error code)
    (hf : isrPageFault u va code = (u', true)) (ht : u'.vm.pmm.Tidy) {i : ℕ} (hi : u.vm.pmm.bitmap i = false)
    (hset : u'.vm.pmm.bitmap i = true) : ¬ WritesInPlace u va b user := by
  rintro ⟨-, hsame⟩
  have hb := accessWith_bits 2 va true user ht hset
  rw [storeByte_pmm, access, accessWith_again hw hf] at hsame
  rw [hsame, hi] at hb
  cases hb

lemma WritesInPlace.not_refused {b : Byte} {code : Word} (hw : walk u.vm.mem u.cr3 va true user = .error code)
    (hf : isrPageFault u va code = (u', false)) : ¬ WritesInPlace u va b user := by
  rintro ⟨hst, -⟩
  rw [storeByte_snd, access, accessWith_refused hw hf] at hst
  cases hst

lemma viewPermits_plain (write user : Bool) (he : u.pte va = some e) (hc : isCow e = false) :
    viewPermits (u.view va) write user = permits (u.vm.mem u.cr3 (dirIndex va)) e write user := by
  rw [Mmu.view_some he, viewPermits, permits_view, hc, Bool.or_false, permits]

lemma accessWith_plain (n : ℕ) (write user : Bool) (hal : Aligned u.cr3) (he : u.pte va = some e)
    (hc : isCow e = false) :
    accessWith (n + 1) u va write user = (u, if viewPermits (u.view va) write user then some e else none) := by
  have hw := walk_present write user hal he
  rw [viewPermits_plain write user he hc]
  split at hw
  · rename_i hperm
    rw [accessWith_ok hw, if_pos hperm]
  · rename_i hperm
    rw [accessWith_refused hw (isrPageFault_plain write user hal he hc), if_neg hperm]

lemma writesInPlace_of_access {b : Byte} {r : Option Word} (ha : access u va true user = (u', r))
    (hsame : u'.vm.pmm.bitmap = u.vm.pmm.bitmap) : WritesInPlace u va b user ↔ r.isSome = true := by
  rw [WritesInPlace, storeByte_snd, storeByte_pmm, ha]
  exact and_iff_left hsame

lemma isSome_ite (c : Bool) (e : Word) : (if c then some e else none).isSome = c := by
  cases c <;> rfl

lemma writesInPlace_plain (b : Byte) (user : Bool) (hal : Aligned u.cr3) (he : u.pte va = some e)
    (hc : isCow e = false) :
    WritesInPlace u va b user ↔ viewPermits (u.view va) true user = true := by
  rw [writesInPlace_of_access (accessWith_plain 2 true user hal he hc) rfl, isSome_ite]

def Mmu.Sole (u : Mmu) (va : Word) (user : Bool) : Prop :=
  viewPermits (u.view va) true user = true ∧
    ∃ f, target u.vm.mem (.page u.cr3 (dirIndex va) (tabIndex va)) = some f ∧ pmmRefcount u.vm.pmm f ≤ 1

lemma Lossy.sole (h : Lossy k vm) {di ti : ℕ} (hr : Ref.page d di ti ∈ refs k vm.dirs)
    (he : pteAt vm.mem d di ti = some e) (hw : isWritable e = true) : pmmRefcount vm.pmm (frameOf e) ≤ 1 := by
  obtain ⟨L, hb, ha⟩ := h
  have ht := target_page he
  have hm : frameOf e ∈ targets (refs k vm.dirs) (target vm.mem) := mem_targets.mpr ⟨_, hr, ht⟩
  rw [hb.counts.refcount_eq (Multiset.mem_add.mpr (.inl hm)), Multiset.count_add,
    Multiset.count_eq_zero_of_notMem fun hf => ha _ hf hm,
    count_one (refs_nodup hb.layout.nodup) hr ht (hb.layout.exclusive _ _ _ _ hr he hw)]

lemma Backed.writesInPlace_cow (b : Byte) (user : Bool) (h : Backed k L u.vm) (ht : u.vm.pmm.Tidy)
    (hl : u.cr3 ∈ spaces k u.vm.dirs) (hv : privateBase ≤ va) (he : u.pte va = some e) (hc : isCow e = true)
    (hw : walk u.vm.mem u.cr3 va true user = .error (accessCode true user ||| 0x1)) :
    WritesInPlace u va b user ↔
      viewPermits (u.view va) true user = true ∧ pmmRefcount u.vm.pmm (frameOf e) ≤ 1 := by
  have hal := h.layout.space_aligned hl
  have herr : (accessCode true user ||| 0x1) &&& 0x2 ≠ 0 := fun hz => by
    cases (accessCode_write true user).mp hz
  have hcow := vmmCowHandle_cow hal he hc herr
  have hf : isrPageFault u va (accessCode true user ||| 0x1) = _ :=
    isrPageFault_protection (accessCode_present true user)
  rw [hcow] at hf
  by_cases hone : pmmRefcount u.vm.pmm (frameOf e) ≤ 1
  · have hs := h.booked.reclaim (page_ref hl hv) he hc hone
    obtain ⟨e', he', -, hc'⟩ := hs.writable
    rw [if_pos hone] at hf
    have hview := (hs.same _ hl _ (dirIndex_private hv) (dirIndex_lt va)).2 _ (tabIndex_lt va)
    have ha : access u va true user = _ := (accessWith_again hw hf).trans (accessWith_plain 1 true user hal he' hc')
    rw [writesInPlace_of_access ha rfl, isSome_ite, and_iff_left hone]
    rw [Mmu.view, Mmu.view, hview]
  · refine iff_of_false ?_ fun hh => hone hh.2
    rw [if_neg hone] at hf
    by_cases hz : (pmmAlloc u.vm.pmm).2 = 0
    · rw [if_pos hz] at hf
      exact WritesInPlace.not_refused hw hf
    · rw [if_neg hz] at hf
      obtain ⟨i, hi, hset⟩ := ht.alloc_takes hz
      refine WritesInPlace.not_again hw hf (ht.alloc.free _) hi ?_
      dsimp only
      rw [pmmFree_shared (ht.alloc_shared (not_le.mp hone))]
      exact hset

lemma Mmu.Fit.writesInPlace (b : Byte) (user : Bool) (h : u.Fit k) (hlossy : Lossy k u.vm)
    (hl : u.cr3 ∈ spaces k u.vm.dirs) (hv : privateBase ≤ va) : WritesInPlace u va b user ↔ u.Sole va user := by
  obtain ⟨L, hb⟩ := h.backed
  have hal : Aligned u.cr3 := hb.layout.space_aligned hl
  cases hpte : u.pte va with
  | none =>
    have hw : walk u.vm.mem u.cr3 va true user = .error (accessCode true user) := walk_absent hal hpte
    refine iff_of_false ?_ fun hs => ?_
    · cases hp : promised u.demand (frameOf u.cr3) va with
      | none => exact WritesInPlace.not_refused hw (isrPageFault_unpromised hal hpte hp)
      | some r =>
        rcases h.serve hl hv hpte (accessCode_absent true user) hp with ⟨-, hf⟩ | ⟨-, u', hf, -, -, hvm, hok⟩
        · exact WritesInPlace.not_refused hw (Prod.ext rfl hf)
        · obtain ⟨i, hi, hset⟩ := vmmMapAlloc_takes h.tidy hok
          refine WritesInPlace.not_again hw hf ?_ hi ?_
          · rw [hvm]
            exact vmmMapAlloc_tidy h.tidy
          · rw [hvm]
            exact hset
    · have hperm := hs.1
      rw [Mmu.view_none hpte] at hperm
      cases hperm
  | some e =>
    have hsole : u.Sole va user ↔
        viewPermits (u.view va) true user = true ∧ pmmRefcount u.vm.pmm (frameOf e) ≤ 1 := by
      rw [Mmu.Sole, target_page hpte]
      simp only [Option.some.injEq, exists_eq_left']
    rw [hsole]
    have hw := walk_present true user hal hpte
    split at hw
    · rename_i hperm
      have hwe : isWritable e = true := by
        simp only [permits, Bool.not_true, Bool.false_or, Bool.and_eq_true] at hperm
        exact hperm.2.2
      rw [writesInPlace_of_access (accessWith_ok hw) rfl]
      refine iff_of_true rfl ⟨?_, hlossy.sole (page_ref hl hv) hpte hwe⟩
      rw [Mmu.view_some hpte, viewPermits]
      exact permits_of_view hperm
    · rename_i hperm
      cases hc : isCow e with
      | true => exact hb.writesInPlace_cow b user h.tidy hl hv hpte hc hw
      | false =>
        rw [writesInPlace_plain b user hal hpte hc, viewPermits_plain true user hpte hc]
        exact iff_of_false hperm fun hh => hperm hh.1

/-! ### A clone that fails -/

lemma Counts.sameFrames (h : Counts p R) (h' : Counts p' R) (ht : p.Tidy) (ht' : p'.Tidy)
    (htot : p'.totalFrames = p.totalFrames) : SameFrames p p' := by
  have hout : ∀ i, ¬ i < p.totalFrames → p.bitmap i = false ∧ p'.bitmap i = false := fun i hi =>
    ⟨Bool.eq_false_of_not_eq_true fun hb => hi (ht.below i hb),
      Bool.eq_false_of_not_eq_true fun hb => hi (htot ▸ ht'.below i hb)⟩
  have hbits : p'.bitmap = p.bitmap := by
    funext i
    by_cases hi : i < p.totalFrames
    · exact Bool.eq_iff_iff.mpr ((h'.bit i (htot ▸ hi)).trans (h.bit i hi).symm)
    · rw [(hout i hi).1, (hout i hi).2]
  refine ⟨hbits, funext fun i => ?_, ?_⟩
  · by_cases hi : i < p.totalFrames
    · rw [h'.count i (htot ▸ hi), h.count i hi]
    · rw [ht.refcount_zero (hout i hi).1, ht'.refcount_zero (hout i hi).2]
  · rw [ht.used, ht'.used, Pmm.setBits, Pmm.setBits, hbits]

lemma Lossy.cloneCow_failed (h : Lossy k vm) (ht : vm.pmm.Tidy) (hsrc : src ∈ spaces k vm.dirs)
    (hlen : vm.dirs.length ≤ 15) (hz : (vmmCloneCow k vm src).2 = 0) :
    (∃ L, Backed k L vm ∧ Undone k L vm src (vmmCloneCow k vm src).1) ∧ Lossy k (vmmCloneCow k vm src).1 ∧
      SameFrames vm.pmm (vmmCloneCow k vm src).1.pmm ∧ (vmmCloneCow k vm src).1.pmm.Tidy := by
  have ht' : (vmmCloneCow k vm src).1.pmm.Tidy := cloneWith_tidy sharePage_tidy src ht
  obtain ⟨L, hb, ha⟩ := h
  rcases hb.booked.cloneCow hsrc fun _ _ f _ _ => lt_of_le_of_lt (hb.layout.count_le f) (by omega) with
    ⟨vm', dst, hc, hne, -⟩ | ⟨vm', hc, hun, -⟩
  · rw [hc] at hz
    exact (hne hz).elim
  · rw [hc] at ht' ⊢
    obtain ⟨L', hL⟩ := hun.books
    have hcounts := hL.booked.counts
    rw [hL.whole (Lossy.uncrowded hb ha hlen src), hun.dirs, targets_congr hun.old] at hcounts
    exact ⟨⟨L, hb, hun⟩, Lossy.carried hL hb hun.low ha, hb.counts.sameFrames hcounts ht ht' hun.total, ht'⟩

structure KernelWindow (k : BootDir) (m : PhysMem) : Prop where
  first : ∀ ti < 1024, frameOf (m (frameOf (m k.dir 0)) ti) < managedBase
  second : isUser (m k.dir 1) = false

lemma LowKept.kernelWindow (h : LowKept k vm vm') (hb : Backed k L vm) (hk : KernelWindow k vm.mem) :
    KernelWindow k vm'.mem := by
  obtain ⟨hlow, hne⟩ := hb.low 0 (by omega)
  refine ⟨fun ti hti => ?_, ?_⟩
  · rw [h k.dir 0 k.low (.inr (by omega)), h _ ti hlow (.inl hne)]
    exact hk.first ti hti
  · rw [h k.dir 1 k.low (.inr (by omega))]
    exact hk.second

lemma boot_kernelWindow {first second memBytes : Word} {m : PhysMem} (ht : BootTables k first second)
    (hne : first ≠ second) : KernelWindow k (bootWith k first second memBytes m).mmu.vm.mem := by
  refine ⟨fun ti hti => ?_, ?_⟩
  · have hlow : BitVec.ofNat 32 (ti * 0x1000) < managedBase := by
      rw [BitVec.lt_def, BitVec.toNat_ofNat, Nat.mod_eq_of_lt (by omega)]
      simp only [managedBase, BitVec.ofNat_eq_ofNat, BitVec.toNat_ofNat]
      omega
    rw [boot_dir, if_pos rfl, frameOf_or_flags ht.aligned.1 (by decide), ht.boot_first hne]
    split <;> rwa [frameOf_or_flags (aligned_ofNat ti) (by decide)]
  · rw [boot_dir, if_neg one_ne_zero, if_pos rfl, isUser_bit, or_flags_bit ht.aligned.2 (by omega)]
    decide

def InPool (va : Word) : Prop := managedBase ≤ va ∧ va < privateBase

lemma dirIndex_pool (hv : ¬ privateBase ≤ va) (hp : ¬ InPool va) : dirIndex va = 0 := by
  have hlt : va < managedBase := BitVec.not_le.mp fun hle => hp ⟨hle, BitVec.not_le.mp hv⟩
  rw [BitVec.lt_def] at hlt
  simp only [managedBase, BitVec.ofNat_eq_ofNat, BitVec.toNat_ofNat] at hlt
  rw [dirIndex_eq]
  omega

section undone

variable (hun : Undone k L u.vm src u'.vm) (hcr3 : u'.cr3 = u.cr3) (hl : u.cr3 ∈ spaces k u.vm.dirs)
include hun hcr3 hl

lemma Undone.view (hv : privateBase ≤ va) : u'.view va = u.view va := by
  rw [Mmu.view, Mmu.view, hcr3]
  exact ((hun.same _ hl _ (dirIndex_private hv) (dirIndex_lt va)).2 _ (tabIndex_lt va)).symm

lemma Undone.found (hfr : SameFrames u.vm.pmm u'.vm.pmm) (hdem : u'.demand = u.demand) (hv : privateBase ≤ va) :
    u'.found va = u.found va := by
  have hfree : pmmFreeFrames u'.vm.pmm = pmmFreeFrames u.vm.pmm := by
    rw [pmmFreeFrames, pmmFreeFrames, hun.total, hfr.used]
  have htab := (hun.same _ hl _ (dirIndex_private hv) (dirIndex_lt va)).1
  rw [Mmu.found, Mmu.found, hun.view hcr3 hl hv, hfree, framesFor, framesFor, hcr3, hun.entries _ hl, Mmu.promiseView,
    Mmu.promiseView, hdem, hcr3, htab]

lemma Undone.sole (hfr : SameFrames u.vm.pmm u'.vm.pmm) (hv : privateBase ≤ va) : u'.Sole va user ↔ u.Sole va user := by
  have hcount : ∀ f, pmmRefcount u'.vm.pmm f = pmmRefcount u.vm.pmm f := fun f => by
    rw [pmmRefcount, pmmRefcount, hun.total, hfr.refcount]
  rw [Mmu.Sole, Mmu.Sole, hun.view hcr3 hl hv, hcr3, hun.old _ (page_ref hl hv)]
  simp only [hcount]

lemma Undone.pte_low (hb : Backed k L u.vm) (hv : ¬ privateBase ≤ va) :
    u'.vm.mem u.cr3 (dirIndex va) = u.vm.mem u.cr3 (dirIndex va) ∧ u'.pte va = u.pte va := by
  obtain ⟨L', hL⟩ := hun.books
  have hl' : u.cr3 ∈ spaces k u'.vm.dirs := by
    rw [hun.dirs]
    exact hl
  rw [Mmu.pte, Mmu.pte, hcr3]
  exact ⟨hun.entries _ hl _, hb.pte_low hL.booked.layout hun.low hl hl' (dirIndex_low hv)⟩

lemma Undone.viewByte_low (hb : Backed k L u.vm) (hmap : KernelMap k u.vm.mem) (hwin : KernelWindow k u.vm.mem)
    (hv : ¬ privateBase ≤ va) (hp : user = true ∨ ¬ InPool va) :
    viewByte (u'.view va) va user = viewByte (u.view va) va user := by
  obtain ⟨e, he, heq, -⟩ := hmap.pte hb.layout hl hv
  obtain ⟨hent, hpte⟩ := hun.pte_low hcr3 hl hb hv
  rw [Mmu.view_some he, Mmu.view_some (hpte.trans he), hcr3, hent]
  by_cases hpool : dirIndex va = 0
  · -- the page lies below the pool, where only the private half of the directory may change, and it has not
    have hlow : frameOf e < managedBase := by
      rw [heq, hpool]
      exact hwin.first _ (tabIndex_lt va)
    have hsame : u'.vm.mem (frameOf e) = u.vm.mem (frameOf e) := by
      funext j
      by_cases hk : frameOf e = k.dir
      · rw [hk]
        exact hun.entries _ List.mem_cons_self j
      · exact hun.low _ j hlow (.inl hk)
    rw [hsame]
  · have hone : dirIndex va = 1 := by
      have := dirIndex_low hv
      omega
    obtain rfl : user = true := hp.resolve_right fun hn => hpool (dirIndex_pool hv hn)
    have hdeny : permits (flagsOf (u.vm.mem u.cr3 (dirIndex va))) (settledFlags e) false true = false := by
      rw [permits, isUser_flagsOf, hb.layout.kernel_entry hl (dirIndex_low hv), hone, hwin.second]
      rfl
    rw [viewByte, viewByte, viewPermits, viewPermits, hdeny]
    rfl

lemma Undone.loads (hb : Backed k L u.vm) (hfit : u.Fit k) (hfit' : u'.Fit k) (hfr : SameFrames u.vm.pmm u'.vm.pmm)
    (hdem : u'.demand = u.demand) (hmap : KernelMap k u.vm.mem) (hwin : KernelWindow k u.vm.mem)
    (hp : user = true ∨ ¬ InPool va) : (loadByte u' va user).2 = (loadByte u va user).2 := by
  have hmap' : KernelMap k u'.vm.mem := LowKept.kernelMap hun.low hb hmap
  have hl' : u'.cr3 ∈ spaces k u'.vm.dirs := by
    rw [hcr3, hun.dirs]
    exact hl
  by_cases hv : privateBase ≤ va
  · rw [hfit'.load_found hmap' hl', hfit.load_found hmap hl, hun.found hcr3 hl hfr hdem hv]
  · obtain ⟨e, he, -⟩ := hmap.pte hb.layout hl hv
    obtain ⟨-, hpte⟩ := hun.pte_low hcr3 hl hb hv
    rw [hfit'.load_found hmap' hl', hfit.load_found hmap hl, Mmu.found, Mmu.found, Mmu.view_some he,
      Mmu.view_some (hpte.trans he), Option.some_or, Option.some_or, ← Mmu.view_some he,
        ← Mmu.view_some (hpte.trans he)]
    exact hun.viewByte_low hcr3 hl hb hmap hwin hv hp

lemma Undone.stores (b : Byte) (hb : Backed k L u.vm) (hfit : u.Fit k) (hfit' : u'.Fit k) (hlossy : Lossy k u.vm)
    (hlossy' : Lossy k u'.vm) (hfr : SameFrames u.vm.pmm u'.vm.pmm) (hmap : KernelMap k u.vm.mem) :
    WritesInPlace u' va b user ↔ WritesInPlace u va b user := by
  have hl' : u'.cr3 ∈ spaces k u'.vm.dirs := by
    rw [hcr3, hun.dirs]
    exact hl
  by_cases hv : privateBase ≤ va
  · rw [hfit'.writesInPlace b user hlossy' hl' hv, hfit.writesInPlace b user hlossy hl hv, hun.sole hcr3 hl hfr hv]
  · obtain ⟨e, he, -, hc⟩ := hmap.pte hb.layout hl hv
    obtain ⟨hent, hpte⟩ := hun.pte_low hcr3 hl hb hv
    have hal : Aligned u.cr3 := hb.layout.space_aligned hl
    have hal' : Aligned u'.cr3 := by rwa [hcr3]
    rw [writesInPlace_plain b user hal he hc, writesInPlace_plain b user hal' (hpte.trans he) hc,
      viewPermits_plain true user he hc, viewPermits_plain true user (hpte.trans he) hc, hcr3, hent]

end undone

/-! ### A fork that fails -/

def ForkFails (k : BootDir) (s : Sys) : Prop :=
  (procAlloc s none).2 = none ∨ (vmmCloneCow k s.mmu.vm (procCurrent s).dir).2 = 0

structure Unseen (s s' : Sys) : Prop where
  live : ∀ i, (s'.table i).Live ↔ (s.table i).Live
  slots : ∀ i, (s.table i).Live → s'.table i = s.table i
  current : s'.currentIdx = s.currentIdx
  cr3 : s'.mmu.cr3 = s.mmu.cr3
  frames : SameFrames s.mmu.vm.pmm s'.mmu.vm.pmm
  loads : ∀ d, LiveDir s d → ∀ va user, user = true ∨ ¬ InPool va →
    (loadByte (s'.mmu.on d) va user).2 = (loadByte (s.mmu.on d) va user).2
  stores : ∀ d, LiveDir s d → ∀ va b user,
    WritesInPlace (s'.mmu.on d) va b user ↔ WritesInPlace (s.mmu.on d) va b user

lemma Unseen.refl (s : Sys) : Unseen s s :=
  ⟨fun _ => .rfl, fun _ _ => rfl, rfl, rfl, ⟨rfl, rfl, rfl⟩, fun _ _ _ _ _ => rfl, fun _ _ _ _ _ => .rfl⟩

lemma ForkFails.unseen (hf : ForkFails k s) (hold : Holding (Lossy k) k s) (hfit : s.mmu.Fit k)
    (hmap : KernelMap k s.mmu.vm.mem) (hwin : KernelWindow k s.mmu.vm.mem) :
    (procFork k s).2 = -1 ∧ Unseen s (procFork k s).1 := by
  rw [procFork]
  rcases procForkWith_cases (vmmCloneCow k) s with ⟨hnone, -⟩ | ⟨i, -, hu, hslot, hfork⟩
  · rw [hnone]
    exact ⟨rfl, .refl s⟩
  · have hz : (vmmCloneCow k s.mmu.vm (procCurrent s).dir).2 = 0 :=
      hf.resolve_left (by rw [hslot]; exact Option.some_ne_none _)
    obtain ⟨⟨L, hb, hun⟩, hlossy', hfr, htidy'⟩ :=
      hold.books.cloneCow_failed hfit.tidy hold.current_space hold.length_le hz
    rw [hfork _ _ Prod.mk.eta.symm, if_pos hz]
    generalize (vmmCloneCow k s.mmu.vm (procCurrent s).dir).1 = vm' at hun hlossy' hfr htidy' ⊢
    have hon : ∀ d, Undone k L (s.mmu.on d).vm (procCurrent s).dir (({ s.mmu with vm := vm' } : Mmu).on d).vm :=
      fun _ => hun
    have hfits : ∀ d, (s.mmu.on d).Fit k := fun _ => ⟨⟨L, hb⟩, hfit.tidy⟩
    have hfits' : ∀ d, (({ s.mmu with vm := vm' } : Mmu).on d).Fit k := fun _ => ⟨hlossy'.backed, htidy'⟩
    -- the slot was free and is free again
    have hself : Function.update s.table i (stillborn s) i = stillborn s := Function.update_self ..
    have hother : ∀ j, j ≠ i → Function.update s.table i (stillborn s) j = s.table j := fun j hj =>
      Function.update_of_ne hj ..
    refine ⟨rfl, fun j => ?_, fun j hj => hother j ?_, rfl, rfl, hfr, fun d hd va user hp => ?_,
      fun d hd va b user => ?_⟩
    · change (Function.update s.table i (stillborn s) j).Live ↔ _
      by_cases hj : j = i
      · rw [hj, hself]
        exact iff_of_false (fun hl => hl rfl) fun hl => hl hu
      · rw [hother j hj]
    · rintro rfl
      exact hj hu
    · exact (hon d).loads rfl (hold.live_space hd) hb (hfits d) (hfits' d) hfr rfl hmap hwin hp
    · exact (hon d).stores rfl (hold.live_space hd) b hb (hfits d) (hfits' d) hold.books hlossy' hfr hmap

/-- A fork that fails, at whatever page of the clone, leaves nothing that anybody could see: the table and the
counts are as before, every process reads the same bytes, and what could be written without a new frame still can. -/
theorem fork_unseen {first second memBytes : Word} {m : PhysMem} {n : ℕ} (ht : BootTables k first second)
    (hne : first ≠ second) (h : Run k Op.Attempted (bootWith k first second memBytes m) n s) :
    (ForkFails k s → (procFork k s).2 = -1 ∧ Unseen s (procFork k s).1) ∧
      ((procFork k s).2 = -1 → ForkFails k s ∨ s.nextPid = -1) := by
  have hold := h.holding (boot_holding ht)
  have hrun : MmuRun k (MmuOp.Allowed k) (bootWith k first second memBytes m).mmu s.mmu :=
    (h.mmuRun (fun _ _ ho => ho) (boot_holding ht)).mono fun _ _ ho => ho.1
  have hlow := (hrun.step_all ⟨0, boot_backed ht⟩).2
  refine ⟨fun hf => hf.unseen hold (hrun.fit (boot_fit ht)) (hlow.kernelMap (boot_backed ht) (boot_kernelMap ht hne))
    (hlow.kernelWindow (boot_backed ht) (boot_kernelWindow ht hne)), fun hret => ?_⟩
  rw [procFork] at hret
  rcases procForkWith_cases (vmmCloneCow k) s with ⟨-, hnone⟩ | ⟨i, -, -, -, hfork⟩
  · exact .inl (.inl hnone)
  · by_cases hz : (vmmCloneCow k s.mmu.vm (procCurrent s).dir).2 = 0
    · exact .inl (.inr hz)
    · rw [hfork _ _ Prod.mk.eta.symm, if_neg hz] at hret
      exact .inr hret

/-! Seven frames. The process has five of them, for a directory and two pages in two tables; the clone shares the
first page and finds no second table. -/

def sampleSmall : Sys := bootWith sampleDir 0x21000 0x22000 0x407000 fun _ _ => 0

def sampleTight : Sys :=
  Op.apply sampleDir (.map 0x400000 0xC00000 6) (Op.apply sampleDir (.map 0x400000 0x800000 6)
    (Op.apply sampleDir (.switch 1) (Op.apply sampleDir (.assign 1) (Op.apply sampleDir (.alloc none) sampleSmall))))

lemma sampleTight_run : ∃ n, Run sampleDir Op.Attempted sampleSmall n sampleTight := by
  have h₀ : Run sampleDir Op.Attempted sampleSmall 0 sampleSmall := .boot
  have h₁ := h₀.step (.alloc none) trivial
  have h₂ := h₁.step (.assign 1) ⟨by decide +kernel, by decide +kernel⟩
  have h₃ := h₂.step (.switch 1) trivial
  have h₄ := h₃.step (.map 0x400000 0x800000 6)
    ⟨⟨by decide, 1, by decide +kernel, by decide +kernel⟩, by decide, by decide +kernel⟩
  exact ⟨_, h₄.step (.map 0x400000 0xC00000 6)
    ⟨⟨by decide, 1, by decide +kernel, by decide +kernel⟩, by decide, by decide +kernel⟩⟩

theorem fork_unseen_tight : pmmFreeFrames sampleTight.mmu.vm.pmm = 2 ∧ (procFork sampleDir sampleTight).2 = -1 ∧
    Unseen sampleTight (procFork sampleDir sampleTight).1 := by
  obtain ⟨n, h⟩ := sampleTight_run
  exact ⟨by decide +kernel, (fork_unseen sample_tables (by decide) h).1 (.inr (by decide +kernel))⟩

end PyroOS
