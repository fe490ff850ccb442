import PyroOS.Memory.Mapping

/-! Operations on a single page: map, unmap, resolve a write fault, store. -/

namespace PyroOS

open Sharing

variable {k : BootDir} {dirs : List Word} {m m' : PhysMem} {p : Pmm} {vm vm' : Vm}

def privateBase : Word := 0x00800000

lemma dirIndex_eq (v : Word) : dirIndex v = v.toNat / 2 ^ 22 := by
  have hv := v.isLt
  rw [dirIndex, BitVec.toNat_and, BitVec.toNat_ushiftRight, Nat.shiftRight_eq_div_pow]
  simp only [BitVec.ofNat_eq_ofNat, BitVec.toNat_ofNat]
  rw [show 0x3FF % 2 ^ 32 = 2 ^ 10 - 1 by norm_num, Nat.and_two_pow_sub_one_eq_mod]
  omega

lemma dirIndex_lt (v : Word) : dirIndex v < 1024 := by
  have hv := v.isLt
  rw [dirIndex_eq]
  omega

lemma tabIndex_eq (v : Word) : tabIndex v = v.toNat / 2 ^ 12 % 2 ^ 10 := by
  rw [tabIndex, BitVec.toNat_and, BitVec.toNat_ushiftRight, Nat.shiftRight_eq_div_pow,
    show (0x3FF : Word).toNat = 2 ^ 10 - 1 from rfl, Nat.and_two_pow_sub_one_eq_mod]

lemma tabIndex_lt (v : Word) : tabIndex v < 1024 := by
  rw [tabIndex, BitVec.toNat_and]
  exact lt_of_le_of_lt Nat.and_le_right (by decide)

lemma dirIndex_private {v : Word} (h : privateBase ≤ v) : 2 ≤ dirIndex v := by
  rw [BitVec.le_def] at h
  simp only [privateBase, BitVec.ofNat_eq_ofNat, BitVec.toNat_ofNat] at h
  rw [dirIndex_eq]
  omega

lemma frameOf_eq_of_index {v v' : Word} (h₁ : dirIndex v = dirIndex v') (h₂ : tabIndex v = tabIndex v') :
    frameOf v = frameOf v' := by
  rw [dirIndex_eq, dirIndex_eq] at h₁
  rw [tabIndex_eq, tabIndex_eq] at h₂
  apply BitVec.eq_of_toNat_eq
  rw [frameOf_toNat, frameOf_toNat]
  omega

lemma page_ref {d v : Word} (hd : d ∈ spaces k dirs) (hv : privateBase ≤ v) :
    Ref.page d (dirIndex v) (tabIndex v) ∈ refs k dirs :=
  page_mem_refs.mpr ⟨hd, dirIndex_private hv, dirIndex_lt v, tabIndex_lt v⟩

lemma presentOnly_of {e : Word} (h : isPresent e = true) : presentOnly e = some e := by
  simp [presentOnly, h]

lemma Layout.setFresh (h : Layout k dirs m) {d x fl : Word} {di ti : ℕ}
    (hr : Ref.page d di ti ∈ refs k dirs) (hp : isPresent (m d di) = true)
    (hf : Fresh k dirs m x) (hz : frameOf fl = 0) :
    Layout k dirs (m.setWord (frameOf (m d di)) ti (x ||| fl)) := by
  apply h.setPte hr hp
  intro e' he'
  rw [presentOnly] at he'
  split at he'
  · obtain rfl := Option.some.inj he'
    rw [frameOf_or_flags hf.2.1 hz]
    exact ⟨hf.1, fun r hr' _ ht => (hf.2.2 r hr' ht).elim⟩
  · cases he'

lemma isPresent_or {x fl : Word} (hx : Aligned x) : isPresent (x ||| fl) = isPresent fl := by
  rw [isPresent_bit, or_flags_bit hx (by omega), ← isPresent_bit]

/-! ### Mapping a fresh page -/

def tableFlags (flags : Word) : Word := pfPresent ||| pfRw ||| (flags &&& pfUser)
def pageFlags (flags : Word) : Word := flagsOf flags ||| pfPresent

lemma tableFlags_spec (flags : Word) : frameOf (tableFlags flags) = 0 ∧
    isPresent (tableFlags flags) = true ∧ isWritable (tableFlags flags) = true := by
  have hu : frameOf (flags &&& pfUser) = 0 := by
    rw [BitVec.and_comm]
    exact frameOf_and_left _ _ (by decide)
  refine ⟨?_, ?_, ?_⟩
  · rw [tableFlags, frameOf_or, hu]
    decide
  · rw [isPresent_bit, tableFlags, BitVec.getLsbD_or]
    rfl
  · rw [isWritable_bit, tableFlags, BitVec.getLsbD_or]
    rfl

lemma pageFlags_spec (flags : Word) :
    frameOf (pageFlags flags) = 0 ∧ isPresent (pageFlags flags) = true := by
  refine ⟨?_, ?_⟩
  · rw [pageFlags, frameOf_or, frameOf_flagsOf]
    decide
  · rw [isPresent_bit, pageFlags, BitVec.getLsbD_or]
    cases (flagsOf flags).getLsbD 0 <;> rfl

structure Mapped (k : BootDir) (vm vm' : Vm) (d virt flags : Word) (page : ℕ → Word) : Prop where
  sound : Sound k vm'
  dirs : vm'.dirs = vm.dirs
  total : vm'.pmm.totalFrames = vm.pmm.totalFrames
  tables : ∀ d' di', Ref.tab d' di' ∈ refs k vm.dirs → tableView vm'.mem d' di' =
    if d' = d ∧ di' = dirIndex virt
    then some ((tableView vm.mem d (dirIndex virt)).getD (tableFlags flags))
    else tableView vm.mem d' di'
  pages : ∀ d' di' ti', Ref.page d' di' ti' ∈ refs k vm.dirs → pageView vm'.mem d' di' ti' =
    if d' = d ∧ di' = dirIndex virt ∧ ti' = tabIndex virt
    then some ((tableView vm.mem d (dirIndex virt)).getD (tableFlags flags),
      settledFlags (pageFlags flags), page)
    else pageView vm.mem d' di' ti'

lemma fillEntry (fl : Word) (hl : Layout k dirs m) {d x : Word} {di ti : ℕ} {L : Multiset Word}
    (hr : Ref.page d di ti ∈ refs k dirs) (hp : isPresent (m d di) = true) (hf : Fresh k dirs m x)
    (hz : frameOf fl = 0) (hpf : isPresent fl = true)
    (hc : Counts p (x ::ₘ (targets (refs k dirs) (target m) + L))) :
    let m' := m.setWord (frameOf (m d di)) ti (x ||| fl)
    Layout k dirs m' ∧
      Counts p (targets (refs k dirs) (target m') + (L + single (target m (.page d di ti)))) ∧
      pteAt m' d di ti = some (x ||| fl) ∧ m' x = m x := by
  intro m'
  have he : presentOnly (x ||| fl) = some (x ||| fl) := presentOnly_of (by rw [isPresent_or hf.2.1, hpf])
  have ht := setPte_targets (e := x ||| fl) hl hr hp
  rw [he, Option.map_some, single_some, frameOf_or_flags hf.2.1 hz] at ht
  refine ⟨hl.setFresh hr hp hf hz, ?_, (setPte_at hl hr hp).trans he,
    setWord_page _ _ _ fun hh => hf.2.2 _ (tab_of_page hr) (by rw [target_tab hp, ← hh])⟩
  have hsum : targets (refs k dirs) (target m') + (L + single (target m (.page d di ti))) =
      x ::ₘ (targets (refs k dirs) (target m) + L) := by
    calc _ = (targets (refs k dirs) (target m') + single (target m (.page d di ti))) + L := by abel
      _ = (targets (refs k dirs) (target m) + {x}) + L := by rw [ht]
      _ = {x} + (targets (refs k dirs) (target m) + L) := by abel
      _ = _ := Multiset.singleton_add _ _
  rw [hsum]
  exact hc

def LowSame (k : BootDir) (m m' : PhysMem) : Prop :=
  ∀ b i, b < managedBase → b ≠ k.dir ∨ i < 2 → m' b i = m b i

def Spared (k : BootDir) (dirs : List Word) (L : Multiset Word) (m m' : PhysMem) : Prop :=
  ∀ f ∈ L, f ∈ targets (refs k dirs) (target m') → f ∈ targets (refs k dirs) (target m)

lemma Spared.of_one {L : Multiset Word} {r : Ref}
    (hrest : ∀ r' ∈ refs k dirs, r' ≠ r → target m' r' = target m r')
    (hone : ∀ f ∈ L, target m' r = some f → target m r = some f) : Spared k dirs L m m' := by
  intro f hf hm
  obtain ⟨r', hr', ht⟩ := mem_targets.mp hm
  refine mem_targets.mpr ⟨r', hr', ?_⟩
  by_cases he : r' = r
  · rw [he] at ht ⊢
    exact hone f hf ht
  · rw [← hrest r' hr' he]
    exact ht

lemma Spared.trans {L : Multiset Word} {m'' : PhysMem} (h : Spared k dirs L m m') (h' : Spared k dirs L m' m'') :
    Spared k dirs L m m'' := fun f hf hm => h f hf (h' f hf hm)

structure TableReady (k : BootDir) (L : Multiset Word) (vm vm' : Vm) (d virt flags x : Word) : Prop where
  layout : Layout k vm.dirs vm'.mem
  dirs : vm'.dirs = vm.dirs
  total : vm'.pmm.totalFrames = vm.pmm.totalFrames
  present : isPresent (vm'.mem d (dirIndex virt)) = true
  counts : Counts vm'.pmm (x ::ₘ (targets (refs k vm.dirs) (target vm'.mem) + L))
  fresh : Fresh k vm.dirs vm'.mem x
  page : vm'.mem x = vm.mem x
  spare : Spared k vm.dirs L vm.mem vm'.mem
  low : LowSame k vm.mem vm'.mem
  entries : ∀ d' ∈ spaces k vm.dirs, ∀ di', ¬ (d' = d ∧ di' = dirIndex virt ∧ isPresent (vm.mem d' di') = false) →
    vm'.mem d' di' = vm.mem d' di'
  ptes : ∀ d' di' ti', Ref.tab d' di' ∈ refs k vm.dirs →
    pteAt vm'.mem d' di' ti' = pteAt vm.mem d' di' ti'
  tables : ∀ d' di', Ref.tab d' di' ∈ refs k vm.dirs → tableView vm'.mem d' di' =
    if d' = d ∧ di' = dirIndex virt
    then some ((tableView vm.mem d (dirIndex virt)).getD (tableFlags flags))
    else tableView vm.mem d' di'
  pages : ∀ d' di' ti', Ref.page d' di' ti' ∈ refs k vm.dirs →
    pageView vm'.mem d' di' ti' = pageView vm.mem d' di' ti'

lemma NewTable.low {d a fl : Word} {di : ℕ} (h : NewTable k dirs m d di a fl) :
    LowSame k m (withTable m d di a fl) := by
  intro b i hb hi
  by_cases hbd : b = k.dir
  · have hdi := (tab_mem_refs.mp h.ref).2.1
    have hi' := hi.resolve_left (not_not.mpr hbd)
    rw [hbd, h.entry List.mem_cons_self, if_neg (by omega)]
  · have hbd' : b ≠ d := by
      rintro rfl
      rcases List.mem_cons.mp h.space with hk | hd
      · exact hbd hk
      · exact (h.layout.high (.dir b) (dir_mem_refs.mpr hd) b rfl).1 hb
    exact congrFun (withTable_page (by rintro rfl; exact h.fresh.1 hb) hbd') i

lemma tableFor_cases (flags : Word) (hl : Layout k vm.dirs vm.mem) {d virt x : Word} {L : Multiset Word}
    (hr : Ref.tab d (dirIndex virt) ∈ refs k vm.dirs) (hf : Fresh k vm.dirs vm.mem x)
    (hc : Counts vm.pmm (x ::ₘ (targets (refs k vm.dirs) (target vm.mem) + L))) :
    (tableFor vm d virt true flags = (vm, 0) ∧ isPresent (vm.mem d (dirIndex virt)) = false ∧
      (pmmAlloc vm.pmm).2 = 0) ∨
    ∃ vm', tableFor vm d virt true flags = (vm', frameOf (vm'.mem d (dirIndex virt))) ∧
      frameOf (vm'.mem d (dirIndex virt)) ≠ 0 ∧ TableReady k L vm vm' d virt flags x ∧
      (isPresent (vm.mem d (dirIndex virt)) = true ∨ (pmmAlloc vm.pmm).2 ≠ 0) := by
  have hready : ∀ vm', TableReady k L vm vm' d virt flags x → frameOf (vm'.mem d (dirIndex virt)) ≠ 0 := by
    intro vm' hready hz
    have hhigh := hready.layout.high _ hr _ (target_tab hready.present)
    rw [hz] at hhigh
    exact hhigh.1 (by decide)
  cases hp : isPresent (vm.mem d (dirIndex virt)) with
  | true =>
    have hself : TableReady k L vm vm d virt flags x := by
      refine ⟨hl, rfl, rfl, hp, hc, hf, rfl, fun _ _ hm => hm, fun _ _ _ _ => rfl, fun _ _ _ _ => rfl,
        fun _ _ _ _ => rfl, ?_, fun _ _ _ _ => rfl⟩
      intro d' di' _
      split
      · rename_i he
        rw [he.1, he.2, tableView, hp]
        rfl
      · rfl
    refine .inr ⟨vm, ?_, hready vm hself, hself, .inl rfl⟩
    simp only [tableFor, hp, Bool.not_true, Bool.false_eq_true, if_false]
  | false =>
    simp only [tableFor, hp, Bool.not_false, Bool.not_true, if_true, Bool.false_eq_true, if_false]
    rcases hc.alloc with ⟨ha, _⟩ | ⟨p', a, ha, hne, hn, htot, hc'⟩
    · rw [ha]
      exact .inl ⟨by simp, trivial, rfl⟩
    rw [ha]
    simp only [if_neg hne]
    obtain ⟨hz, hpf, hw⟩ := tableFlags_spec flags
    have hnt : NewTable k vm.dirs vm.mem d (dirIndex virt) a (tableFlags flags) :=
      ⟨hl, fresh_of_counts hc' hn fun _ hm => Multiset.mem_cons_of_mem (Multiset.mem_add.mpr (.inl hm)), hr, hp, hz,
        hpf⟩
    have hxa : x ≠ a := fun he => hn (he ▸ Multiset.mem_cons_self x _)
    have hxd : x ≠ d := fun he => hf.not_space (he ▸ hnt.space)
    have hmade : TableReady k L vm { vm with mem := withTable vm.mem d (dirIndex virt) a (tableFlags flags), pmm := p' }
        d virt flags x := by
      refine ⟨hnt.layout_withTable hw, rfl, htot, hnt.self.1, ?_, ⟨hf.1, hf.2.1, ?_⟩, withTable_page hxa hxd, ?_,
        hnt.low, fun d' hd' di' hne => (hnt.entry hd' di').trans (if_neg ?_), fun _ _ _ hr' => hnt.pte hr', ?_,
        fun _ _ _ hr' => hnt.pageView_eq hr'⟩
      · rw [hnt.targets_eq, Multiset.cons_add, Multiset.cons_swap]
        exact hc'
      · intro r hr' htx
        by_cases he : r = .tab d (dirIndex virt)
        · rw [he] at htx
          exact hxa (Option.some.inj (htx.symm.trans hnt.target_self))
        · exact hf.2.2 r hr' ((hnt.target_other hr' he).symm.trans htx)
      · refine Spared.of_one (fun r hr' he => hnt.target_other hr' he) fun f hfL hft => ?_
        rw [hnt.target_self] at hft
        exact (hn (Option.some.inj hft ▸ Multiset.mem_cons_of_mem (Multiset.mem_add.mpr (.inr hfL)))).elim
      · rintro ⟨rfl, rfl⟩
        exact hne ⟨rfl, rfl, hp⟩
      · intro d' di' hr'
        have hnone : tableView vm.mem d (dirIndex virt) = none := by simp [tableView, hp]
        rw [hnone]
        exact hnt.tableView_eq (tab_mem_refs.mp hr').1 di'
    exact .inr ⟨_, rfl, hready _ hmade, hmade, .inr hne⟩

structure Entered (k : BootDir) (L : Multiset Word) (vm vm' : Vm) (d virt flags x : Word) (page : ℕ → Word) :
    Prop where
  layout : Layout k vm.dirs vm'.mem
  counts : Counts vm'.pmm (targets (refs k vm.dirs) (target vm'.mem) +
    (L + single (target vm.mem (.page d (dirIndex virt) (tabIndex virt)))))
  dirs : vm'.dirs = vm.dirs
  total : vm'.pmm.totalFrames = vm.pmm.totalFrames
  fresh : Fresh k vm.dirs vm.mem x
  entry : pteAt vm'.mem d (dirIndex virt) (tabIndex virt) = some (x ||| pageFlags flags)
  content : vm'.mem x = page
  spare : Spared k vm.dirs L vm.mem vm'.mem
  low : LowSame k vm.mem vm'.mem
  entries : ∀ d' ∈ spaces k vm.dirs, ∀ di', ¬ (d' = d ∧ di' = dirIndex virt ∧ isPresent (vm.mem d' di') = false) →
    vm'.mem d' di' = vm.mem d' di'
  ptes : ∀ d' di' ti', Ref.page d' di' ti' ∈ refs k vm.dirs →
    ¬ (d' = d ∧ di' = dirIndex virt ∧ ti' = tabIndex virt) → pteAt vm'.mem d' di' ti' = pteAt vm.mem d' di' ti'
  tables : ∀ d' di', Ref.tab d' di' ∈ refs k vm.dirs → tableView vm'.mem d' di' =
    if d' = d ∧ di' = dirIndex virt
    then some ((tableView vm.mem d (dirIndex virt)).getD (tableFlags flags))
    else tableView vm.mem d' di'
  pages : ∀ d' di' ti', Ref.page d' di' ti' ∈ refs k vm.dirs → pageView vm'.mem d' di' ti' =
    if d' = d ∧ di' = dirIndex virt ∧ ti' = tabIndex virt
    then some ((tableView vm.mem d (dirIndex virt)).getD (tableFlags flags),
      settledFlags (pageFlags flags), page)
    else pageView vm.mem d' di' ti'

lemma TableReady.entered {vm₁ : Vm} {L : Multiset Word} {d virt flags x : Word}
    (h : TableReady k L vm vm₁ d virt flags x)
    (hf : Fresh k vm.dirs vm.mem x) (hxL : x ∉ L) (hr : Ref.page d (dirIndex virt) (tabIndex virt) ∈ refs k vm.dirs) :
    Entered k L vm { vm₁ with
      mem := vm₁.mem.setWord (frameOf (vm₁.mem d (dirIndex virt))) (tabIndex virt) (x ||| pageFlags flags) }
      d virt flags x (vm.mem x) := by
  obtain ⟨hz, hpf⟩ := pageFlags_spec flags
  obtain ⟨hl, hc, hpte, hx⟩ := fillEntry (pageFlags flags) h.layout hr h.present h.fresh hz hpf h.counts
  have hold := h.ptes d (dirIndex virt) (tabIndex virt) (tab_of_page hr)
  have htab := h.layout.high _ (tab_of_page hr) _ (target_tab h.present)
  have hself := h.tables _ _ (tab_of_page hr)
  rw [if_pos ⟨rfl, rfl⟩, tableView, h.present, if_pos rfl, Option.some.injEq] at hself
  have hself' : target (vm₁.mem.setWord (frameOf (vm₁.mem d (dirIndex virt))) (tabIndex virt) (x ||| pageFlags flags))
      (.page d (dirIndex virt) (tabIndex virt)) = some x := by
    rw [target_page hpte, frameOf_or_flags hf.2.1 hz]
  refine ⟨hl, ?_, h.dirs, h.total, hf, hpte, hx.trans h.page,
    h.spare.trans (.of_one (fun r hr' hne => setPte_target h.layout hr h.present hr' hne) fun f hfL hft => ?_),
      fun b i hb hi => ?_,
    fun d' hd' di' hne => (setPte_entry h.layout hr h.present hd' di').trans (h.entries d' hd' di' hne),
    fun d' di' ti' hr' hne => ?_, fun d' di' hr' => ?_, fun d' di' ti' hr' => ?_⟩
  · rw [target, hold] at hc
    exact hc
  · rw [hself'] at hft
    exact (hxL (Option.some.inj hft ▸ hfL)).elim
  · refine (setWord_other _ _ (.inl ?_)).trans (h.low b i hb hi)
    rintro rfl
    exact htab.1 hb
  · exact (setPte_other h.layout hr h.present (tab_of_page hr') hne).trans (h.ptes d' di' ti' (tab_of_page hr'))
  · exact (setPte_tableView h.layout hr h.present (tab_mem_refs.mp hr').1 di').trans (h.tables d' di' hr')
  · split
    · rename_i he
      obtain ⟨rfl, rfl, rfl⟩ := he
      rw [pageView_some hpte, setPte_entry h.layout hr h.present (page_mem_refs.mp hr).1, hself,
        frameOf_or_flags hf.2.1 hz, settledFlags_or hf.2.1, hx, h.page]
    · rename_i he
      exact (setPte_pageView_other h.layout hr h.present hr' he).trans (h.pages d' di' ti' hr')

lemma Entered.filled {L : Multiset Word} {d virt flags x : Word} {page : ℕ → Word} (hd : d ∈ spaces k vm.dirs)
    (hv : privateBase ≤ virt) (hf : Fresh k vm.dirs vm.mem x) (htot : p.totalFrames = vm.pmm.totalFrames)
    (h : Entered k L { vm with mem := vm.mem.setPage x page, pmm := p } vm' d virt flags x page) :
    Entered k L vm vm' d virt flags x page := by
  have hr := page_ref hd hv
  have hag := hf.setPage_agree page
  have hview : ∀ d' ∈ spaces k vm.dirs, SameSpace vm.mem d' (vm.mem.setPage x page) d' :=
    fun d' hd' => hf.sameSpace (fun b hb => Function.update_of_ne hb _ _) hd'
  have htab : ∀ d' di', Ref.tab d' di' ∈ refs k vm.dirs →
      tableView vm.mem d' di' = tableView (vm.mem.setPage x page) d' di' := by
    intro d' di' hr'
    obtain ⟨hd', h₁, h₂⟩ := tab_mem_refs.mp hr'
    exact (hview d' hd' di' h₁ h₂).1
  have hcounts := h.counts
  dsimp only at hcounts
  rw [hag.target_eq hr] at hcounts
  refine ⟨h.layout, hcounts, h.dirs, h.total.trans htot, hf, h.entry, h.content, fun f hfL hm => ?_,
    fun b i hb hi => ?_,
    fun d' hd' di' hne => ?_, fun d' di' ti' hr' hne => ?_, fun d' di' hr' => ?_, fun d' di' ti' hr' => ?_⟩
  · rw [← hag.targets_eq]
    exact h.spare f hfL hm
  · refine (h.low b i hb hi).trans (congrFun (Function.update_of_ne ?_ _ _) i)
    rintro rfl
    exact hf.1 hb
  · have hent := hag.entry hd' di'
    rw [← hent] at hne ⊢
    exact h.entries d' hd' di' hne
  · exact (h.ptes d' di' ti' hr' hne).trans (hag.pte (tab_of_page hr'))
  · rw [htab d' di' hr', htab d _ (tab_of_page hr)]
    exact h.tables d' di' hr'
  · obtain ⟨hd', h₁, h₂, h₃⟩ := page_mem_refs.mp hr'
    rw [(hview d' hd' di' h₁ h₂).2 ti' h₃, htab d _ (tab_of_page hr)]
    exact h.pages d' di' ti' hr'

lemma vmmMapAlloc_cases (flags : Word) (hl : Layout k vm.dirs vm.mem) {d virt : Word} {L : Multiset Word}
    (hd : d ∈ spaces k vm.dirs) (hv : privateBase ≤ virt)
    (hc : Counts vm.pmm (targets (refs k vm.dirs) (target vm.mem) + L)) :
    (vmmMapAlloc vm d virt flags = (vm, -1) ∧ (pmmAlloc vm.pmm).2 = 0) ∨
    (∃ p x, pmmAlloc vm.pmm = (p, x) ∧ x ≠ 0 ∧ Fresh k vm.dirs vm.mem x ∧ x ∉ L ∧
      Counts p (targets (refs k vm.dirs) (target vm.mem) + (x ::ₘ L)) ∧
      isPresent (vm.mem d (dirIndex virt)) = false ∧ (pmmAlloc p).2 = 0 ∧
      vmmMapAlloc vm d virt flags = ({ vm with mem := vm.mem.setPage x fun _ => 0, pmm := p }, -1)) ∨
    ∃ p x vm', pmmAlloc vm.pmm = (p, x) ∧ x ≠ 0 ∧ x ∉ L ∧
      (isPresent (vm.mem d (dirIndex virt)) = true ∨ (pmmAlloc p).2 ≠ 0) ∧
      vmmMapAlloc vm d virt flags = (vm', 0) ∧ Entered k L vm vm' d virt flags x fun _ => 0 := by
  have hr := page_ref hd hv
  rcases hc.alloc with ⟨ha, _⟩ | ⟨p, x, ha, hne, hn, htot, hc₁⟩
  · exact .inl (by simp [vmmMapAlloc, ha])
  have hxL : x ∉ L := fun hm => hn (Multiset.mem_add.mpr (.inr hm))
  have hf : Fresh k vm.dirs vm.mem x := fresh_of_counts hc₁ hn (Multiset.subset_of_le (Multiset.le_add_right _ _))
  have hag := hf.setPage_agree (fun _ => 0)
  have hx : vm.mem.setPage x (fun _ => 0) x = fun _ => 0 := Function.update_self ..
  have hmap : vmmMapAlloc vm d virt flags =
      vmmMap { vm with mem := vm.mem.setPage x fun _ => 0, pmm := p } d virt x flags := by
    simp only [vmmMapAlloc, ha, if_neg hne]
  have hent : vm.mem.setPage x (fun _ => 0) d (dirIndex virt) = vm.mem d (dirIndex virt) := hag.entry hd _
  have hc₂ : Counts p (x ::ₘ (targets (refs k vm.dirs) (target (vm.mem.setPage x fun _ => 0)) + L)) := by
    rw [hag.targets_eq]
    exact hc₁
  rcases @tableFor_cases k { vm with mem := vm.mem.setPage x fun _ => 0, pmm := p } flags (hl.agree hag) d virt x L
    (tab_of_page hr) (hf.of_agree hag) hc₂ with
    ⟨ht, habs, hnone⟩ | ⟨vm₁, ht, htz, hready, hwhy⟩
  · refine .inr (.inl ⟨p, x, ha, hne, hf, hxL, by rw [Multiset.add_cons]; exact hc₁, ?_, hnone, ?_⟩)
    · rw [← hent]
      exact habs
    · rw [hmap, vmmMap, ht]
      rfl
  · have hentered := hready.entered (hf.of_agree hag) hxL hr
    dsimp only at hentered hwhy
    rw [hx] at hentered
    rw [hent] at hwhy
    refine .inr (.inr ⟨p, x, _, ha, hne, hxL, hwhy, ?_, hentered.filled hd hv hf htot⟩)
    rw [hmap, vmmMap, ht]
    simp only [if_neg htz]
    rw [show frameOf x = x from hf.2.1, ← pageFlags]

lemma Sound.mapAlloc (h : Sound k vm) {d virt flags : Word} (hd : d ∈ spaces k vm.dirs)
    (hv : privateBase ≤ virt) (habs : pteAt vm.mem d (dirIndex virt) (tabIndex virt) = none)
    (hok : vmmMapAlloc vm d virt flags = (vm', 0)) :
    Mapped k vm vm' d virt flags (fun _ => 0) := by
  rcases vmmMapAlloc_cases flags h.layout hd hv (L := 0) (by rw [add_zero]; exact h.counts) with
    ⟨hm, _⟩ | ⟨_, _, _, _, _, _, _, _, _, hm⟩ | ⟨_, x, vm₁, _, _, _, _, hm, he⟩
  · rw [hm] at hok
    cases hok
  · rw [hm] at hok
    cases hok
  · obtain rfl : vm₁ = vm' := congrArg Prod.fst (hm.symm.trans hok)
    have hc := he.counts
    rw [target, habs, Option.map_none, single_none, add_zero, add_zero] at hc
    refine ⟨⟨?_, ?_⟩, he.dirs, he.total, he.tables, he.pages⟩
    · rw [he.dirs]
      exact he.layout
    · rw [he.dirs]
      exact hc

/-! ### Unmapping -/

structure Unmapped (k : BootDir) (vm vm' : Vm) (d virt : Word) : Prop where
  sound : Sound k vm'
  dirs : vm'.dirs = vm.dirs
  total : vm'.pmm.totalFrames = vm.pmm.totalFrames
  tables : ∀ d' ∈ spaces k vm.dirs, ∀ di', tableView vm'.mem d' di' = tableView vm.mem d' di'
  pages : ∀ d' di' ti', Ref.page d' di' ti' ∈ refs k vm.dirs → pageView vm'.mem d' di' ti' =
    if d' = d ∧ di' = dirIndex virt ∧ ti' = tabIndex virt then none else pageView vm.mem d' di' ti'

structure Cleared (k : BootDir) (L : Multiset Word) (vm vm' : Vm) (d virt : Word) : Prop where
  booked : Booked k L vm'
  dirs : vm'.dirs = vm.dirs
  total : vm'.pmm.totalFrames = vm.pmm.totalFrames
  low : LowSame k vm.mem vm'.mem
  entries : ∀ d' ∈ spaces k vm.dirs, ∀ di', vm'.mem d' di' = vm.mem d' di'
  gone : pteAt vm'.mem d (dirIndex virt) (tabIndex virt) = none
  ptes : ∀ d' di' ti', Ref.page d' di' ti' ∈ refs k vm.dirs →
    ¬ (d' = d ∧ di' = dirIndex virt ∧ ti' = tabIndex virt) → pteAt vm'.mem d' di' ti' = pteAt vm.mem d' di' ti'
  rest : ∀ r ∈ refs k vm.dirs, r ≠ .page d (dirIndex virt) (tabIndex virt) → target vm'.mem r = target vm.mem r
  others : ∀ d' di' ti', Ref.page d' di' ti' ∈ refs k vm.dirs →
    ¬ (d' = d ∧ di' = dirIndex virt ∧ ti' = tabIndex virt) → pageView vm'.mem d' di' ti' = pageView vm.mem d' di' ti'

lemma Cleared.of_absent {L : Multiset Word} (h : Booked k L vm) {d virt : Word}
    (habs : pteAt vm.mem d (dirIndex virt) (tabIndex virt) = none) : Cleared k L vm vm d virt :=
  ⟨h, rfl, rfl, fun _ _ _ _ => rfl, fun _ _ _ => rfl, habs, fun _ _ _ _ _ => rfl, fun _ _ _ => rfl,
    fun _ _ _ _ _ => rfl⟩

lemma Layout.low_table (h : Layout k dirs m) {d : Word} {di ti : ℕ} (hr : Ref.page d di ti ∈ refs k dirs)
    (hp : isPresent (m d di) = true) (e : Word) : LowSame k m (m.setWord (frameOf (m d di)) ti e) := by
  intro b i hb _
  refine setWord_other _ _ (.inl ?_)
  rintro rfl
  exact (h.high _ (tab_of_page hr) _ (target_tab hp)).1 hb

lemma Layout.table_ne_zero (h : Layout k dirs m) {d : Word} {di : ℕ} (hr : Ref.tab d di ∈ refs k dirs)
    (hp : isPresent (m d di) = true) : frameOf (m d di) ≠ 0 := fun hz =>
  (h.high _ hr _ (target_tab hp)).1 (by rw [hz]; decide)

lemma Booked.unmap {L : Multiset Word} (h : Booked k L vm) {d virt : Word} (hd : d ∈ spaces k vm.dirs)
    (hv : privateBase ≤ virt) : Cleared k L vm (vmmUnmap vm d virt) d virt := by
  have hr := page_ref hd hv
  cases hp : isPresent (vm.mem d (dirIndex virt)) with
  | false =>
    have hu : vmmUnmap vm d virt = vm := by simp [vmmUnmap, tableFor, hp]
    rw [hu]
    exact .of_absent h (pteAt_of_absent hp)
  | true =>
    have htab : tableFor vm d virt false 0 = (vm, frameOf (vm.mem d (dirIndex virt))) := by
      simp only [tableFor, hp, Bool.not_true, Bool.false_eq_true, if_false]
    rw [vmmUnmap, htab]
    simp only [if_neg (h.layout.table_ne_zero (tab_of_page hr) hp)]
    cases he : isPresent (vm.mem (frameOf (vm.mem d (dirIndex virt))) (tabIndex virt)) with
    | false =>
      rw [if_neg Bool.false_ne_true]
      exact .of_absent h (by rw [pteAt_of_present hp, he]; rfl)
    | true =>
      have hpte : pteAt vm.mem d (dirIndex virt) (tabIndex virt) =
          some (vm.mem (frameOf (vm.mem d (dirIndex virt))) (tabIndex virt)) := by
        rw [pteAt_of_present hp, he]
        rfl
      rw [if_pos rfl]
      have hzero : presentOnly 0 = none := rfl
      have ht := setPte_targets (e := 0) h.layout hr hp
      rw [target_page hpte, hzero, Option.map_none, single_none, single_some, add_zero, add_comm,
        Multiset.singleton_add] at ht
      have hc := h.counts
      rw [← ht, Multiset.cons_add] at hc
      obtain ⟨hf₁, hf₂⟩ := hc.free
      exact ⟨⟨h.layout.setPte hr hp (fun e' he' => by rw [hzero] at he'; cases he'), hf₁⟩, rfl, hf₂,
        h.layout.low_table hr hp 0, fun d' hd' di' => setPte_entry h.layout hr hp hd' di',
        (setPte_at h.layout hr hp).trans hzero,
          fun d' di' ti' hr' hne => setPte_other h.layout hr hp (tab_of_page hr') hne,
        fun r hr' hne => setPte_target h.layout hr hp hr' hne,
        fun d' di' ti' hr' hne => setPte_pageView_other h.layout hr hp hr' hne⟩

lemma Sound.unmap (h : Sound k vm) {d virt : Word} (hd : d ∈ spaces k vm.dirs)
    (hv : privateBase ≤ virt) : Unmapped k vm (vmmUnmap vm d virt) d virt := by
  have hc := h.booked.unmap hd hv
  refine ⟨hc.booked.sound, hc.dirs, hc.total, fun d' hd' di' => by simp only [tableView, hc.entries d' hd'], ?_⟩
  intro d' di' ti' hr'
  split
  · rename_i heq
    obtain ⟨rfl, rfl, rfl⟩ := heq
    exact pageView_none hc.gone
  · rename_i hne
    exact hc.others d' di' ti' hr' hne

/-! ### Resolving a write fault -/

structure Invisible (k : BootDir) (vm vm' : Vm) : Prop where
  sound : Sound k vm'
  dirs : vm'.dirs = vm.dirs
  total : vm'.pmm.totalFrames = vm.pmm.totalFrames
  same : ∀ d ∈ spaces k vm.dirs, SameSpace vm.mem d vm'.mem d

lemma Invisible.refl (h : Sound k vm) : Invisible k vm vm :=
  ⟨h, rfl, rfl, fun _ _ => SameSpace.refl _ _⟩

structure Resolved (k : BootDir) (vm vm' : Vm) (d virt : Word) : Prop extends
    Invisible k vm vm' where
  cow : ∃ e, pteAt vm.mem d (dirIndex virt) (tabIndex virt) = some e ∧ isCow e = true
  writable : ∃ e, pteAt vm'.mem d (dirIndex virt) (tabIndex virt) = some e ∧ isWritable e = true

section cow

variable {d virt e : Word} {di ti : ℕ}

lemma Layout.space_aligned (h : Layout k dirs m) (hd : d ∈ spaces k dirs) : Aligned d := by
  rcases List.mem_cons.mp hd with rfl | hd
  · exact k.aligned
  · exact (h.high (.dir d) (dir_mem_refs.mpr hd) d rfl).2

lemma Sound.space_aligned (h : Sound k vm) (hd : d ∈ spaces k vm.dirs) : Aligned d := h.layout.space_aligned hd

lemma Layout.frame_aligned (h : Layout k dirs m) (hr : Ref.page d di ti ∈ refs k dirs)
    (he : pteAt m d di ti = some e) : Aligned (frameOf e) :=
  (h.high _ hr _ (target_page he)).2

lemma Layout.reclaim (h : Layout k dirs m) (hr : Ref.page d di ti ∈ refs k dirs)
    (he : pteAt m d di ti = some e) (hone : (targets (refs k dirs) (target m)).count (frameOf e) ≤ 1) :
    Layout k dirs (m.setWord (frameOf (m d di)) ti (frameOf e ||| reclaimedFlags e)) := by
  obtain ⟨hp, hpe, _⟩ := pteAt_some he
  have hal := h.frame_aligned hr he
  have hpo := presentOnly_of ((reclaimed_flags (e := e) hal).1.trans hpe)
  refine h.setPte hr hp fun e' he' => ?_
  obtain rfl := Option.some.inj (hpo.symm.trans he')
  rw [frameOf_or_flags hal (frameOf_reclaimedFlags e)]
  refine ⟨(h.high _ hr _ (target_page he)).1, fun r hr' hne ht => ?_⟩
  exact (hne (unique_of_count hone hr' hr ht (target_page he))).elim

structure Settled (k : BootDir) (L : Multiset Word) (vm vm' : Vm) (d virt : Word) : Prop where
  booked : Booked k L vm'
  dirs : vm'.dirs = vm.dirs
  total : vm'.pmm.totalFrames = vm.pmm.totalFrames
  low : LowSame k vm.mem vm'.mem
  same : ∀ d' ∈ spaces k vm.dirs, SameSpace vm.mem d' vm'.mem d'
  entries : ∀ d' ∈ spaces k vm.dirs, ∀ di', vm'.mem d' di' = vm.mem d' di'
  ptes : ∀ d' di' ti', Ref.page d' di' ti' ∈ refs k vm.dirs →
    ¬ (d' = d ∧ di' = dirIndex virt ∧ ti' = tabIndex virt) → pteAt vm'.mem d' di' ti' = pteAt vm.mem d' di' ti'
  rest : ∀ r ∈ refs k vm.dirs, r ≠ .page d (dirIndex virt) (tabIndex virt) → target vm'.mem r = target vm.mem r
  spare : Spared k vm.dirs L vm.mem vm'.mem
  cow : ∃ e, pteAt vm.mem d (dirIndex virt) (tabIndex virt) = some e ∧ isCow e = true
  writable : ∃ e, pteAt vm'.mem d (dirIndex virt) (tabIndex virt) = some e ∧ isWritable e = true ∧ isCow e = false

lemma Booked.reclaim {L : Multiset Word} (h : Booked k L vm)
    (hr : Ref.page d (dirIndex virt) (tabIndex virt) ∈ refs k vm.dirs)
    (he : pteAt vm.mem d (dirIndex virt) (tabIndex virt) = some e) (hcow : isCow e = true)
    (hone : pmmRefcount vm.pmm (frameOf e) ≤ 1) :
    Settled k L vm { vm with
      mem := vm.mem.setWord (frameOf (vm.mem d (dirIndex virt))) (tabIndex virt)
        (frameOf e ||| reclaimedFlags e) } d virt := by
  obtain ⟨hp, hpe, _⟩ := pteAt_some he
  have hal := h.layout.frame_aligned hr he
  obtain ⟨hfp, hfw, hfc⟩ := reclaimed_flags (e := e) hal
  have hfr : frameOf (frameOf e ||| reclaimedFlags e) = frameOf e :=
    frameOf_or_flags hal (frameOf_reclaimedFlags e)
  have hpo := presentOnly_of (hfp.trans hpe)
  have hat : pteAt (vm.mem.setWord (frameOf (vm.mem d (dirIndex virt))) (tabIndex virt)
      (frameOf e ||| reclaimedFlags e)) d (dirIndex virt) (tabIndex virt) = _ :=
    (setPte_at h.layout hr hp).trans hpo
  rw [h.counts.refcount_eq (Multiset.mem_add.mpr (.inl (mem_targets.mpr ⟨_, hr, target_page he⟩))),
    Multiset.count_add] at hone
  refine ⟨⟨h.layout.reclaim hr he (by omega), ?_⟩, rfl, rfl, h.layout.low_table hr hp _, fun d' hd' => ?_,
    fun d' hd' di' => setPte_entry h.layout hr hp hd' di',
    fun d' di' ti' hr' hne => setPte_other h.layout hr hp (tab_of_page hr') hne,
    fun r hr' hne => setPte_target h.layout hr hp hr' hne, .of_one
      (fun r hr' hne => setPte_target h.layout hr hp hr' hne) fun f _ hft => ?_, ⟨e, he, hcow⟩, _, hat, hfw, hfc⟩
  · have ht := setPte_targets (e := frameOf e ||| reclaimedFlags e) h.layout hr hp
    rw [target_page he, hpo, Option.map_some, hfr] at ht
    rw [add_right_cancel ht]
    exact h.counts
  · apply setPte_sameSpace h.layout hr hp _ hd'
    rw [pageView_some hat, pageView_some he, setPte_entry h.layout hr hp (page_mem_refs.mp hr).1, hfr,
      settledFlags_reclaimed hal hcow, setPte_content h.layout hr hp hr (target_page he)]
  · rw [target_page hat, hfr] at hft
    rw [target_page he, hft]

lemma Booked.split {L : Multiset Word} (h : Booked k L vm)
    (hr : Ref.page d (dirIndex virt) (tabIndex virt) ∈ refs k vm.dirs)
    (he : pteAt vm.mem d (dirIndex virt) (tabIndex virt) = some e) (hcow : isCow e = true)
    {x : Word} (hf : Fresh k vm.dirs vm.mem x) (hxL : x ∉ L)
    (hc : Counts p (x ::ₘ (targets (refs k vm.dirs) (target vm.mem) + L)))
    (htot : p.totalFrames = vm.pmm.totalFrames) :
    Settled k L vm { vm with
      mem := (vm.mem.setPage x (vm.mem (frameOf e))).setWord (frameOf (vm.mem d (dirIndex virt)))
        (tabIndex virt) (x ||| reclaimedFlags e)
      pmm := pmmFree p (frameOf e) } d virt := by
  obtain ⟨hp, hpe, _⟩ := pteAt_some he
  have hd := (page_mem_refs.mp hr).1
  obtain ⟨hfp, hfw, hfc⟩ := reclaimed_flags (e := e) hf.2.1
  have hfr : frameOf (x ||| reclaimedFlags e) = x :=
    frameOf_or_flags hf.2.1 (frameOf_reclaimedFlags e)
  have hpf : isPresent (reclaimedFlags e) = true := by rw [← isPresent_or hf.2.1, hfp, hpe]
  have hxe : frameOf e ≠ x := fun hh => hf.2.2 _ hr (by rw [target_page he, hh])
  have hag := hf.setPage_agree (vm.mem (frameOf e))
  have hsame : ∀ d' ∈ spaces k vm.dirs, SameSpace vm.mem d' (vm.mem.setPage x (vm.mem (frameOf e))) d' :=
    fun d' hd' => hf.sameSpace (fun b hb => Function.update_of_ne hb _ _) hd'
  have hlow : LowSame k vm.mem (vm.mem.setPage x (vm.mem (frameOf e))) := fun b i hb _ =>
    congrFun (Function.update_of_ne (hf.high_ne hb) _ _) i
  have hx : vm.mem.setPage x (vm.mem (frameOf e)) x = vm.mem (frameOf e) := Function.update_self ..
  have hy : vm.mem.setPage x (vm.mem (frameOf e)) (frameOf e) = vm.mem (frameOf e) :=
    Function.update_of_ne hxe ..
  have hl₁ := h.layout.agree hag
  have he₁ := (hag.pte (tab_of_page hr)).trans he
  have hp₁ := (pteAt_some he₁).1
  obtain ⟨hl, hc₁, hat, hkeep⟩ :=
    fillEntry (reclaimedFlags e) hl₁ hr hp₁ (hf.of_agree hag) (frameOf_reclaimedFlags e) hpf
    (L := L) (by rw [hag.targets_eq]; exact hc)
  rw [target_page he₁, single_some, add_comm L, Multiset.singleton_add, Multiset.add_cons] at hc₁
  obtain ⟨hc₂, hc₃⟩ := hc₁.free
  have hent : vm.mem.setPage x (vm.mem (frameOf e)) d (dirIndex virt) = vm.mem d (dirIndex virt) :=
    hag.entry hd (dirIndex virt)
  rw [← hent]
  have hrest : ∀ r ∈ refs k vm.dirs, r ≠ .page d (dirIndex virt) (tabIndex virt) → target
      ((vm.mem.setPage x (vm.mem (frameOf e))).setWord
        (frameOf (vm.mem.setPage x (vm.mem (frameOf e)) d (dirIndex virt)))
        (tabIndex virt) (x ||| reclaimedFlags e)) r = target vm.mem r := fun r hr' hne =>
    (setPte_target hl₁ hr hp₁ hr' hne).trans (hag.target_eq hr')
  refine ⟨⟨hl, hc₂⟩, rfl, hc₃.trans htot, fun b i hb hi => ?_, fun d' hd' => ?_, fun d' hd' di' => ?_,
    fun d' di' ti' hr' hne => ?_, hrest, .of_one hrest fun f hfL hft => ?_, ⟨e, he, hcow⟩, _, hat, hfw, hfc⟩
  · exact (hl₁.low_table hr hp₁ _ b i hb hi).trans (hlow b i hb hi)
  · apply (hsame d' hd').trans
    apply setPte_sameSpace hl₁ hr hp₁ _ hd'
    rw [pageView_some hat, pageView_some he₁, setPte_entry hl₁ hr hp₁ hd, hfr,
      settledFlags_reclaimed hf.2.1 hcow, hkeep, hx, hy]
  · exact (setPte_entry hl₁ hr hp₁ hd' di').trans (hag.entry hd' di')
  · exact (setPte_other hl₁ hr hp₁ (tab_of_page hr') hne).trans (hag.pte (tab_of_page hr'))
  · rw [target_page hat, hfr] at hft
    exact (hxL (Option.some.inj hft ▸ hfL)).elim

lemma Booked.cowHandle {L : Multiset Word} (h : Booked k L vm) (err : Word) (hd : d ∈ spaces k vm.dirs)
    (hv : privateBase ≤ virt) :
    (vmmCowHandle vm d virt err = (vm, false) ∧ (err &&& 0x2 = 0 ∨ (pmmAlloc vm.pmm).2 = 0 ∨
      ∀ e, pteAt vm.mem d (dirIndex virt) (tabIndex virt) = some e → isCow e = false)) ∨
    err &&& 0x2 ≠ 0 ∧ ∃ vm', vmmCowHandle vm d virt err = (vm', true) ∧ Settled k L vm vm' d virt := by
  have hr := page_ref hd hv
  have hda : frameOf d = d := h.layout.space_aligned hd
  rw [vmmCowHandle, hda]
  by_cases herr : err &&& 0x2 = 0
  · exact Or.inl ⟨by rw [if_pos herr], Or.inl herr⟩
  simp only [if_neg herr]
  cases hp : isPresent (vm.mem d (dirIndex virt)) with
  | false =>
    refine Or.inl ⟨rfl, Or.inr (Or.inr ?_)⟩
    intro e he
    rw [pteAt_of_absent hp] at he
    cases he
  | true =>
    simp only [Bool.not_true, Bool.false_eq_true, if_false]
    have hpte : pteAt _ _ _ (tabIndex virt) = _ := pteAt_of_present hp
    generalize vm.mem (frameOf (vm.mem d (dirIndex virt))) (tabIndex virt) = e at hpte ⊢
    by_cases hcow : isPresent e = true ∧ isCow e = true
    · rw [if_pos hcow.1] at hpte
      simp only [hcow.1, hcow.2, Bool.not_true, Bool.or_self, Bool.false_eq_true, if_false]
      by_cases hone : pmmRefcount vm.pmm (frameOf e) ≤ 1
      · exact Or.inr ⟨herr, _, by rw [if_pos hone], h.reclaim hr hpte hcow.2 hone⟩
      · rw [if_neg hone]
        rcases h.counts.alloc with ⟨ha, _⟩ | ⟨p', x, ha, hne, hn, htot, hc⟩
        · exact Or.inl ⟨by rw [ha]; rfl, Or.inr (Or.inl (by rw [ha]))⟩
        · have hf : Fresh k vm.dirs vm.mem x := fresh_of_counts hc hn fun _ hm => Multiset.mem_add.mpr (.inl hm)
          exact Or.inr ⟨herr, _, by rw [ha]; simp only [if_neg hne],
            h.split hr hpte hcow.2 hf (fun hm => hn (Multiset.mem_add.mpr (.inr hm))) hc htot⟩
    · refine Or.inl ⟨?_, Or.inr (Or.inr ?_)⟩
      · rw [if_pos]
        cases h₁ : isPresent e <;> cases h₂ : isCow e <;> simp_all
      · intro e' he'
        rw [hpte] at he'
        split at he'
        · rename_i hpe
          obtain rfl := Option.some.inj he'
          simpa using fun hc => hcow ⟨hpe, hc⟩
        · cases he'

lemma Sound.cowHandle (h : Sound k vm) (err : Word) (hd : d ∈ spaces k vm.dirs)
    (hv : privateBase ≤ virt) :
    (vmmCowHandle vm d virt err = (vm, false) ∧ (err &&& 0x2 = 0 ∨ Exhausted k vm ∨
      ∀ e, pteAt vm.mem d (dirIndex virt) (tabIndex virt) = some e → isCow e = false)) ∨
    err &&& 0x2 ≠ 0 ∧ ∃ vm', vmmCowHandle vm d virt err = (vm', true) ∧ Resolved k vm vm' d virt := by
  rcases h.booked.cowHandle err hd hv with ⟨hc, hwhy⟩ | ⟨herr, vm', hc, hs⟩
  · exact .inl ⟨hc, hwhy.imp_right (Or.imp_left h.exhausted)⟩
  · obtain ⟨e, he, hw, _⟩ := hs.writable
    exact .inr ⟨herr, vm', hc, ⟨hs.booked.sound, hs.dirs, hs.total, hs.same⟩, hs.cow, e, he, hw⟩

end cow

/-! ### Storing to a writable page -/

structure Stored (k : BootDir) (vm vm' : Vm) (d virt : Word) (i : ℕ) (w : Word) : Prop where
  sound : Sound k vm'
  dirs : vm'.dirs = vm.dirs
  total : vm'.pmm.totalFrames = vm.pmm.totalFrames
  tables : ∀ d' ∈ spaces k vm.dirs, ∀ di', tableView vm'.mem d' di' = tableView vm.mem d' di'
  pages : ∀ d' di' ti', Ref.page d' di' ti' ∈ refs k vm.dirs → pageView vm'.mem d' di' ti' =
    if d' = d ∧ di' = dirIndex virt ∧ ti' = tabIndex virt
    then (pageView vm.mem d' di' ti').map fun v => (v.1, v.2.1, Function.update v.2.2 i w)
    else pageView vm.mem d' di' ti'

lemma Sound.store (h : Sound k vm) {d virt e w : Word} {i : ℕ} (hd : d ∈ spaces k vm.dirs)
    (hv : privateBase ≤ virt) (he : pteAt vm.mem d (dirIndex virt) (tabIndex virt) = some e)
    (hw : isWritable e = true) :
    Stored k vm { vm with mem := vm.mem.setWord (frameOf e) i w } d virt i w := by
  have hr := page_ref hd hv
  have hag := h.layout.setWord_agree hr (target_page he) i w
  refine ⟨⟨h.layout.agree hag, ?_⟩, rfl, rfl, ?_, ?_⟩
  · rw [hag.targets_eq]
    exact h.counts
  · intro d' hd' di'
    simp only [tableView, hag.entry hd']
  · intro d' di' ti' hr'
    have hpte : pteAt _ d' di' ti' = _ := hag.pte (tab_of_page hr')
    have hent := hag.entry (page_mem_refs.mp hr').1 di'
    split
    · rename_i heq
      obtain ⟨rfl, rfl, rfl⟩ := heq
      rw [he] at hpte
      rw [pageView_some hpte, pageView_some he, hent]
      simp only [Option.map_some, PhysMem.setWord, Function.update_self]
    · rename_i hne
      cases he' : pteAt vm.mem d' di' ti' with
      | none => rw [pageView_none (hpte.trans he'), pageView_none he']
      | some e' =>
        have hfe : frameOf e' ≠ frameOf e := by
          intro hh
          have heq := h.layout.exclusive _ _ _ e hr he hw _ hr' (by rw [target_page he', hh])
          cases heq
          exact hne ⟨rfl, rfl, rfl⟩
        rw [pageView_some (hpte.trans he'), pageView_some he', hent, setWord_page _ _ _ hfe]

end PyroOS
