import PyroOS.Memory.Pages

/-! Cloning an address space, by copying every page or by sharing it copy-on-write. -/

namespace PyroOS

open Sharing Loop

variable {k : BootDir} {dirs : List Word} {m m' : PhysMem} {p : Pmm} {vm vm' s s' : Vm} {L L' : Multiset Word}
  {src dst : Word} {a di ti : ℕ}

def Uncrowded (k : BootDir) (L : Multiset Word) (vm : Vm) (src : Word) : Prop :=
  ∀ di ti f, Ref.page src di ti ∈ refs k vm.dirs → target vm.mem (.page src di ti) = some f →
    (targets (refs k vm.dirs) (target vm.mem) + L).count f < 255

/-- The books of a clone under way. What was counted beyond the references is so still, but for counts that were
full and now stand for a new reference; and none of it is referred to anew. -/
structure Carried (k : BootDir) (L : Multiset Word) (vm : Vm) (src : Word) (L' : Multiset Word) (s : Vm) : Prop where
  booked : Booked k L' s
  le : L' ≤ L
  whole : Uncrowded k L vm src → L' = L
  spare : ∀ f ∈ L', f ∈ targets (refs k s.dirs) (target s.mem) → f ∈ targets (refs k vm.dirs) (target vm.mem)

lemma Carried.sound (h : Carried k 0 vm src L' s) : Sound k s := by
  have hz := Multiset.le_zero.mp h.le
  have hb := h.booked
  rw [hz] at hb
  exact hb.sound

/-- A clone under way: tables below `a` and pages before `(di, ti)` are done, the rest of the new
space is empty, and the older spaces look as before. -/
structure Cloning (k : BootDir) (L : Multiset Word) (vm : Vm) (src dst : Word) (a di ti : ℕ) (s : Vm) : Prop where
  books : ∃ L', Carried k L vm src L' s
  dirs : s.dirs = dst :: vm.dirs
  total : s.pmm.totalFrames = vm.pmm.totalFrames
  same : ∀ d ∈ spaces k vm.dirs, SameSpace vm.mem d s.mem d
  old : ∀ r ∈ refs k vm.dirs, target s.mem r = target vm.mem r
  low : LowSame k vm.mem s.mem
  entries : ∀ d ∈ spaces k vm.dirs, ∀ j, s.mem d j = vm.mem d j
  tables : ∀ j, 2 ≤ j → j < 1024 →
    tableView s.mem dst j = if j < a then tableView vm.mem src j else none
  pages : ∀ j t, 2 ≤ j → j < 1024 → t < 1024 → pageView s.mem dst j t =
    if j < di ∨ j = di ∧ t < ti then pageView vm.mem src j t else none

lemma tableView_eq_none {d : Word} : tableView m d di = none ↔ isPresent (m d di) = false := by
  simp [tableView]

lemma pageView_eq_none {d : Word} : pageView m d di ti = none ↔ pteAt m d di ti = none := by
  simp [pageView]

lemma tableView_eq_some {d fl : Word} :
    tableView m d di = some fl ↔ isPresent (m d di) = true ∧ flagsOf (m d di) = fl := by
  simp [tableView]

lemma Cloning.start (hf : Fresh k vm.dirs vm.mem dst) (hL : dst ∉ L) (htot : p.totalFrames = vm.pmm.totalFrames)
    (hb : Booked k L ⟨withDir k vm.mem dst, p, dst :: vm.dirs⟩) :
    Cloning k L vm src dst 2 2 0 ⟨withDir k vm.mem dst, p, dst :: vm.dirs⟩ := by
  have habs : ∀ j, 2 ≤ j → isPresent (withDir k vm.mem dst dst j) = false := fun j hj => by
    simp [withDir_empty dst hj]
  refine ⟨⟨L, hb, le_rfl, fun _ => rfl, fun f hf' hm => ?_⟩, rfl, htot,
    fun d hd => hf.sameSpace (fun b hb => withDir_other hb) hd, fun r hr => hf.withDir_agree.target_eq hr,
    fun b i hb _ => congrFun (withDir_other (hf.high_ne hb)) i,
    fun d hd j => congrFun (withDir_other (by rintro rfl; exact hf.not_space hd)) j, ?_, ?_⟩
  · rw [show targets (refs k (dst :: vm.dirs)) (target (withDir k vm.mem dst)) = _ from withDir_targets hf] at hm
    exact (Multiset.mem_cons.mp hm).resolve_left (by rintro rfl; exact hL hf')
  · intro j h₁ _
    rw [if_neg (by omega)]
    exact tableView_eq_none.mpr (habs j h₁)
  · intro j t h₁ _ _
    rw [if_neg (by omega)]
    exact pageView_eq_none.mpr (pteAt_of_absent (habs j h₁))

namespace Cloning

lemma space (h : Cloning k L vm src dst a di ti s) {d : Word} (hd : d ∈ spaces k vm.dirs) :
    d ∈ spaces k s.dirs := by
  rw [h.dirs]
  exact List.cons_subset_cons _ (List.subset_cons_self _ _) hd

lemma refs_old (h : Cloning k L vm src dst a di ti s) {r : Ref} (hr : r ∈ refs k vm.dirs) : r ∈ refs k s.dirs := by
  rw [h.dirs]
  exact refs_subset (List.subset_cons_self _ _) hr

lemma new_space (h : Cloning k L vm src dst a di ti s) : dst ∈ spaces k s.dirs := by
  rw [h.dirs]
  exact List.mem_cons_of_mem _ List.mem_cons_self

lemma layout (h : Cloning k L vm src dst a di ti s) : Layout k s.dirs s.mem := by
  obtain ⟨L', hL'⟩ := h.books
  exact hL'.booked.layout

lemma new_ne (h : Cloning k L vm src dst a di ti s) {d : Word} (hd : d ∈ spaces k vm.dirs) :
    d ≠ dst := by
  have hn := h.layout.nodup
  rw [h.dirs, spaces, List.nodup_cons, List.nodup_cons] at hn
  rintro rfl
  rcases List.mem_cons.mp hd with rfl | hd
  · exact hn.1 List.mem_cons_self
  · exact hn.2.1 hd

lemma skip (h : Cloning k L vm src dst di di 0 s) (hsrc : src ∈ spaces k vm.dirs) (h₁ : 2 ≤ di)
    (h₂ : di < 1024) (hp : isPresent (s.mem src di) = false) :
    Cloning k L vm src dst (di + 1) (di + 1) 0 s := by
  obtain ⟨htab, hpage⟩ := h.same src hsrc di h₁ h₂
  rw [tableView_eq_none.mpr hp] at htab
  refine ⟨h.books, h.dirs, h.total, h.same, h.old, h.low, h.entries, ?_, ?_⟩
  · intro j hj₁ hj₂
    rw [h.tables j hj₁ hj₂]
    by_cases he : j = di
    · rw [he, htab, ite_self, ite_self]
    · simp only [show (j < di + 1) = (j < di) by rw [eq_iff_iff]; omega]
  · intro j t hj₁ hj₂ ht
    rw [h.pages j t hj₁ hj₂ ht]
    by_cases he : j = di
    · rw [he, hpage t ht, pageView_none (pteAt_of_absent hp), ite_self, ite_self]
    · simp only [show (j < di ∨ j = di ∧ t < 0) = (j < di + 1 ∨ j = di + 1 ∧ t < 0) by
        rw [eq_iff_iff]; omega]

lemma close (h : Cloning k L vm src dst (di + 1) di 1024 s) :
    Cloning k L vm src dst (di + 1) (di + 1) 0 s := by
  refine ⟨h.books, h.dirs, h.total, h.same, h.old, h.low, h.entries, h.tables, ?_⟩
  intro j t hj₁ hj₂ ht
  rw [h.pages j t hj₁ hj₂ ht]
  simp only [show (j < di ∨ j = di ∧ t < 1024) = (j < di + 1 ∨ j = di + 1 ∧ t < 0) by
    rw [eq_iff_iff]; omega]

lemma finish (h : Cloning k L vm src dst 1024 1024 0 s) : SameSpace vm.mem src s.mem dst := by
  intro j h₁ h₂
  refine ⟨by rw [h.tables j h₁ h₂, if_pos h₂], ?_⟩
  intro t ht
  rw [h.pages j t h₁ h₂ ht, if_pos (Or.inl h₂)]

end Cloning

/-! ### One page -/

structure Filling (k : BootDir) (L : Multiset Word) (vm : Vm) (src dst : Word) (di : ℕ) (srcTab tab : Word) (ti : ℕ)
    (s : Vm) : Prop where
  cloning : Cloning k L vm src dst (di + 1) di ti s
  hsrc : src ∈ spaces k vm.dirs
  index : 2 ≤ di ∧ di < 1024
  source : isPresent (s.mem src di) = true ∧ frameOf (s.mem src di) = srcTab
  copy : isPresent (s.mem dst di) = true ∧ frameOf (s.mem dst di) = tab

structure PageDone (k : BootDir) (src dst : Word) (di ti : ℕ) (s s' : Vm) : Prop where
  dirs : s'.dirs = s.dirs
  total : s'.pmm.totalFrames = s.pmm.totalFrames
  low : LowSame k s.mem s'.mem
  entries : ∀ d ∈ spaces k s.dirs, ∀ j, s'.mem d j = s.mem d j
  rest : ∀ r ∈ refs k s.dirs, r ≠ .page dst di ti → target s'.mem r = target s.mem r
  others : ∀ d j t, Ref.page d j t ∈ refs k s.dirs → ¬ (d = dst ∧ j = di ∧ t = ti) →
    pageView s'.mem d j t = pageView s.mem d j t
  done : pageView s'.mem dst di ti = pageView s.mem src di ti

lemma Cloning.addTable (h : Cloning k L vm src dst di di 0 s) (hsrc : src ∈ spaces k vm.dirs) (h₁ : 2 ≤ di)
    (h₂ : di < 1024) (hp : isPresent (s.mem src di) = true) {tab : Word} (hL : Carried k L vm src L' s)
    (hn : tab ∉ targets (refs k s.dirs) (target s.mem) + L')
    (hc : Counts p (tab ::ₘ (targets (refs k s.dirs) (target s.mem) + L')))
    (htot : p.totalFrames = s.pmm.totalFrames) :
    Filling k L vm src dst di (frameOf (s.mem src di)) tab 0
      { s with mem := withTable s.mem dst di tab (flagsOf (s.mem src di)), pmm := p } := by
  have hf : Fresh k s.dirs s.mem tab := fresh_of_counts hc hn fun _ hm => Multiset.mem_add.mpr (.inl hm)
  have habs : isPresent (s.mem dst di) = false := by
    apply tableView_eq_none.mp
    rw [h.tables di h₁ h₂, if_neg (lt_irrefl di)]
  have hrs : Ref.tab src di ∈ refs k s.dirs := tab_mem_refs.mpr ⟨h.space hsrc, h₁, h₂⟩
  have hpf : isPresent (flagsOf (s.mem src di)) = true := by
    rw [isPresent_bit, flagsOf_bit, ← isPresent_bit, hp]
    rfl
  have hnt : NewTable k s.dirs s.mem dst di tab (flagsOf (s.mem src di)) :=
    ⟨h.layout, hf, tab_mem_refs.mpr ⟨h.new_space, h₁, h₂⟩, habs, frameOf_flagsOf _, hpf⟩
  have hw : isWritable (flagsOf (s.mem src di)) = true := by
    rw [isWritable_bit, flagsOf_bit, ← isWritable_bit, h.layout.tableRw src di hrs hp]
    rfl
  have hsame : ∀ d ∈ spaces k vm.dirs, SameSpace s.mem d
      (withTable s.mem dst di tab (flagsOf (s.mem src di))) d := by
    intro d hd j hj₁ hj₂
    have htab := hnt.tableView_eq (h.space hd) j
    rw [if_neg (fun hh => h.new_ne hd hh.1)] at htab
    exact ⟨htab.symm, fun t ht => (hnt.pageView_eq (page_mem_refs.mpr ⟨h.space hd, hj₁, hj₂, ht⟩)).symm⟩
  have hes := (hnt.entry (h.space hsrc) di).trans (if_neg fun hh => h.new_ne hsrc hh.1)
  refine ⟨⟨⟨L', ⟨hnt.layout_withTable hw, ?_⟩, hL.le, hL.whole, fun f hfL hm => ?_⟩, h.dirs, htot.trans h.total,
    fun d hd => (h.same d hd).trans (hsame d hd), fun r hr => ?_, fun b i hb hi => ?_, fun d hd j => ?_, ?_, ?_⟩, hsrc,
    ⟨h₁, h₂⟩,
    ⟨(congrArg isPresent hes).trans hp, congrArg frameOf hes⟩, hnt.self⟩
  · rw [hnt.targets_eq, Multiset.cons_add]
    exact hc
  · rw [show targets (refs k s.dirs) (target (withTable s.mem dst di tab (flagsOf (s.mem src di)))) = _ from
      hnt.targets_eq] at hm
    refine hL.spare f hfL ((Multiset.mem_cons.mp hm).resolve_left ?_)
    rintro rfl
    exact hn (Multiset.mem_add.mpr (.inr hfL))
  · refine (hnt.target_other (h.refs_old hr) ?_).trans (h.old r hr)
    rintro rfl
    exact h.new_ne (tab_mem_refs.mp hr).1 rfl
  · exact (hnt.low b i hb hi).trans (h.low b i hb hi)
  · exact ((hnt.entry (h.space hd) j).trans (if_neg fun hh => h.new_ne hd hh.1)).trans (h.entries d hd j)
  · intro j hj₁ hj₂
    have htab := hnt.tableView_eq h.new_space j
    rw [h.tables j hj₁ hj₂] at htab
    refine htab.trans ?_
    by_cases he : j = di
    · rw [if_pos ⟨rfl, he⟩, if_pos (by omega), he, (h.same src hsrc di h₁ h₂).1]
      exact (tableView_eq_some.mpr ⟨hp, rfl⟩).symm
    · rw [if_neg (fun hh => he hh.2)]
      simp only [show (j < di + 1) = (j < di) by rw [eq_iff_iff]; omega]
  · intro j t hj₁ hj₂ ht
    refine (hnt.pageView_eq (page_mem_refs.mpr ⟨h.new_space, hj₁, hj₂, ht⟩)).trans ?_
    exact h.pages j t hj₁ hj₂ ht

def Ref.space : Ref → Word
  | .dir d => d
  | .tab d _ => d
  | .page d _ _ => d

lemma Layout.space_inj (h : Layout k dirs m) {r r' : Ref} {f : Word} (hr : r ∈ refs k dirs) (hr' : r' ∈ refs k dirs)
    (ht : target m r = some f) (ht' : target m r' = some f) (hs : r.space = r'.space) : r = r' := by
  rcases h.sharing r hr r' hr' f ht ht' with he | he
  · exact he
  · cases r with
    | page d di ti =>
      cases r' with
      | page d' di' ti' =>
        obtain ⟨rfl, rfl⟩ := he
        exact congrArg (fun d => Ref.page d di ti) hs
      | dir _ => exact he.elim
      | tab _ _ => exact he.elim
    | dir _ => exact he.elim
    | tab _ _ => exact he.elim

namespace Filling

variable {srcTab tab e : Word}

lemma source_ref (h : Filling k L vm src dst di srcTab tab ti s) (ht : ti < 1024) :
    Ref.page src di ti ∈ refs k vm.dirs :=
  page_mem_refs.mpr ⟨h.hsrc, h.index.1, h.index.2, ht⟩

lemma copy_ref (h : Filling k L vm src dst di srcTab tab ti s) (ht : ti < 1024) :
    Ref.page dst di ti ∈ refs k s.dirs :=
  page_mem_refs.mpr ⟨h.cloning.new_space, h.index.1, h.index.2, ht⟩

lemma copy_absent (h : Filling k L vm src dst di srcTab tab ti s) (ht : ti < 1024) :
    pteAt s.mem dst di ti = none := by
  apply pageView_eq_none.mp
  rw [h.cloning.pages di ti h.index.1 h.index.2 ht, if_neg (by omega)]

lemma flags_eq (h : Filling k L vm src dst di srcTab tab ti s) :
    flagsOf (s.mem dst di) = flagsOf (s.mem src di) := by
  have hd := h.cloning.tables di h.index.1 h.index.2
  rw [if_pos (by omega), (h.cloning.same src h.hsrc di h.index.1 h.index.2).1,
    tableView_eq_some.mpr ⟨h.source.1, rfl⟩] at hd
  exact (tableView_eq_some.mp hd).2

lemma next (h : Filling k L vm src dst di srcTab tab ti s) (ht : ti < 1024)
    (hL : ∃ L', Carried k L vm src L' s') (hd : PageDone k src dst di ti s s') :
    Filling k L vm src dst di srcTab tab (ti + 1) s' := by
  have hc := h.cloning
  have hes := hd.entries src (hc.space h.hsrc) di
  have hed := hd.entries dst hc.new_space di
  have htv : ∀ d ∈ spaces k s.dirs, ∀ j, tableView s'.mem d j = tableView s.mem d j :=
    fun d hd' j => by simp only [tableView, hd.entries d hd' j]
  refine ⟨⟨hL, hd.dirs.trans hc.dirs, hd.total.trans hc.total, ?_, fun r hr => ?_, fun b i hb hi => ?_,
    fun d hd' j => (hd.entries d (hc.space hd') j).trans (hc.entries d hd' j), ?_, ?_⟩, h.hsrc, h.index,
      by rw [hes]; exact h.source, by rw [hed]; exact h.copy⟩
  · intro d hd' j h₁ h₂
    have hold := hc.same d hd' j h₁ h₂
    refine ⟨hold.1.trans (htv d (hc.space hd') j).symm, fun t ht' => (hold.2 t ht').trans ?_⟩
    have hr := page_mem_refs.mpr ⟨hc.space hd', h₁, h₂, ht'⟩
    exact (hd.others d j t hr (fun hh => hc.new_ne hd' hh.1)).symm
  · refine (hd.rest r (hc.refs_old hr) ?_).trans (hc.old r hr)
    rintro rfl
    exact hc.new_ne (page_mem_refs.mp hr).1 rfl
  · exact (hd.low b i hb hi).trans (hc.low b i hb hi)
  · intro j h₁ h₂
    rw [htv dst hc.new_space j, hc.tables j h₁ h₂]
  · intro j t h₁ h₂ ht'
    by_cases he : j = di ∧ t = ti
    · rw [he.1, he.2, if_pos (by omega), hd.done, (hc.same src h.hsrc di h.index.1 h.index.2).2 ti ht]
    · rw [hd.others dst j t (page_mem_refs.mpr ⟨hc.new_space, h₁, h₂, ht'⟩) (by tauto),
        hc.pages j t h₁ h₂ ht']
      simp only [show (j < di ∨ j = di ∧ t < ti) = (j < di ∨ j = di ∧ t < ti + 1) by
        rw [eq_iff_iff]; omega]

lemma next_absent (h : Filling k L vm src dst di srcTab tab ti s) (ht : ti < 1024)
    (hp : isPresent (s.mem srcTab ti) = false) : Filling k L vm src dst di srcTab tab (ti + 1) s := by
  apply h.next ht h.cloning.books ⟨rfl, rfl, fun _ _ _ _ => rfl, fun _ _ _ => rfl, fun _ _ _ => rfl,
    fun _ _ _ _ _ => rfl, ?_⟩
  rw [pageView_none (h.copy_absent ht), pageView_none]
  rw [pteAt_of_present h.source.1, h.source.2, hp]
  rfl

lemma source_pte (h : Filling k L vm src dst di srcTab tab ti s)
    (hp : isPresent (s.mem srcTab ti) = true) :
    pteAt s.mem src di ti = some (s.mem srcTab ti) := by
  rw [pteAt_of_present h.source.1, h.source.2, hp]
  rfl

lemma count_eq (h : Filling k L vm src dst di srcTab tab ti s) (ht : ti < 1024) {f : Word}
    (hf : target s.mem (.page src di ti) = some f) : (targets (refs k s.dirs) (target s.mem)).count f =
      (targets (refs k vm.dirs) (target vm.mem)).count f := by
  have hc := h.cloning
  have hr := hc.refs_old (h.source_ref ht)
  have hl := hc.layout
  rw [hc.dirs] at hl hr ⊢
  have hdst : dst ≠ f := fun he => hl.page_not_space hr hf (he ▸ List.mem_cons_of_mem _ List.mem_cons_self)
  have hnew : (targets (spaceRefs dst) (target s.mem)).count f = 0 := by
    refine Multiset.count_eq_zero_of_notMem fun hm => ?_
    obtain ⟨r, hr', htr⟩ := mem_targets.mp hm
    have hmem : r ∈ refs k (dst :: vm.dirs) := List.mem_append_right _
      (List.mem_flatMap.mpr ⟨dst, List.mem_cons_of_mem _ List.mem_cons_self, hr'⟩)
    rcases hl.sharing _ hr _ hmem f hf htr with rfl | hsame
    · rcases mem_spaceRefs.mp hr' with ⟨_, he, _⟩ | ⟨_, _, he, _⟩ <;> cases he
      exact hc.new_ne h.hsrc rfl
    · rcases mem_spaceRefs.mp hr' with ⟨_, rfl, _⟩ | ⟨j, t, rfl, _⟩
      · exact hsame
      · obtain ⟨rfl, rfl⟩ := hsame
        rw [target, h.copy_absent ht] at htr
        cases htr
  have hold : targets (refs k vm.dirs) (target s.mem) = targets (refs k vm.dirs) (target vm.mem) :=
    targets_congr fun r hr => hc.old r hr
  rw [refs_cons, Multiset.count_add, Multiset.count_add, hnew, hold, show target s.mem (.dir dst) = some dst from rfl,
    single_some, Multiset.count_singleton, if_neg (Ne.symm hdst), zero_add, zero_add]

end Filling

section page

variable {e : Word}

lemma Booked.copy_done (h : Booked k L s) (hr' : Ref.page dst di ti ∈ refs k s.dirs)
    (hp : isPresent (s.mem dst di) = true) (habs : pteAt s.mem dst di ti = none) (he : pteAt s.mem src di ti = some e)
    (hfl : flagsOf (s.mem dst di) = flagsOf (s.mem src di)) {x : Word} (hf : Fresh k s.dirs s.mem x)
    (hc : Counts p (x ::ₘ (targets (refs k s.dirs) (target s.mem) + L)))
    (htot : p.totalFrames = s.pmm.totalFrames) {s' : Vm}
    (hs' : s' = ⟨(s.mem.setPage x (s.mem (frameOf e))).setWord (frameOf (s.mem dst di)) ti (x ||| flagsOf e), p,
      s.dirs⟩) :
    Booked k L s' ∧ PageDone k src dst di ti s s' ∧ target s'.mem (.page dst di ti) = some x := by
  subst hs'
  have hag := hf.setPage_agree (s.mem (frameOf e))
  have hsame : ∀ d ∈ spaces k s.dirs, SameSpace s.mem d (s.mem.setPage x (s.mem (frameOf e))) d :=
    fun d hd => hf.sameSpace (fun b hb => Function.update_of_ne hb _ _) hd
  have hx : s.mem.setPage x (s.mem (frameOf e)) x = s.mem (frameOf e) := Function.update_self ..
  have hd := (page_mem_refs.mp hr').1
  have hpf : isPresent (flagsOf e) = true := by
    rw [isPresent_bit, flagsOf_bit, ← isPresent_bit, (pteAt_some he).2.1]
    rfl
  have hed := hag.entry hd di
  have hl₁ := h.layout.agree hag
  have hp₁ : isPresent (s.mem.setPage x (s.mem (frameOf e)) dst di) = true := by rw [hed, hp]
  obtain ⟨hl, hc', hpte, hkeep⟩ := fillEntry (flagsOf e) hl₁ hr' hp₁ (hf.of_agree hag) (frameOf_flagsOf e) hpf
    (L := L) (by rw [hag.targets_eq]; exact hc)
  rw [hag.target_eq hr', target, habs, Option.map_none, single_none, add_zero] at hc'
  have hlow := hl₁.low_table hr' hp₁ (x ||| flagsOf e)
  rw [hed] at hl hc' hpte hkeep hlow
  refine ⟨⟨hl, hc'⟩, ⟨rfl, htot, fun b i hb hi => ?_, ?_, ?_, ?_, ?_⟩, ?_⟩
  · exact (hlow b i hb hi).trans (congrFun (Function.update_of_ne (hf.high_ne hb) _ _) i)
  · intro d hd' j
    rw [← hag.entry hd' j, ← hed]
    exact setPte_entry hl₁ hr' hp₁ hd' j
  · intro r hr hne
    rw [← hed]
    exact (setPte_target hl₁ hr' hp₁ hr hne).trans (hag.target_eq hr)
  · intro d j t hr₁ hne
    obtain ⟨hd', h₁, h₂, h₃⟩ := page_mem_refs.mp hr₁
    rw [← hed]
    exact (setPte_pageView_other hl₁ hr' hp₁ hr₁ hne).trans ((hsame d hd' j h₁ h₂).2 t h₃).symm
  · have hdir := setPte_entry (e := x ||| flagsOf e) hl₁ hr' hp₁ hd di
    rw [hed] at hdir
    rw [pageView_some hpte, pageView_some he, hdir, hfl, frameOf_or_flags hf.2.1 (frameOf_flagsOf e),
      settledFlags_copied hf.2.1, hkeep, hx]
  · rw [target_page hpte, frameOf_or_flags hf.2.1 (frameOf_flagsOf e)]

lemma Layout.count_le (h : Layout k dirs m) (f : Word) :
    (targets (refs k dirs) (target m)).count f ≤ dirs.length + 1 := by
  refine Sharing.count_le (refs_nodup h.nodup) Ref.space (spaces k dirs) (fun r hr _ => ?_)
    fun r hr r' hr' ht ht' hs => h.space_inj hr hr' ht ht' hs
  cases r with
  | dir d => exact List.mem_cons_of_mem _ (dir_mem_refs.mp hr)
  | tab d di => exact (tab_mem_refs.mp hr).1
  | page d di ti => exact (page_mem_refs.mp hr).1

lemma Layout.shared_readonly (h : Layout k dirs m) {r : Ref} {d' e' : Word} {j t : ℕ}
    (hr : r ∈ refs k dirs) (ht : target m r = some (frameOf e'))
    (hr' : Ref.page d' j t ∈ refs k dirs) (he' : pteAt m d' j t = some e')
    (hne : r ≠ .page d' j t) : isWritable e' = false := by
  by_contra hw
  rw [Bool.not_eq_false] at hw
  exact hne (h.exclusive d' j t e' hr' he' hw r hr ht)

structure Protected (k : BootDir) (dirs : List Word) (src : Word) (di ti : ℕ) (e : Word) (m m' : PhysMem) : Prop where
  layout : Layout k dirs m'
  low : LowSame k m m'
  entries : ∀ d ∈ spaces k dirs, ∀ j, m' d j = m d j
  pte : pteAt m' src di ti = some (sharedEntry e)
  rest : ∀ r ∈ refs k dirs, target m' r = target m r
  views : ∀ d j t, Ref.page d j t ∈ refs k dirs → pageView m' d j t = pageView m d j t

lemma Layout.protect (h : Layout k dirs m) (hr : Ref.page src di ti ∈ refs k dirs)
    (he : pteAt m src di ti = some e) :
    Protected k dirs src di ti e m (m.setWord (frameOf (m src di)) ti (sharedEntry e)) := by
  obtain ⟨hp, hpe, _⟩ := pteAt_some he
  have hte := target_page he
  have hpo : presentOnly (sharedEntry e) = some (sharedEntry e) :=
    presentOnly_of (by rw [isPresent_sharedEntry, hpe])
  have hat := (setPte_at (e := sharedEntry e) h hr hp).trans hpo
  refine ⟨h.setPte hr hp fun e' he' => ?_, h.low_table hr hp _, fun d hd j => setPte_entry h hr hp hd j, hat, ?_, ?_⟩
  · obtain rfl := Option.some.inj (hpo.symm.trans he')
    rw [frameOf_sharedEntry]
    refine ⟨(h.high _ hr _ hte).1, fun r hr₁ hne₁ ht₁ => ⟨?_, isWritable_sharedEntry e, ?_⟩⟩
    · exact (h.sharing _ hr r hr₁ _ hte ht₁).resolve_left (fun hh => hne₁ hh.symm)
    · rintro d' j t e'' rfl he''
      have hfe : frameOf e'' = frameOf e := Option.some.inj ((target_page he'').symm.trans ht₁)
      exact h.shared_readonly hr (by rw [hte, hfe]) hr₁ he'' (Ne.symm hne₁)
  · intro r hr'
    by_cases hne : r = .page src di ti
    · rw [hne, target_page hat, hte, frameOf_sharedEntry]
    · exact setPte_target h hr hp hr' hne
  · intro d j t hr'
    by_cases heq : d = src ∧ j = di ∧ t = ti
    · obtain ⟨rfl, rfl, rfl⟩ := heq
      rw [pageView_some hat, pageView_some he, frameOf_sharedEntry, settledFlags_sharedEntry,
        setPte_entry h hr hp (page_mem_refs.mp hr).1, setPte_content h hr hp hr hte]
    · exact setPte_pageView_other h hr hp hr' heq

lemma Layout.join (h : Layout k dirs m) (hr : Ref.page src di ti ∈ refs k dirs)
    (hr' : Ref.page dst di ti ∈ refs k dirs) (hp : isPresent (m dst di) = true)
    (he : pteAt m src di ti = some e) (hro : isWritable e = false) :
    Layout k dirs (m.setWord (frameOf (m dst di)) ti e) := by
  have hte := target_page he
  have hpo := presentOnly_of (pteAt_some he).2.1
  refine h.setPte hr' hp fun e' he' => ?_
  obtain rfl := Option.some.inj (hpo.symm.trans he')
  refine ⟨(h.high _ hr _ hte).1, fun r hr₁ hne₁ ht₁ => ⟨?_, hro, ?_⟩⟩
  · rcases h.sharing _ hr r hr₁ _ hte ht₁ with rfl | hs
    · exact ⟨rfl, rfl⟩
    · cases r <;> exact hs
  · rintro d' j t e'' rfl he''
    have hfe : frameOf e'' = frameOf e := Option.some.inj ((target_page he'').symm.trans ht₁)
    by_cases hsrc : Ref.page d' j t = .page src di ti
    · cases hsrc
      obtain rfl := Option.some.inj (he''.symm.trans he)
      exact hro
    · exact h.shared_readonly hr (by rw [hte, hfe]) hr₁ he'' (Ne.symm hsrc)

lemma Layout.share_done (h : Layout k s.dirs s.mem) (hr : Ref.page src di ti ∈ refs k s.dirs)
    (hr' : Ref.page dst di ti ∈ refs k s.dirs) (hp : isPresent (s.mem dst di) = true)
    (habs : pteAt s.mem dst di ti = none) (he : pteAt s.mem src di ti = some e)
    (hfl : flagsOf (s.mem dst di) = flagsOf (s.mem src di)) (htot : p.totalFrames = s.pmm.totalFrames) {s' : Vm}
    (hs' : s' = ⟨(s.mem.setWord (frameOf (s.mem src di)) ti (sharedEntry e)).setWord (frameOf (s.mem dst di)) ti
      (sharedEntry e), p, s.dirs⟩) :
    Layout k s.dirs s'.mem ∧ PageDone k src dst di ti s s' ∧
      targets (refs k s.dirs) (target s'.mem) = frameOf e ::ₘ targets (refs k s.dirs) (target s.mem) := by
  subst hs'
  have hprot := h.protect hr he
  have hds := (page_mem_refs.mp hr).1
  have hdd := (page_mem_refs.mp hr').1
  have hed := hprot.entries dst hdd di
  have hes := hprot.entries src hds di
  generalize s.mem.setWord (frameOf (s.mem src di)) ti (sharedEntry e) = m₁ at hprot hed hes ⊢
  rw [← hed] at hp hfl ⊢
  rw [← hes] at hfl
  have hro := isWritable_sharedEntry e
  have hpo := presentOnly_of (pteAt_some hprot.pte).2.1
  have hat := (setPte_at (e := sharedEntry e) hprot.layout hr' hp).trans hpo
  refine ⟨hprot.layout.join hr hr' hp hprot.pte hro,
    ⟨rfl, htot, fun b i hb hi => ?_, fun d hd j => ?_, fun r hr₁ hne => ?_,
    fun d j t hr₁ hne => ?_, ?_⟩, ?_⟩
  · exact (hprot.layout.low_table hr' hp _ b i hb hi).trans (hprot.low b i hb hi)
  · exact (setPte_entry hprot.layout hr' hp hd j).trans (hprot.entries d hd j)
  · exact (setPte_target hprot.layout hr' hp hr₁ hne).trans (hprot.rest r hr₁)
  · exact (setPte_pageView_other hprot.layout hr' hp hr₁ hne).trans (hprot.views d j t hr₁)
  · rw [← hprot.views _ _ _ hr, pageView_some hat, pageView_some hprot.pte,
      setPte_entry hprot.layout hr' hp hdd, hfl,
      setPte_content hprot.layout hr' hp hr (target_page hprot.pte)]
  · have ht := setPte_targets (e := sharedEntry e) hprot.layout hr' hp
    rw [hprot.rest _ hr', target, habs, hpo, Option.map_none, single_none, add_zero, Option.map_some, single_some,
      frameOf_sharedEntry, add_comm, Multiset.singleton_add, targets_congr hprot.rest] at ht
    exact ht

end page

section steps

variable {srcTab tab : Word}

lemma copyPage_step (h : Filling k L vm src dst di srcTab tab ti s) (ht : ti < 1024) :
    Outcome (Filling k L vm src dst di srcTab tab (ti + 1)) (fun s' => s' = s ∧ (pmmAlloc s.pmm).2 = 0)
      (copyPage srcTab tab s ti) := by
  cases hp : isPresent (s.mem srcTab ti) with
  | false =>
    simp only [copyPage, hp, Bool.not_false, if_true, outcome_ok]
    exact h.next_absent ht hp
  | true =>
    simp only [copyPage, hp, Bool.not_true, Bool.false_eq_true, if_false]
    obtain ⟨L', hL⟩ := h.cloning.books
    rcases hL.booked.counts.alloc with ⟨ha, _⟩ | ⟨p', x, ha, hne, hn, htot, hc⟩
    · rw [ha]
      exact .error ⟨rfl, rfl⟩
    rw [ha]
    simp only [if_neg hne, outcome_ok]
    have hf : Fresh k s.dirs s.mem x := fresh_of_counts hc hn fun _ hm => Multiset.mem_add.mpr (.inl hm)
    obtain ⟨hb, hd, hx⟩ :=
      hL.booked.copy_done (h.copy_ref ht) h.copy.1 (h.copy_absent ht) (h.source_pte hp) h.flags_eq hf
      hc htot (by rw [h.copy.2])
    refine h.next ht ⟨L', hb, hL.le, hL.whole, fun f hfL hm => ?_⟩ hd
    obtain ⟨r, hr, hr'⟩ := mem_targets.mp hm
    by_cases he : r = .page dst di ti
    · rw [he, hx] at hr'
      obtain rfl := Option.some.inj hr'
      exact (hn (Multiset.mem_add.mpr (.inr hfL))).elim
    · exact hL.spare f hfL (mem_targets.mpr ⟨r, hr, (hd.rest r hr he).symm.trans hr'⟩)

lemma Carried.incref (hL : Carried k L vm src L' s) {f : Word}
    (hf : f ∈ targets (refs k s.dirs) (target s.mem)) (hcount : (targets (refs k s.dirs) (target s.mem)).count f < 255)
    (hroom : Uncrowded k L vm src → (targets (refs k s.dirs) (target s.mem) + L).count f < 255) :
    ∃ L'', L'' ≤ L' ∧ (Uncrowded k L vm src → L'' = L) ∧
      Counts (pmmIncref s.pmm f) (f ::ₘ (targets (refs k s.dirs) (target s.mem) + L'')) ∧
      (pmmIncref s.pmm f).totalFrames = s.pmm.totalFrames := by
  have hmem : f ∈ targets (refs k s.dirs) (target s.mem) + L' := Multiset.mem_add.mpr (.inl hf)
  by_cases hfull : (targets (refs k s.dirs) (target s.mem) + L').count f < 255
  · obtain ⟨hc, htot⟩ := hL.booked.counts.incref hmem hfull
    exact ⟨L', le_rfl, hL.whole, hc, htot⟩
  · have hsame : pmmIncref s.pmm f = s.pmm := by
      obtain ⟨i, hi, rfl⟩ := hL.booked.counts.pool f hmem
      have him := hi.trans_le hL.booked.counts.total_le
      have hn : ¬ s.pmm.refcount i < 255 := by
        rw [hL.booked.counts.count i hi]
        exact hfull
      simp [pmmIncref, frameAddr_not_low him, frameIndex_frameAddr him, hn]
    have hl : f ∈ L' := by
      rw [← Multiset.count_pos]
      rw [Multiset.count_add] at hfull
      omega
    refine ⟨L'.erase f, Multiset.erase_le f L', fun hu => ?_, ?_, by rw [hsame]⟩
    · rw [hL.whole hu] at hfull
      exact (hfull (hroom hu)).elim
    · rw [← Multiset.add_cons, Multiset.cons_erase hl, hsame]
      exact hL.booked.counts

lemma sharePage_step (h : Filling k L vm src dst di srcTab tab ti s) (ht : ti < 1024)
    (hfew : ∀ f, target vm.mem (.page src di ti) = some f → (targets (refs k vm.dirs) (target vm.mem)).count f < 255) :
    Outcome (Filling k L vm src dst di srcTab tab (ti + 1)) (fun s' => s' = s ∧ (pmmAlloc s.pmm).2 = 0)
      (sharePage srcTab tab s ti) := by
  cases hp : isPresent (s.mem srcTab ti) with
  | false =>
    simp only [sharePage, hp, Bool.not_false, if_true, outcome_ok]
    exact h.next_absent ht hp
  | true =>
    simp only [sharePage, hp, Bool.not_true, Bool.false_eq_true, if_false, outcome_ok]
    obtain ⟨L', hL⟩ := h.cloning.books
    have hrv := h.source_ref ht
    have hr := h.cloning.refs_old hrv
    have he := h.source_pte hp
    have hold := (h.cloning.old _ hrv).symm.trans (target_page he)
    have hcount := h.count_eq ht (target_page he)
    have hmem : frameOf (s.mem srcTab ti) ∈ targets (refs k s.dirs) (target s.mem) :=
      mem_targets.mpr ⟨_, hr, target_page he⟩
    obtain ⟨L'', hle, hwhole, hc, htot⟩ := hL.incref hmem (by rw [hcount]; exact hfew _ hold) (fun hu => by
      have hlt := hu di ti _ hrv hold
      rw [Multiset.count_add] at hlt ⊢
      rw [hcount]
      exact hlt)
    obtain ⟨hl, hd, htgt⟩ :=
      hL.booked.layout.share_done hr (h.copy_ref ht) h.copy.1 (h.copy_absent ht) he h.flags_eq htot
      (by rw [h.source.2, h.copy.2])
    refine h.next ht ⟨L'', ⟨hl, ?_⟩, hle.trans hL.le, hwhole, fun f hfL hm => ?_⟩ hd
    · rw [← Multiset.cons_add, ← htgt] at hc
      exact hc
    · rw [show targets (refs k s.dirs) _ = _ from htgt] at hm
      rcases Multiset.mem_cons.mp hm with rfl | hm
      · exact mem_targets.mpr ⟨_, hrv, hold⟩
      · exact hL.spare f (Multiset.mem_of_le hle hfL) hm

end steps

/-! ### The loops -/

def PageSpec (k : BootDir) (L : Multiset Word) (vm : Vm) (src dst : Word)
    (page : Word → Word → Vm → ℕ → Except Vm Vm) : Prop :=
  ∀ di srcTab tab ti s, Filling k L vm src dst di srcTab tab ti s → ti < 1024 →
    Outcome (Filling k L vm src dst di srcTab tab (ti + 1)) (fun s' => s' = s ∧ (pmmAlloc s.pmm).2 = 0)
      (page srcTab tab s ti)

def Stuck (k : BootDir) (L : Multiset Word) (vm : Vm) (src dst : Word) (s : Vm) : Prop :=
  (∃ a di ti, Cloning k L vm src dst a di ti s) ∧ (pmmAlloc s.pmm).2 = 0

variable {page : Word → Word → Vm → ℕ → Except Vm Vm}

lemma fill_table (hpage : PageSpec k L vm src dst page) {srcTab tab : Word}
    (h : Filling k L vm src dst di srcTab tab 0 s) :
    Outcome (Filling k L vm src dst di srcTab tab 1024) (Stuck k L vm src dst)
      ((List.range 1024).foldlM (page srcTab tab) s) := by
  rw [List.range_eq_range']
  have hloop := foldlM_range (f := page srcTab tab) (Filling k L vm src dst di srcTab tab)
    (Stuck k L vm src dst) (a := 0) (n := 1024) h ?_
  · simpa using hloop
  · intro ti s' _ ht hs'
    apply (hpage di srcTab tab ti s' hs' (by omega)).mono (fun _ hh => hh)
    rintro s'' ⟨rfl, hx⟩
    exact ⟨⟨_, _, _, hs'.cloning⟩, hx⟩

lemma cloneEntry_step (hpage : PageSpec k L vm src dst page) (hsrc : src ∈ spaces k vm.dirs)
    (h₁ : 2 ≤ di) (h₂ : di < 1024) (h : Cloning k L vm src dst di di 0 s) :
    Outcome (Cloning k L vm src dst (di + 1) (di + 1) 0) (Stuck k L vm src dst)
      (cloneEntry page src dst s di) := by
  cases hp : isPresent (s.mem src di) with
  | false =>
    simp only [cloneEntry, hp, Bool.not_false, if_true, outcome_ok]
    exact h.skip hsrc h₁ h₂ hp
  | true =>
    simp only [cloneEntry, hp, Bool.not_true, Bool.false_eq_true, if_false]
    obtain ⟨L', hL⟩ := h.books
    rcases hL.booked.counts.alloc with ⟨ha, _⟩ | ⟨p', tab, ha, hne, hn, htot, hc⟩
    · rw [ha]
      exact .error ⟨⟨_, _, _, h⟩, by rw [ha]⟩
    rw [ha]
    simp only [if_neg hne]
    have hf : Fresh k s.dirs s.mem tab := fresh_of_counts hc hn fun _ hm => Multiset.mem_add.mpr (.inl hm)
    have hsp : src ≠ tab := fun he => hf.not_space (he ▸ h.space hsrc)
    have hsrc' : s.mem.setPage tab (fun _ => 0) src di = s.mem src di :=
      congrFun (Function.update_of_ne hsp _ _) di
    have hloop := fill_table hpage (h.addTable hsrc h₁ h₂ hp hL hn hc htot)
    rw [withTable] at hloop
    simp only [hsrc']
    exact hloop.mono (fun _ hh => hh.cloning.close) (fun _ hh => hh)

lemma Layout.destroy_same (h : Layout k dirs m) {d d' : Word} (hd : d ∈ dirs) (hkeep : ∀ b, b ≠ d → m' b = m b)
    (hd' : d' ∈ spaces k (dirs.erase d)) : SameSpace m d' m' d' := by
  refine (h.erase_agree hd hkeep).sameSpace ?_ hd'
  intro b j t f hr ht
  apply hkeep
  rintro rfl
  obtain ⟨hb, hj⟩ := page_mem_refs.mp hr
  have hb' : b ∈ spaces k dirs := List.cons_subset_cons _ List.erase_subset hb
  exact h.page_not_space (page_mem_refs.mpr ⟨hb', hj⟩) ht (List.mem_cons_of_mem _ hd)

structure Undone (k : BootDir) (L : Multiset Word) (vm : Vm) (src : Word) (vm' : Vm) : Prop where
  books : ∃ L', Carried k L vm src L' vm'
  dirs : vm'.dirs = vm.dirs
  total : vm'.pmm.totalFrames = vm.pmm.totalFrames
  same : ∀ d ∈ spaces k vm.dirs, SameSpace vm.mem d vm'.mem d
  old : ∀ r ∈ refs k vm.dirs, target vm'.mem r = target vm.mem r
  low : LowSame k vm.mem vm'.mem
  entries : ∀ d ∈ spaces k vm.dirs, ∀ j, vm'.mem d j = vm.mem d j

lemma Cloning.undo (h : Cloning k L vm src dst a di ti s) : Undone k L vm src (vmmDestroyDir k s dst) := by
  have hd : dst ∈ s.dirs := by
    rw [h.dirs]
    exact List.mem_cons_self
  have herase : s.dirs.erase dst = vm.dirs := by
    rw [h.dirs, List.erase_cons_head]
  obtain ⟨L', hL⟩ := h.books
  have hhigh := (h.layout.high (.dir dst) (dir_mem_refs.mpr hd) dst rfl).1
  obtain ⟨hdirs, hkeep, hl, hc, htot⟩ := h.layout.destroy hd hL.booked.counts
  have hag := h.layout.erase_agree hd hkeep
  rw [herase] at hdirs hl hc hag
  have hold : ∀ r ∈ refs k vm.dirs, target (vmmDestroyDir k s dst).mem r = target vm.mem r := fun r hr =>
    (hag.target_eq hr).trans (h.old r hr)
  refine ⟨⟨L', ⟨by rw [hdirs]; exact hl, by rw [hdirs]; exact hc⟩, hL.le, hL.whole, fun f _ hm => ?_⟩, hdirs,
    htot.trans h.total, fun d hd' => ?_, hold, fun b i hb hi => ?_,
    fun d hd' j => (congrFun (hkeep d (h.new_ne hd')) j).trans (h.entries d hd' j)⟩
  · rwa [hdirs, targets_congr hold] at hm
  · exact (h.same d hd').trans (h.layout.destroy_same hd hkeep (by rw [herase]; exact hd'))
  · refine (congrFun (hkeep b ?_) i).trans (h.low b i hb hi)
    rintro rfl
    exact hhigh hb

lemma Undone.refl (h : Booked k L vm) : Undone k L vm src vm :=
  ⟨⟨L, h, le_rfl, fun _ => rfl, fun _ _ hm => hm⟩, rfl, rfl, fun _ _ => SameSpace.refl _ _, fun _ _ => rfl,
    fun _ _ _ _ => rfl, fun _ _ _ => rfl⟩

lemma Booked.space_ne_zero (h : Booked k L vm) (hsrc : src ∈ spaces k vm.dirs) : src ≠ 0 := by
  rcases List.mem_cons.mp hsrc with rfl | hd
  · exact k.ne_zero
  · exact h.counts.ne_zero (Multiset.mem_add.mpr (.inl (mem_targets.mpr ⟨_, dir_mem_refs.mpr hd, rfl⟩)))

lemma Booked.cloneWith (h : Booked k L vm) (hsrc : src ∈ spaces k vm.dirs)
    (hpage : ∀ dst, PageSpec k L vm src dst page) :
    (∃ vm' dst, cloneWith k page vm src = (vm', dst) ∧ dst ≠ 0 ∧ Cloning k L vm src dst 1024 1024 0 vm') ∨
      ∃ vm', cloneWith k page vm src = (vm', 0) ∧ Undone k L vm src vm' ∧
        ((pmmAlloc vm.pmm).2 = 0 ∨ ∃ dst s, Stuck k L vm src dst s) := by
  rw [PyroOS.cloneWith, if_neg (h.space_ne_zero hsrc)]
  rcases h.create with ⟨hc, ha⟩ | ⟨p, dst, hc, hne, hf, hL, htot, hb⟩
  · rw [hc]
    exact .inr ⟨vm, rfl, .refl h, .inl ha⟩
  rw [hc]
  simp only [if_neg hne]
  have hloop := foldlM_range (f := cloneEntry page src dst)
    (fun di => Cloning k L vm src dst di di 0) (Stuck k L vm src dst) (a := 2) (n := 1022)
    (Cloning.start hf hL htot hb)
    (fun di s' h₁ h₂ hs' => cloneEntry_step (hpage dst) hsrc h₁ (by omega) hs')
  cases hres : (List.range' 2 1022).foldlM (cloneEntry page src dst) ⟨withDir k vm.mem dst, p, dst :: vm.dirs⟩ with
  | ok s' =>
    rw [hres, outcome_ok] at hloop
    exact .inl ⟨s', dst, rfl, hne, hloop⟩
  | error s' =>
    rw [hres, outcome_error] at hloop
    obtain ⟨⟨a, di, ti, hcl⟩, hx⟩ := hloop
    exact .inr ⟨_, rfl, hcl.undo, .inr ⟨dst, s', ⟨a, di, ti, hcl⟩, hx⟩⟩

lemma Booked.cloneDir (h : Booked k L vm) (hsrc : src ∈ spaces k vm.dirs) :
    (∃ vm' dst, vmmCloneDir k vm src = (vm', dst) ∧ dst ≠ 0 ∧ Cloning k L vm src dst 1024 1024 0 vm') ∨
      ∃ vm', vmmCloneDir k vm src = (vm', 0) ∧ Undone k L vm src vm' ∧
        ((pmmAlloc vm.pmm).2 = 0 ∨ ∃ dst s, Stuck k L vm src dst s) :=
  h.cloneWith hsrc fun _ _ _ _ _ _ hs ht => copyPage_step hs ht

lemma Booked.cloneCow (h : Booked k L vm) (hsrc : src ∈ spaces k vm.dirs)
    (hfew : ∀ di ti f, Ref.page src di ti ∈ refs k vm.dirs → target vm.mem (.page src di ti) = some f →
      (targets (refs k vm.dirs) (target vm.mem)).count f < 255) :
    (∃ vm' dst, vmmCloneCow k vm src = (vm', dst) ∧ dst ≠ 0 ∧ Cloning k L vm src dst 1024 1024 0 vm') ∨
      ∃ vm', vmmCloneCow k vm src = (vm', 0) ∧ Undone k L vm src vm' ∧
        ((pmmAlloc vm.pmm).2 = 0 ∨ ∃ dst s, Stuck k L vm src dst s) :=
  h.cloneWith hsrc fun _ _ _ _ _ _ hs ht => sharePage_step hs ht fun f hf => hfew _ _ f (hs.source_ref ht) hf

/-! ### Exact books -/

structure Cloned (k : BootDir) (vm vm' : Vm) (src dst : Word) : Prop where
  sound : Sound k vm'
  dirs : vm'.dirs = dst :: vm.dirs
  total : vm'.pmm.totalFrames = vm.pmm.totalFrames
  same : ∀ d ∈ spaces k vm.dirs, SameSpace vm.mem d vm'.mem d
  copy : SameSpace vm.mem src vm'.mem dst

lemma Sound.destroy_same (h : Sound k vm) {d d' : Word} (hd : d ∈ vm.dirs)
    (hd' : d' ∈ spaces k (vm.dirs.erase d)) : SameSpace vm.mem d' (vmmDestroyDir k vm d).mem d' :=
  h.layout.destroy_same hd (h.destroy hd).keep hd'

lemma Cloning.sound (h : Cloning k 0 vm src dst a di ti s) : Sound k s := by
  obtain ⟨L', hL⟩ := h.books
  exact hL.sound

lemma Cloning.cloned (h : Cloning k 0 vm src dst 1024 1024 0 s) : Cloned k vm s src dst :=
  ⟨h.sound, h.dirs, h.total, h.same, h.finish⟩

lemma Undone.invisible (h : Undone k 0 vm src vm') : Invisible k vm vm' := by
  obtain ⟨L', hL⟩ := h.books
  exact ⟨hL.sound, h.dirs, h.total, h.same⟩

lemma Sound.cloneDir (h : Sound k vm) (hsrc : src ∈ spaces k vm.dirs) :
    (∃ vm' dst, vmmCloneDir k vm src = (vm', dst) ∧ dst ≠ 0 ∧ Cloned k vm vm' src dst) ∨
      ∃ vm', vmmCloneDir k vm src = (vm', 0) ∧ Invisible k vm vm' ∧
        (Exhausted k vm ∨ ∃ dst s, Stuck k 0 vm src dst s) := by
  rcases h.booked.cloneDir hsrc with ⟨vm', dst, hc, hne, hcl⟩ | ⟨vm', hc, hun, hx⟩
  · exact .inl ⟨vm', dst, hc, hne, hcl.cloned⟩
  · exact .inr ⟨vm', hc, hun.invisible, hx.imp_left h.exhausted⟩

lemma Sound.cloneCow (h : Sound k vm) (hsrc : src ∈ spaces k vm.dirs) (hlen : vm.dirs.length ≤ 15) :
    (∃ vm' dst, vmmCloneCow k vm src = (vm', dst) ∧ dst ≠ 0 ∧ Cloned k vm vm' src dst) ∨
      ∃ vm', vmmCloneCow k vm src = (vm', 0) ∧ Invisible k vm vm' := by
  rcases h.booked.cloneCow hsrc fun _ _ f _ _ => lt_of_le_of_lt (h.layout.count_le f) (by omega) with
    ⟨vm', dst, hc, hne, hcl⟩ | ⟨vm', hc, hun, _⟩
  · exact .inl ⟨vm', dst, hc, hne, hcl.cloned⟩
  · exact .inr ⟨vm', hc, hun.invisible⟩

end PyroOS
