import PyroOS.Memory.Space

/-! What an address space shows at each page, with copy-on-write entries read as the writable
entries they stand for. -/

namespace PyroOS

open Sharing

variable {k : BootDir} {dirs : List Word} {m m' : PhysMem}

def settledFlags (e : Word) : Word := if isCow e then reclaimedFlags e else flagsOf e

def tableView (m : PhysMem) (d : Word) (di : ℕ) : Option Word :=
  if isPresent (m d di) then some (flagsOf (m d di)) else none

def pageView (m : PhysMem) (d : Word) (di ti : ℕ) : Option (Word × Word × (ℕ → Word)) :=
  (pteAt m d di ti).map fun e => (flagsOf (m d di), settledFlags e, m (frameOf e))

def SameSpace (m : PhysMem) (d : Word) (m' : PhysMem) (d' : Word) : Prop :=
  ∀ di, 2 ≤ di → di < 1024 → tableView m d di = tableView m' d' di ∧
    ∀ ti < 1024, pageView m d di ti = pageView m' d' di ti

namespace SameSpace

variable {d d' d'' : Word} {m'' : PhysMem}

lemma refl (m : PhysMem) (d : Word) : SameSpace m d m d := fun _ _ _ => ⟨rfl, fun _ _ => rfl⟩

lemma symm (h : SameSpace m d m' d') : SameSpace m' d' m d := fun di h₁ h₂ =>
  ⟨(h di h₁ h₂).1.symm, fun ti ht => ((h di h₁ h₂).2 ti ht).symm⟩

lemma trans (h : SameSpace m d m' d') (h' : SameSpace m' d' m'' d'') : SameSpace m d m'' d'' :=
  fun di h₁ h₂ => ⟨(h di h₁ h₂).1.trans (h' di h₁ h₂).1,
    fun ti ht => ((h di h₁ h₂).2 ti ht).trans ((h' di h₁ h₂).2 ti ht)⟩

end SameSpace

lemma settledFlags_bit (e : Word) {i : ℕ} (hi : i < 32) : (settledFlags e).getLsbD i =
    ((decide (i < 12) && e.getLsbD i && decide (i ≠ 9)) || (decide (i = 1) && e.getLsbD 9)) := by
  rw [settledFlags, isCow_bit]
  cases hc : e.getLsbD 9 with
  | true => rw [if_pos rfl, reclaimedFlags_bit e hi, Bool.and_true]
  | false =>
    rw [if_neg Bool.false_ne_true, flagsOf_bit, Bool.and_false, Bool.or_false]
    by_cases h : i = 9
    · rw [h, hc]
      rfl
    · simp only [ne_eq, h, not_false_eq_true, decide_true, Bool.and_true]

lemma settledFlags_sharedEntry (e : Word) : settledFlags (sharedEntry e) = settledFlags e := by
  apply BitVec.eq_of_getLsbD_eq
  intro i hi
  rw [settledFlags_bit _ hi, settledFlags_bit _ hi, sharedEntry_bit e hi,
    sharedEntry_bit e (show 9 < 32 by omega)]
  by_cases h₁ : i = 1
  · subst h₁
    cases e.getLsbD 1 <;> cases e.getLsbD 9 <;> rfl
  · by_cases h₂ : i = 9
    · subst h₂
      cases e.getLsbD 1 <;> cases e.getLsbD 9 <;> rfl
    · simp only [ne_eq, h₁, h₂, not_false_eq_true, decide_true, decide_false, Bool.and_true,
        Bool.and_false, Bool.or_false, Bool.false_and]

lemma flags_or {a fl : Word} (ha : Aligned a) (hf : frameOf fl = 0) :
    flagsOf (a ||| fl) = fl := by
  apply BitVec.eq_of_getLsbD_eq
  intro i hi
  rw [flagsOf_bit]
  by_cases h : i < 12
  · simp only [h, or_flags_bit ha h, decide_true, Bool.true_and]
  · have hz := congrArg (fun x => BitVec.getLsbD x i) hf
    simp only [frameOf_bit, show 12 ≤ i by omega, decide_true, Bool.true_and, BitVec.ofNat_eq_ofNat,
      BitVec.getLsbD_zero] at hz
    simp only [h, decide_false, Bool.false_and, hz]

lemma settledFlags_or {a fl : Word} (ha : Aligned a) : settledFlags (a ||| fl) = settledFlags fl := by
  apply BitVec.eq_of_getLsbD_eq
  intro i hi
  rw [settledFlags_bit _ hi, settledFlags_bit _ hi, or_flags_bit ha (show 9 < 12 by omega)]
  by_cases h : i < 12
  · rw [or_flags_bit ha h]
  · simp only [h, decide_false, Bool.false_and]

lemma reclaimed_flags {a e : Word} (ha : Aligned a) :
    isPresent (a ||| reclaimedFlags e) = isPresent e ∧ isWritable (a ||| reclaimedFlags e) = true ∧
      isCow (a ||| reclaimedFlags e) = false := by
  refine ⟨?_, ?_, ?_⟩
  · rw [isPresent_bit, or_flags_bit ha (by omega), reclaimedFlags_bit e (by omega), isPresent_bit]
    cases e.getLsbD 0 <;> rfl
  · rw [isWritable_bit, or_flags_bit ha (by omega), reclaimedFlags_bit e (by omega)]
    simp
  · rw [isCow_bit, or_flags_bit ha (by omega), reclaimedFlags_bit e (by omega)]
    simp

lemma settledFlags_reclaimed {a e : Word} (ha : Aligned a) (hc : isCow e = true) :
    settledFlags (a ||| reclaimedFlags e) = settledFlags e := by
  obtain ⟨_, _, h₃⟩ := reclaimed_flags (e := e) ha
  rw [settledFlags, settledFlags, h₃, hc, flags_or ha (frameOf_reclaimedFlags e)]
  rfl

lemma settledFlags_flagsOf (e : Word) : settledFlags (flagsOf e) = settledFlags e := by
  apply BitVec.eq_of_getLsbD_eq
  intro i hi
  rw [settledFlags_bit _ hi, settledFlags_bit _ hi, flagsOf_bit, flagsOf_bit]
  cases decide (i < 12) <;> simp only [Bool.false_and, Bool.true_and] <;> rfl

lemma settledFlags_copied {a e : Word} (ha : Aligned a) :
    settledFlags (a ||| flagsOf e) = settledFlags e := by
  rw [settledFlags_or ha, settledFlags_flagsOf]

lemma pageView_some {d : Word} {di ti : ℕ} {e : Word} (h : pteAt m d di ti = some e) :
    pageView m d di ti = some (flagsOf (m d di), settledFlags e, m (frameOf e)) := by
  simp [pageView, h]

lemma pageView_none {d : Word} {di ti : ℕ} (h : pteAt m d di ti = none) :
    pageView m d di ti = none := by
  simp [pageView, h]

lemma Agree.sameSpace (ha : Agree k dirs m m')
    (hc : ∀ d di ti f, Ref.page d di ti ∈ refs k dirs → target m (.page d di ti) = some f → m' f = m f)
    {d : Word} (hd : d ∈ spaces k dirs) : SameSpace m d m' d := by
  intro di h₁ h₂
  have hr : Ref.tab d di ∈ refs k dirs := tab_mem_refs.mpr ⟨hd, h₁, h₂⟩
  refine ⟨by simp only [tableView, ha.entry hd], ?_⟩
  intro ti hti
  rw [pageView, pageView, ha.pte hr, ha.entry hd]
  cases he : pteAt m d di ti with
  | none => rfl
  | some e =>
    simp only [Option.map_some]
    rw [hc d di ti _ (page_mem_refs.mpr ⟨hd, h₁, h₂, hti⟩) (target_page he)]

lemma Fresh.sameSpace {a : Word} (h : Fresh k dirs m a) (hm : ∀ b, b ≠ a → m' b = m b) {d : Word}
    (hd : d ∈ spaces k dirs) : SameSpace m d m' d := by
  refine Agree.sameSpace ⟨?_, ?_⟩ ?_ hd
  · exact fun b hb => hm b (fun he => h.not_space (he ▸ hb))
  · exact fun b di f hr ht => hm f (fun he => h.2.2 _ hr (he ▸ ht))
  · exact fun b di ti f hr ht => hm f (fun he => h.2.2 _ hr (he ▸ ht))

section setPte

variable {d e : Word} {di ti : ℕ}

lemma setPte_content (h : Layout k dirs m) (hr : Ref.page d di ti ∈ refs k dirs)
    (hp : isPresent (m d di) = true) {d' f : Word} {di' ti' : ℕ}
    (hr' : Ref.page d' di' ti' ∈ refs k dirs) (ht : target m (.page d' di' ti') = some f) :
    m.setWord (frameOf (m d di)) ti e f = m f := by
  apply setWord_page
  intro he
  exact h.page_not_table hr' ht (tab_of_page hr) (by rw [target_tab hp, he])

lemma setPte_tableView (h : Layout k dirs m) (hr : Ref.page d di ti ∈ refs k dirs)
    (hp : isPresent (m d di) = true) {d' : Word} (hd' : d' ∈ spaces k dirs) (di' : ℕ) :
    tableView (m.setWord (frameOf (m d di)) ti e) d' di' = tableView m d' di' := by
  simp only [tableView, setPte_entry h hr hp hd']

lemma setPte_pageView_other (h : Layout k dirs m) (hr : Ref.page d di ti ∈ refs k dirs)
    (hp : isPresent (m d di) = true) {d' : Word} {di' ti' : ℕ}
    (hr' : Ref.page d' di' ti' ∈ refs k dirs) (hne : ¬ (d' = d ∧ di' = di ∧ ti' = ti)) :
    pageView (m.setWord (frameOf (m d di)) ti e) d' di' ti' = pageView m d' di' ti' := by
  rw [pageView, pageView, setPte_other h hr hp (tab_of_page hr') hne,
    setPte_entry h hr hp (page_mem_refs.mp hr').1]
  cases he : pteAt m d' di' ti' with
  | none => rfl
  | some e' => simp only [Option.map_some, setPte_content h hr hp hr' (target_page he)]

lemma setPte_sameSpace (h : Layout k dirs m) (hr : Ref.page d di ti ∈ refs k dirs)
    (hp : isPresent (m d di) = true)
    (hv : pageView (m.setWord (frameOf (m d di)) ti e) d di ti = pageView m d di ti) {d' : Word}
    (hd' : d' ∈ spaces k dirs) : SameSpace m d' (m.setWord (frameOf (m d di)) ti e) d' := by
  intro di' h₁ h₂
  refine ⟨(setPte_tableView h hr hp hd' di').symm, ?_⟩
  intro ti' hti'
  by_cases hne : d' = d ∧ di' = di ∧ ti' = ti
  · obtain ⟨rfl, rfl, rfl⟩ := hne
    exact hv.symm
  · exact (setPte_pageView_other h hr hp (page_mem_refs.mpr ⟨hd', h₁, h₂, hti'⟩) hne).symm

end setPte

end PyroOS
