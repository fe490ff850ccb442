import Mathlib

/-! Holders that may each refer to one shared object, counted with multiplicity. -/

namespace Sharing

variable {ι φ κ : Type*}

def targets (l : List ι) (t : ι → Option φ) : Multiset φ := ↑(l.filterMap t)

def single : Option φ → Multiset φ
  | none => 0
  | some a => {a}

@[simp] lemma single_none : single (none : Option φ) = 0 := rfl
@[simp] lemma single_some (a : φ) : single (some a) = {a} := rfl

@[simp] lemma targets_nil (t : ι → Option φ) : targets [] t = 0 := rfl

lemma targets_cons (r : ι) (l : List ι) (t : ι → Option φ) :
    targets (r :: l) t = single (t r) + targets l t := by
  cases h : t r <;> simp [targets, h, ← Multiset.singleton_add, ← Multiset.cons_coe]

lemma targets_append (l l' : List ι) (t : ι → Option φ) :
    targets (l ++ l') t = targets l t + targets l' t := by
  simp [targets, List.filterMap_append, ← Multiset.coe_add]

lemma targets_perm {l l' : List ι} (h : l.Perm l') (t : ι → Option φ) :
    targets l t = targets l' t :=
  Multiset.coe_eq_coe.mpr (h.filterMap t)

lemma mem_targets {l : List ι} {t : ι → Option φ} {f : φ} :
    f ∈ targets l t ↔ ∃ r ∈ l, t r = some f := by
  simp [targets]

lemma targets_congr {l : List ι} {t t' : ι → Option φ} (h : ∀ r ∈ l, t' r = t r) :
    targets l t' = targets l t := by
  rw [targets, targets, List.filterMap_congr h]

lemma targets_eq_zero {l : List ι} {t : ι → Option φ} (h : ∀ r ∈ l, t r = none) :
    targets l t = 0 := by
  rw [Multiset.eq_zero_iff_forall_notMem]
  intro f hf
  obtain ⟨r, hr, ht⟩ := mem_targets.mp hf
  simp [h r hr] at ht

lemma targets_redirect {l : List ι} (hl : l.Nodup) {t t' : ι → Option φ} {r : ι} (hr : r ∈ l)
    (h : ∀ r' ∈ l, r' ≠ r → t' r' = t r') :
    targets l t' + single (t r) = targets l t + single (t' r) := by
  induction l with
  | nil => simp at hr
  | cons a l ih =>
    obtain ⟨hna, hnl⟩ := List.nodup_cons.mp hl
    rw [targets_cons, targets_cons]
    by_cases ha : a = r
    · subst ha
      rw [targets_congr (fun r' hr' => h r' (List.mem_cons_of_mem _ hr') (by rintro rfl; exact hna hr'))]
      abel
    · have hr' : r ∈ l := (List.mem_cons.mp hr).resolve_left (Ne.symm ha)
      rw [h a List.mem_cons_self ha, add_assoc, add_assoc,
        ih hnl hr' (fun r' hm => h r' (List.mem_cons_of_mem _ hm))]

lemma card_targets (l : List ι) (t : ι → Option φ) :
    Multiset.card (targets l t) = l.countP fun r => (t r).isSome := by
  rw [targets, Multiset.coe_card, List.length_filterMap_eq_countP]

variable [DecidableEq φ]

lemma count_targets (l : List ι) (t : ι → Option φ) (f : φ) :
    (targets l t).count f = l.countP (fun r => decide (t r = some f)) := by
  induction l with
  | nil => rfl
  | cons a l ih =>
    rw [targets_cons, Multiset.count_add, ih, List.countP_cons]
    cases h : t a with
    | none => simp
    | some b =>
      by_cases hb : b = f
      · simp [hb, add_comm]
      · simp [hb, Ne.symm hb]

lemma count_one {l : List ι} (hl : l.Nodup) {t : ι → Option φ} {r : ι} {f : φ} (hr : r ∈ l)
    (ht : t r = some f) (h : ∀ r' ∈ l, t r' = some f → r' = r) : (targets l t).count f = 1 := by
  classical
  rw [count_targets, List.countP_congr (q := fun r' => decide (r' = r))]
  · have hh := List.count_eq_one_of_mem hl hr
    rw [List.count] at hh
    convert hh using 2
    funext r'
    exact (beq_eq_decide r' r).symm
  · intro r' hr'
    simp only [decide_eq_true_eq]
    exact ⟨h r' hr', fun he => he ▸ ht⟩

lemma unique_of_count {l : List ι} {t : ι → Option φ} {r r' : ι} {f : φ}
    (h : (targets l t).count f ≤ 1) (hr : r ∈ l) (hr' : r' ∈ l) (ht : t r = some f)
    (ht' : t r' = some f) : r = r' := by
  induction l with
  | nil => simp at hr
  | cons a l ih =>
    rw [targets_cons, Multiset.count_add] at h
    have hone : ∀ q ∈ l, t q = some f → 1 ≤ (targets l t).count f := fun q hq he =>
      Multiset.one_le_count_iff_mem.mpr (mem_targets.mpr ⟨q, hq, he⟩)
    have hhead : ∀ q, t q = some f → (single (t q)).count f = 1 := fun q he => by simp [he]
    rcases List.mem_cons.mp hr with hra | hra <;> rcases List.mem_cons.mp hr' with hra' | hra'
    · rw [hra, hra']
    · have h₁ := hhead a (hra ▸ ht)
      have h₂ := hone r' hra' ht'
      omega
    · have h₁ := hhead a (hra' ▸ ht')
      have h₂ := hone r hra ht
      omega
    · exact ih (by omega) hra hra'

lemma count_le {l : List ι} (hl : l.Nodup) {t : ι → Option φ} {f : φ} (key : ι → κ) (keys : List κ)
    (hmem : ∀ r ∈ l, t r = some f → key r ∈ keys)
    (hinj : ∀ r ∈ l, ∀ r' ∈ l, t r = some f → t r' = some f → key r = key r' → r = r') :
    (targets l t).count f ≤ keys.length := by
  rw [count_targets, List.countP_eq_length_filter]
  set held := l.filter (fun r => decide (t r = some f)) with hheld
  have hm : ∀ r ∈ held, r ∈ l ∧ t r = some f := by
    intro r hr
    simpa [hheld] using hr
  have hnod : (held.map key).Nodup :=
    (hl.filter _).map_on (fun r hr r' hr' he =>
      hinj r (hm r hr).1 r' (hm r' hr').1 (hm r hr).2 (hm r' hr').2 he)
  have hsub : held.map key ⊆ keys := by
    intro x hx
    obtain ⟨r, hr, rfl⟩ := List.mem_map.mp hx
    exact hmem r (hm r hr).1 (hm r hr).2
  simpa using (hnod.subperm hsub).length_le

end Sharing
