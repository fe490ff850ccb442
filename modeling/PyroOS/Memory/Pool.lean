import Mathlib.Data.Finset.Sort
import PyroOS.Memory.Pmm

/-! The frame allocator under any sequence of calls, whatever their arguments. -/

namespace PyroOS

def pmmFreeFrames (p : Pmm) : ℕ := p.totalFrames - p.usedFrames

inductive PmmCall where
  | alloc
  | free (phys : Word)
  | incref (phys : Word)

def PmmCall.apply (p : Pmm) : PmmCall → Pmm
  | .alloc => (pmmAlloc p).1
  | .free phys => pmmFree p phys
  | .incref phys => pmmIncref p phys

def Pmm.calls (p : Pmm) (l : List PmmCall) : Pmm := l.foldl PmmCall.apply p

def pmmAllocs : ℕ → Pmm → List Word
  | 0, _ => []
  | n + 1, p => (pmmAlloc p).2 :: pmmAllocs n (pmmAlloc p).1

def Pmm.setBits (p : Pmm) : Finset ℕ := (Finset.range maxFrames).filter fun i => p.bitmap i = true

def Pmm.freeSet (p : Pmm) : Finset ℕ := (Finset.range p.totalFrames).filter fun i => p.bitmap i = false

@[simp] lemma Pmm.mem_freeSet {p : Pmm} {i : ℕ} : i ∈ p.freeSet ↔ i < p.totalFrames ∧ p.bitmap i = false := by
  rw [Pmm.freeSet, Finset.mem_filter, Finset.mem_range]

lemma Pmm.freeSet_eq_empty {p : Pmm} (h : ∀ i < p.totalFrames, p.bitmap i = true) : p.freeSet = ∅ := by
  ext i
  simpa using h i

def InFrame (i : ℕ) (phys : Word) : Prop := ¬ phys < managedBase ∧ frameIndex phys = i

instance (i : ℕ) (phys : Word) : Decidable (InFrame i phys) := inferInstanceAs (Decidable (_ ∧ _))

structure Pmm.Tidy (p : Pmm) : Prop where
  total_le : p.totalFrames ≤ maxFrames
  used : p.usedFrames = p.setBits.card
  below : ∀ i, p.bitmap i = true → i < p.totalFrames
  bit : ∀ i, p.bitmap i = true ↔ 1 ≤ p.refcount i
  count_le : ∀ i, p.refcount i ≤ 255
  hint_le : p.nextHint ≤ p.totalFrames
  hint : ∀ i < p.nextHint, p.bitmap i = true

variable {p q : Pmm} {i j : ℕ} {phys : Word} {l : List PmmCall}

lemma scanFrames_least {bitmap : ℕ → Bool} {n k : ℕ} (h : scanFrames bitmap n i = some k) (hi : i ≤ j) (hj : j < k) :
    bitmap j = true := by
  induction n generalizing i with
  | zero => simp [scanFrames] at h
  | succ n ih =>
    rw [scanFrames] at h
    split at h
    · rename_i hb
      by_cases he : j = i
      · rw [he, hb]
      · exact ih h (by omega)
    · obtain rfl := Option.some.inj h
      omega

namespace Pmm.Tidy

lemma install (memBytes : Word) : (pmmInstall memBytes).Tidy := by
  refine ⟨(pmmInstall_counts memBytes).total_le, ?_, by simp [pmmInstall], by simp [pmmInstall], by simp [pmmInstall],
    Nat.zero_le _, by simp [pmmInstall]⟩
  simp [Pmm.setBits, pmmInstall]

lemma mem_setBits (h : p.Tidy) : i ∈ p.setBits ↔ p.bitmap i = true := by
  rw [Pmm.setBits, Finset.mem_filter, Finset.mem_range]
  exact ⟨And.right, fun hb => ⟨(h.below i hb).trans_le h.total_le, hb⟩⟩

lemma refcount_zero (h : p.Tidy) (hb : p.bitmap i = false) : p.refcount i = 0 := by
  have hn := (h.bit i).not.mp (by simp [hb])
  omega

/-! ### One call -/

lemma take (h : p.Tidy) (hi : i < p.totalFrames) (hb : p.bitmap i = false) (hlow : ∀ j < i, p.bitmap j = true) :
    (p.take i).Tidy := by
  have hbits : (p.take i).setBits = insert i p.setBits := by
    ext j
    have him := hi.trans_le h.total_le
    simp only [Pmm.setBits, Pmm.take, Finset.mem_filter, Finset.mem_range, Finset.mem_insert, Function.update_apply]
    by_cases hj : j = i <;> simp [hj, him]
  have hnot : i ∉ p.setBits := fun hm => by simp [h.mem_setBits.mp hm] at hb
  refine ⟨h.total_le, ?_, fun j hj => ?_, fun j => ?_, fun j => ?_, hi, fun j hj => ?_⟩
  · rw [hbits, Finset.card_insert_of_notMem hnot, ← h.used]
    rfl
  · by_cases he : j = i
    · rw [he]
      exact hi
    · exact h.below j (by simpa [Pmm.take, he] using hj)
  · by_cases he : j = i
    · simp [Pmm.take, he]
    · simpa [Pmm.take, he] using h.bit j
  · by_cases he : j = i
    · simp [Pmm.take, he]
    · simpa [Pmm.take, he] using h.count_le j
  · have hj : j < i + 1 := hj
    by_cases he : j = i
    · simp [Pmm.take, he]
    · simpa [Pmm.take, he] using hlow j (by omega)

lemma alloc_cases (h : p.Tidy) : (pmmAlloc p = (p, 0) ∧ ∀ i < p.totalFrames, p.bitmap i = true) ∨
    ∃ i < p.totalFrames, p.bitmap i = false ∧ (∀ j < i, p.bitmap j = true) ∧ pmmAlloc p = (p.take i, frameAddr i) := by
  by_cases hz : p.totalFrames = 0
  · exact .inl ⟨by simp [pmmAlloc, hz], by omega⟩
  have hl := h.hint_le
  cases h₁ : scanFrames p.bitmap (p.totalFrames - p.nextHint) p.nextHint with
  | some i =>
    obtain ⟨hlo, hhi, hb⟩ := scanFrames_some h₁
    refine .inr ⟨i, by omega, hb, fun j hj => ?_, by simp [pmmAlloc, hz, h₁]⟩
    by_cases hh : j < p.nextHint
    · exact h.hint j hh
    · exact scanFrames_least h₁ (not_lt.mp hh) hj
  | none =>
    have h₂ : scanFrames p.bitmap p.nextHint 0 = none := by
      cases h₂ : scanFrames p.bitmap p.nextHint 0 with
      | none => rfl
      | some i =>
        obtain ⟨_, hi, hb⟩ := scanFrames_some h₂
        rw [h.hint i (by omega)] at hb
        cases hb
    refine .inl ⟨by simp [pmmAlloc, hz, h₁, h₂], fun i hi => ?_⟩
    by_cases hh : i < p.nextHint
    · exact h.hint i hh
    · exact scanFrames_none h₁ i (by omega) (by omega)

lemma alloc (h : p.Tidy) : (pmmAlloc p).1.Tidy := by
  rcases h.alloc_cases with ⟨ha, _⟩ | ⟨i, hi, hb, hlow, ha⟩
  · rw [ha]
    exact h
  · rw [ha]
    exact h.take hi hb hlow

lemma release (h : p.Tidy) (hb : p.bitmap i = true) : (p.release i).Tidy := by
  have hi := h.below i hb
  have hbits : (p.release i).setBits = p.setBits.erase i := by
    ext j
    simp only [Pmm.setBits, Pmm.release, Finset.mem_filter, Finset.mem_range, Finset.mem_erase, Function.update_apply]
    by_cases hj : j = i <;> simp [hj]
  have hhint : (p.release i).nextHint ≤ p.nextHint ∧ (p.release i).nextHint ≤ i := by
    dsimp only [Pmm.release]
    split <;> omega
  refine ⟨h.total_le, ?_, fun j hj => ?_, fun j => ?_, fun j => ?_, hhint.1.trans h.hint_le, fun j hj => ?_⟩
  · rw [hbits, Finset.card_erase_of_mem (h.mem_setBits.mpr hb), ← h.used]
    rfl
  · by_cases he : j = i
    · rw [he]
      exact hi
    · exact h.below j (by simpa [Pmm.release, he] using hj)
  · by_cases he : j = i
    · simp [Pmm.release, he]
    · simpa [Pmm.release, he] using h.bit j
  · by_cases he : j = i
    · simp [Pmm.release, he]
    · simpa [Pmm.release, he] using h.count_le j
  · have hne : j ≠ i := by omega
    simpa [Pmm.release, hne] using h.hint j (by omega)

lemma recount (h : p.Tidy) {c : ℕ} (hb : p.bitmap i = true) (hc : 1 ≤ c) (hc' : c ≤ 255) :
    Pmm.Tidy { p with refcount := Function.update p.refcount i c } := by
  refine ⟨h.total_le, h.used, h.below, fun j => ?_, fun j => ?_, h.hint_le, h.hint⟩
  · by_cases he : j = i
    · simp [he, hb, hc]
    · simpa [he] using h.bit j
  · by_cases he : j = i
    · simpa [he] using hc'
    · simpa [he] using h.count_le j

lemma free_cases (h : p.Tidy) (phys : Word) :
    (pmmFree p phys = p ∧ ∀ i, InFrame i phys → p.bitmap i = false) ∨
    ∃ i, InFrame i phys ∧ p.bitmap i = true ∧
      ((1 < p.refcount i ∧ pmmFree p phys = { p with refcount := Function.update p.refcount i (p.refcount i - 1) }) ∨
        p.refcount i = 1 ∧ pmmFree p phys = p.release i) := by
  by_cases hlow : phys < managedBase
  · exact .inl ⟨by simp [pmmFree, hlow], fun i hi => (hi.1 hlow).elim⟩
  cases hb : p.bitmap (frameIndex phys) with
  | false =>
    refine .inl ⟨by simp [pmmFree, hb], ?_⟩
    rintro _ ⟨_, rfl⟩
    exact hb
  | true =>
    have hi := h.below _ hb
    have hc := (h.bit _).mp hb
    refine .inr ⟨_, ⟨hlow, rfl⟩, hb, ?_⟩
    by_cases hmore : 1 < p.refcount (frameIndex phys)
    · exact .inl ⟨hmore, by simp [pmmFree, hlow, hb, hmore, not_le.mpr hi]⟩
    · exact .inr ⟨by omega, by simp [pmmFree, hlow, hb, hmore, not_le.mpr hi]⟩

lemma free (h : p.Tidy) (phys : Word) : (pmmFree p phys).Tidy := by
  rcases h.free_cases phys with ⟨hf, _⟩ | ⟨i, _, hb, ⟨hc, hf⟩ | ⟨_, hf⟩⟩
  · rw [hf]
    exact h
  · rw [hf]
    have hle := h.count_le i
    exact h.recount hb (by omega) (by omega)
  · rw [hf]
    exact h.release hb

lemma incref (h : p.Tidy) (phys : Word) : (pmmIncref p phys).Tidy := by
  rw [pmmIncref]
  split
  · exact h
  · dsimp only
    split
    · rename_i hc
      simp only [Bool.and_eq_true, decide_eq_true_eq] at hc
      exact h.recount hc.1.2 (by omega) (by omega)
    · exact h

lemma call (h : p.Tidy) (c : PmmCall) : (c.apply p).Tidy := by
  cases c with
  | alloc => exact h.alloc
  | free phys => exact h.free phys
  | incref phys => exact h.incref phys

lemma calls (h : p.Tidy) (l : List PmmCall) : (p.calls l).Tidy := by
  induction l generalizing p with
  | nil => exact h
  | cons c l ih => exact ih (h.call c)

/-! ### Free frames -/

lemma card_freeSet (h : p.Tidy) : p.freeSet.card = pmmFreeFrames p := by
  have hbits : p.setBits = (Finset.range p.totalFrames).filter fun i => p.bitmap i = true := by
    ext i
    rw [h.mem_setBits, Finset.mem_filter, Finset.mem_range]
    exact ⟨fun hb => ⟨h.below i hb, hb⟩, And.right⟩
  have hsum := Finset.card_filter_add_card_filter_not (s := Finset.range p.totalFrames) fun i => p.bitmap i = true
  rw [Finset.card_range, ← hbits, ← h.used] at hsum
  simp only [Bool.not_eq_true] at hsum
  rw [pmmFreeFrames, Pmm.freeSet]
  omega

lemma alloc_zero_iff (h : p.Tidy) : (pmmAlloc p).2 = 0 ↔ pmmFreeFrames p = 0 := by
  rw [← h.card_freeSet, Finset.card_eq_zero]
  rcases h.alloc_cases with ⟨ha, hfull⟩ | ⟨i, hi, hb, _, ha⟩
  · rw [ha]
    simpa using Pmm.freeSet_eq_empty hfull
  · have hne : frameAddr i ≠ 0 := fun hz => frameAddr_not_low (hi.trans_le h.total_le) (by rw [hz]; decide)
    have hmem : i ∈ p.freeSet := Pmm.mem_freeSet.mpr ⟨hi, hb⟩
    rw [ha]
    simp only [hne, false_iff]
    exact Finset.ne_empty_of_mem hmem

lemma allocs_eq (h : p.Tidy) : pmmAllocs (pmmFreeFrames p) p = p.freeSet.sort.map frameAddr := by
  rw [← h.card_freeSet]
  generalize hn : p.freeSet.card = n
  induction n generalizing p with
  | zero =>
    rw [Finset.card_eq_zero.mp hn]
    simp [pmmAllocs]
  | succ n ih =>
    rcases h.alloc_cases with ⟨_, hfull⟩ | ⟨i, hi, hb, hlow, ha⟩
    · rw [Pmm.freeSet_eq_empty hfull] at hn
      cases hn
    · have hset : p.freeSet = insert i (p.take i).freeSet := by
        ext j
        by_cases hj : j = i <;> simp [Pmm.take, hj, hi, hb]
      have hnot : i ∉ (p.take i).freeSet := by simp [Pmm.take]
      have hle : ∀ j ∈ (p.take i).freeSet, i ≤ j := by
        intro j hj
        by_contra hlt
        have hbit := hlow j (not_le.mp hlt)
        have hne : j ≠ i := by omega
        simp [Pmm.take, hne, hbit] at hj
      rw [hset, Finset.card_insert_of_notMem hnot, Nat.add_right_cancel_iff] at hn
      rw [pmmAllocs, ha, ih (h.take hi hb hlow) hn, hset, Finset.sort_insert _ hle hnot]
      rfl

lemma free_refcount (h : p.Tidy) (phys : Word) (i : ℕ) :
    (pmmFree p phys).refcount i = p.refcount i - if InFrame i phys then 1 else 0 := by
  rcases h.free_cases phys with ⟨hf, hb⟩ | ⟨j, hj, _, hcase⟩
  · rw [hf]
    split
    · rename_i hi
      rw [h.refcount_zero (hb i hi)]
    · rfl
  · have hi : InFrame i phys ↔ i = j := ⟨fun hi => hi.2.symm.trans hj.2, fun he => he ▸ hj⟩
    simp only [hi]
    rcases hcase with ⟨_, hf⟩ | ⟨hone, hf⟩
    · rw [hf]
      by_cases he : i = j <;> simp [he]
    · rw [hf]
      by_cases he : i = j
      · simp [Pmm.release, he, hone]
      · simp [Pmm.release, he]

lemma frees (h : p.Tidy) (l : List Word) : (l.foldl pmmFree p).Tidy ∧
    ∀ i, (l.foldl pmmFree p).refcount i = p.refcount i - l.countP fun x => decide (InFrame i x) := by
  induction l generalizing p with
  | nil => exact ⟨h, fun i => rfl⟩
  | cons x l ih =>
    obtain ⟨ht, hc⟩ := ih (h.free x)
    refine ⟨ht, fun i => ?_⟩
    rw [List.foldl_cons, hc, h.free_refcount, List.countP_cons, Nat.sub_sub, Nat.add_comm]
    simp only [decide_eq_true_eq]

lemma frees_total (l : List Word) : (l.foldl pmmFree p).totalFrames = p.totalFrames := by
  induction l generalizing p with
  | nil => rfl
  | cons x l ih =>
    rw [List.foldl_cons, ih]
    simp only [pmmFree]
    split
    · rfl
    · split
      · rfl
      · split <;> rfl

lemma mem_allocs (h : p.Tidy) (l : List Word) (hi : i < p.totalFrames)
    (hall : p.refcount i ≤ l.countP fun x => decide (InFrame i x)) :
    frameAddr i ∈ pmmAllocs (pmmFreeFrames (l.foldl pmmFree p)) (l.foldl pmmFree p) := by
  obtain ⟨ht, hc⟩ := h.frees l
  rw [ht.allocs_eq]
  refine List.mem_map_of_mem ((Finset.mem_sort _).mpr (Pmm.mem_freeSet.mpr ⟨?_, ?_⟩))
  · rwa [frees_total]
  · rw [← Bool.not_eq_true, (ht.bit i), hc]
    omega

end Pmm.Tidy

/-- From installation on, whatever is freed or shared: the bitmap, its count and the owners of each frame are in
step, no frame below the hint is free, the lowest free frame is handed out as long as there is one, and what is
given back can be handed out again. -/
theorem frame_allocator (memBytes : Word) (l : List PmmCall) :
    let p := (pmmInstall memBytes).calls l
    p.usedFrames = p.setBits.card ∧ (∀ i ∈ p.setBits, i < p.totalFrames) ∧
    (∀ i, p.bitmap i = true ↔ 1 ≤ p.refcount i) ∧
    (∀ i < p.totalFrames, p.bitmap i = false → p.nextHint ≤ i) ∧ p.nextHint ≤ p.totalFrames ∧
    (∀ i < p.totalFrames, p.bitmap i = false → (∀ j < i, p.bitmap j = true) → (pmmAlloc p).2 = frameAddr i) ∧
    ((pmmAlloc p).2 = 0 ↔ pmmFreeFrames p = 0) ∧
    ∀ (xs : List Word) (i : ℕ), i < p.totalFrames → p.refcount i ≤ xs.countP (fun x => decide (InFrame i x)) →
      frameAddr i ∈ pmmAllocs (pmmFreeFrames (xs.foldl pmmFree p)) (xs.foldl pmmFree p) := by
  intro p
  have h : p.Tidy := (Pmm.Tidy.install memBytes).calls l
  refine ⟨h.used, fun i hi => h.below i (h.mem_setBits.mp hi), h.bit, fun i _ hb => ?_, h.hint_le,
    fun i hi hb hlow => ?_, h.alloc_zero_iff, fun xs i hi hall => h.mem_allocs xs hi hall⟩
  · by_contra hlt
    rw [h.hint i (not_le.mp hlt)] at hb
    cases hb
  · rcases h.alloc_cases with ⟨_, hfull⟩ | ⟨j, _, hb', hlow', ha⟩
    · rw [hfull i hi] at hb
      cases hb
    · have hij : i = j := by
        rcases Nat.lt_trichotomy i j with hlt | he | hlt
        · rw [hlow' i hlt] at hb
          cases hb
        · exact he
        · rw [hlow j hlt] at hb'
          cases hb'
      rw [ha, hij]

end PyroOS
