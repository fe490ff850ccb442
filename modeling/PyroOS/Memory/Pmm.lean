import PyroOS.Memory.Word

/-! The physical memory manager: a bitmap of 4 KB frames with a count of owners for each. -/

namespace PyroOS

def managedBase : Word := 0x00400000
def maxFrames : ℕ := 32768

structure Pmm where
  bitmap : ℕ → Bool
  refcount : ℕ → ℕ
  totalFrames : ℕ
  usedFrames : ℕ
  nextHint : ℕ

def frameAddr (i : ℕ) : Word := managedBase + BitVec.ofNat 32 (i * pageSize)
def frameIndex (phys : Word) : ℕ := (phys - managedBase).toNat / pageSize

def pmmInstall (memBytes : Word) : Pmm where
  bitmap _ := false
  refcount _ := 0
  totalFrames :=
    if memBytes ≤ managedBase then 0
    else
      let frames := (memBytes - managedBase).toNat / pageSize
      if frames > maxFrames then maxFrames else frames
  usedFrames := 0
  nextHint := 0

def scanFrames (bitmap : ℕ → Bool) : ℕ → ℕ → Option ℕ
  | 0, _ => none
  | n + 1, i => if bitmap i then scanFrames bitmap n (i + 1) else some i

def Pmm.take (p : Pmm) (i : ℕ) : Pmm :=
  { p with
    bitmap := Function.update p.bitmap i true
    refcount := Function.update p.refcount i 1
    usedFrames := p.usedFrames + 1
    nextHint := i + 1 }

def pmmAlloc (p : Pmm) : Pmm × Word :=
  if p.totalFrames = 0 then (p, 0)
  else
    match scanFrames p.bitmap (p.totalFrames - p.nextHint) p.nextHint with
    | some i => (p.take i, frameAddr i)
    | none =>
      match scanFrames p.bitmap p.nextHint 0 with
      | some i => (p.take i, frameAddr i)
      | none => (p, 0)

def Pmm.release (p : Pmm) (i : ℕ) : Pmm :=
  { p with
    bitmap := Function.update p.bitmap i false
    refcount := Function.update p.refcount i 0
    usedFrames := p.usedFrames - 1
    nextHint := if i < p.nextHint then i else p.nextHint }

def pmmFree (p : Pmm) (phys : Word) : Pmm :=
  if phys < managedBase then p
  else
    let i := frameIndex phys
    if i ≥ p.totalFrames || !p.bitmap i then p
    else if p.refcount i > 1 then
      { p with refcount := Function.update p.refcount i (p.refcount i - 1) }
    else p.release i

def pmmIncref (p : Pmm) (phys : Word) : Pmm :=
  if phys < managedBase then p
  else
    let i := frameIndex phys
    if i < p.totalFrames && p.bitmap i && decide (p.refcount i < 255) then
      { p with refcount := Function.update p.refcount i (p.refcount i + 1) }
    else p

def pmmRefcount (p : Pmm) (phys : Word) : ℕ :=
  if phys < managedBase then 0
  else
    let i := frameIndex phys
    if i < p.totalFrames then p.refcount i else 0

lemma frameAddr_toNat {i : ℕ} (hi : i < maxFrames) :
    (frameAddr i).toNat = 0x400000 + i * 4096 := by
  simp only [maxFrames] at hi
  simp only [frameAddr, managedBase, pageSize, BitVec.toNat_add, BitVec.toNat_ofNat,
    BitVec.ofNat_eq_ofNat]
  omega

lemma frameAddr_inj {i j : ℕ} (hi : i < maxFrames) (hj : j < maxFrames)
    (h : frameAddr i = frameAddr j) : i = j := by
  have hh := congrArg BitVec.toNat h
  rw [frameAddr_toNat hi, frameAddr_toNat hj] at hh
  omega

lemma frameIndex_frameAddr {i : ℕ} (hi : i < maxFrames) : frameIndex (frameAddr i) = i := by
  simp only [maxFrames] at hi
  simp only [frameIndex, frameAddr, managedBase, pageSize, BitVec.toNat_add, BitVec.toNat_sub,
    BitVec.toNat_ofNat, BitVec.ofNat_eq_ofNat]
  omega

lemma frameAddr_not_low {i : ℕ} (hi : i < maxFrames) : ¬ frameAddr i < managedBase := by
  rw [BitVec.lt_def, frameAddr_toNat hi]
  simp only [managedBase, BitVec.ofNat_eq_ofNat, BitVec.toNat_ofNat]
  omega

lemma aligned_ofNat (n : ℕ) : Aligned (BitVec.ofNat 32 (n * 4096)) := by
  apply BitVec.eq_of_getLsbD_eq
  intro j hj
  rw [frameOf_bit]
  by_cases h : 12 ≤ j
  · simp [h]
  · rw [show n * 4096 = 2 ^ 12 * n by omega, BitVec.getLsbD_ofNat, Nat.testBit_two_pow_mul]
    simp [h]

lemma frameAddr_aligned {i : ℕ} (hi : i < maxFrames) : Aligned (frameAddr i) := by
  have hm : frameAddr i = BitVec.ofNat 32 ((1024 + i) * 4096) := by
    apply BitVec.eq_of_toNat_eq
    rw [frameAddr_toNat hi, BitVec.toNat_ofNat]
    simp only [maxFrames] at hi
    omega
  rw [hm]
  exact aligned_ofNat _

lemma scanFrames_some {bitmap : ℕ → Bool} {n i k : ℕ} (h : scanFrames bitmap n i = some k) :
    i ≤ k ∧ k < i + n ∧ bitmap k = false := by
  induction n generalizing i with
  | zero => simp [scanFrames] at h
  | succ n ih =>
    rw [scanFrames] at h
    split at h
    · have hh := ih h
      exact ⟨by omega, by omega, hh.2.2⟩
    · rename_i hb
      obtain rfl := Option.some.inj h
      exact ⟨le_rfl, by omega, by simpa using hb⟩

lemma scanFrames_none {bitmap : ℕ → Bool} {n i : ℕ} (h : scanFrames bitmap n i = none) (k : ℕ)
    (hi : i ≤ k) (hk : k < i + n) : bitmap k = true := by
  induction n generalizing i with
  | zero => omega
  | succ n ih =>
    rw [scanFrames] at h
    split at h
    · rename_i hb
      by_cases he : k = i
      · rw [he, hb]
      · exact ih h (by omega) (by omega)
    · exact absurd h (by simp)

lemma pmmAlloc_total (p : Pmm) : (pmmAlloc p).1.totalFrames = p.totalFrames := by
  rw [pmmAlloc]
  split
  · rfl
  · split
    · rfl
    · split <;> rfl

structure Counts (p : Pmm) (R : Multiset Word) : Prop where
  total_le : p.totalFrames ≤ maxFrames
  hint_le : p.nextHint ≤ p.totalFrames
  pool : ∀ a ∈ R, ∃ i < p.totalFrames, a = frameAddr i
  count : ∀ i < p.totalFrames, p.refcount i = R.count (frameAddr i)
  bit : ∀ i < p.totalFrames, p.bitmap i = true ↔ frameAddr i ∈ R

namespace Counts

variable {p : Pmm} {R : Multiset Word}

lemma aligned (h : Counts p R) {a : Word} (ha : a ∈ R) : Aligned a := by
  obtain ⟨i, hi, rfl⟩ := h.pool a ha
  exact frameAddr_aligned (hi.trans_le h.total_le)

lemma not_low (h : Counts p R) {a : Word} (ha : a ∈ R) : ¬ a < managedBase := by
  obtain ⟨i, hi, rfl⟩ := h.pool a ha
  exact frameAddr_not_low (hi.trans_le h.total_le)

lemma ne_zero (h : Counts p R) {a : Word} (ha : a ∈ R) : a ≠ 0 := by
  rintro rfl
  exact h.not_low ha (by decide)

lemma take (h : Counts p R) {i : ℕ} (hi : i < p.totalFrames) (hb : p.bitmap i = false) :
    frameAddr i ∉ R ∧ Counts (p.take i) (frameAddr i ::ₘ R) := by
  have hn : frameAddr i ∉ R := fun hm => by simp [(h.bit i hi).mpr hm] at hb
  have hinj : ∀ j < p.totalFrames, frameAddr j = frameAddr i → j = i := fun j hj he =>
    frameAddr_inj (hj.trans_le h.total_le) (hi.trans_le h.total_le) he
  refine ⟨hn, h.total_le, hi, ?_, ?_, ?_⟩
  · intro a ha
    rcases Multiset.mem_cons.mp ha with rfl | ha
    · exact ⟨i, hi, rfl⟩
    · exact h.pool a ha
  · intro j hj
    by_cases he : j = i
    · subst he
      simp [Pmm.take, Multiset.count_eq_zero_of_notMem hn]
    · have hne : frameAddr j ≠ frameAddr i := fun hh => he (hinj j hj hh)
      simpa [Pmm.take, he, Multiset.count_cons_of_ne hne] using h.count j hj
  · intro j hj
    by_cases he : j = i
    · subst he
      simp [Pmm.take]
    · have hne : frameAddr j ≠ frameAddr i := fun hh => he (hinj j hj hh)
      simpa [Pmm.take, he, hne] using h.bit j hj

lemma alloc (h : Counts p R) :
    (pmmAlloc p = (p, 0) ∧ ∀ i < p.totalFrames, frameAddr i ∈ R) ∨
      ∃ p' a, pmmAlloc p = (p', a) ∧ a ≠ 0 ∧ a ∉ R ∧ p'.totalFrames = p.totalFrames ∧
        Counts p' (a ::ₘ R) := by
  have hgood : ∀ i, i < p.totalFrames → p.bitmap i = false →
      pmmAlloc p = (p.take i, frameAddr i) → ∃ p' a, pmmAlloc p = (p', a) ∧ a ≠ 0 ∧ a ∉ R ∧
        p'.totalFrames = p.totalFrames ∧ Counts p' (a ::ₘ R) := by
    intro i hi hb he
    obtain ⟨hn, hc⟩ := h.take hi hb
    exact ⟨_, _, he, hc.ne_zero (Multiset.mem_cons_self _ _), hn, rfl, hc⟩
  by_cases hz : p.totalFrames = 0
  · exact Or.inl ⟨by simp [pmmAlloc, hz], by omega⟩
  have hl := h.hint_le
  cases h₁ : scanFrames p.bitmap (p.totalFrames - p.nextHint) p.nextHint with
  | some i =>
    obtain ⟨hlo, hhi, hb⟩ := scanFrames_some h₁
    exact Or.inr (hgood i (by omega) hb (by simp [pmmAlloc, hz, h₁]))
  | none =>
    cases h₂ : scanFrames p.bitmap p.nextHint 0 with
    | some i =>
      obtain ⟨hlo, hhi, hb⟩ := scanFrames_some h₂
      exact Or.inr (hgood i (by omega) hb (by simp [pmmAlloc, hz, h₁, h₂]))
    | none =>
      refine Or.inl ⟨by simp [pmmAlloc, hz, h₁, h₂], ?_⟩
      intro i hi
      apply (h.bit i hi).mp
      by_cases hh : i < p.nextHint
      · exact scanFrames_none h₂ i (by omega) (by omega)
      · exact scanFrames_none h₁ i (by omega) (by omega)

lemma free {a : Word} (h : Counts p (a ::ₘ R)) :
    Counts (pmmFree p a) R ∧ (pmmFree p a).totalFrames = p.totalFrames := by
  obtain ⟨i, hi, rfl⟩ := h.pool a (Multiset.mem_cons_self _ _)
  have him := hi.trans_le h.total_le
  have hinj : ∀ j < p.totalFrames, frameAddr j = frameAddr i → j = i := fun j hj he =>
    frameAddr_inj (hj.trans_le h.total_le) him he
  have hb : p.bitmap i = true := (h.bit i hi).mpr (Multiset.mem_cons_self _ _)
  have hcount : p.refcount i = R.count (frameAddr i) + 1 := by
    simpa using h.count i hi
  have hother : ∀ j < p.totalFrames, j ≠ i →
      p.refcount j = R.count (frameAddr j) ∧ (p.bitmap j = true ↔ frameAddr j ∈ R) := by
    intro j hj he
    have hne : frameAddr j ≠ frameAddr i := fun hh => he (hinj j hj hh)
    have hc := h.count j hj
    have hm := h.bit j hj
    rw [Multiset.count_cons_of_ne hne] at hc
    rw [Multiset.mem_cons, or_iff_right hne] at hm
    exact ⟨hc, hm⟩
  have hpool : ∀ b ∈ R, ∃ j < p.totalFrames, b = frameAddr j := fun b hb' =>
    h.pool b (Multiset.mem_cons_of_mem hb')
  have hidx := frameIndex_frameAddr him
  by_cases hmore : p.refcount i > 1
  · have hf : pmmFree p (frameAddr i) =
        { p with refcount := Function.update p.refcount i (p.refcount i - 1) } := by
      simp [pmmFree, frameAddr_not_low him, hidx, hb, hmore, not_le.mpr hi]
    rw [hf]
    refine ⟨⟨h.total_le, h.hint_le, hpool, ?_, ?_⟩, rfl⟩
    · intro j hj
      by_cases he : j = i
      · subst he
        simp [hcount]
      · simpa [he] using (hother j hj he).1
    · intro j hj
      by_cases he : j = i
      · subst he
        simp only [hb, true_iff]
        exact Multiset.count_pos.mp (by omega)
      · exact (hother j hj he).2
  · have hf : pmmFree p (frameAddr i) = p.release i := by
      simp [pmmFree, frameAddr_not_low him, hidx, hb, hmore, not_le.mpr hi]
    have hzero : R.count (frameAddr i) = 0 := by omega
    rw [hf]
    refine ⟨⟨h.total_le, ?_, hpool, ?_, ?_⟩, rfl⟩
    · have hl := h.hint_le
      dsimp only [Pmm.release]
      split <;> omega
    · intro j hj
      by_cases he : j = i
      · subst he
        simp [Pmm.release, hzero]
      · simpa [Pmm.release, he] using (hother j hj he).1
    · intro j hj
      by_cases he : j = i
      · subst he
        simpa [Pmm.release] using Multiset.count_eq_zero.mp hzero
      · simpa [Pmm.release, he] using (hother j hj he).2

lemma free_list (l : List Word) {p : Pmm} (h : Counts p (↑l + R)) :
    Counts (l.foldl pmmFree p) R ∧ (l.foldl pmmFree p).totalFrames = p.totalFrames := by
  induction l generalizing p with
  | nil => simpa using h
  | cons a l ih =>
    have hf := free (a := a) (R := ↑l + R) (p := p) (by
      rw [← Multiset.cons_coe, Multiset.cons_add] at h
      exact h)
    have hh := ih hf.1
    exact ⟨hh.1, hh.2.trans hf.2⟩

lemma incref (h : Counts p R) {a : Word} (ha : a ∈ R) (hc : R.count a < 255) :
    Counts (pmmIncref p a) (a ::ₘ R) ∧ (pmmIncref p a).totalFrames = p.totalFrames := by
  obtain ⟨i, hi, rfl⟩ := h.pool a ha
  have him := hi.trans_le h.total_le
  have hb : p.bitmap i = true := (h.bit i hi).mpr ha
  have hcount := h.count i hi
  have hf : pmmIncref p (frameAddr i) =
      { p with refcount := Function.update p.refcount i (p.refcount i + 1) } := by
    simp [pmmIncref, frameAddr_not_low him, frameIndex_frameAddr him, hb, hi, hcount, hc]
  rw [hf]
  refine ⟨⟨h.total_le, h.hint_le, ?_, ?_, ?_⟩, rfl⟩
  · intro b hb'
    rcases Multiset.mem_cons.mp hb' with rfl | hb'
    · exact ⟨i, hi, rfl⟩
    · exact h.pool b hb'
  · intro j hj
    by_cases he : j = i
    · subst he
      simp [hcount]
    · have hne : frameAddr j ≠ frameAddr i := fun hh =>
        he (frameAddr_inj (hj.trans_le h.total_le) him hh)
      simpa [he, Multiset.count_cons_of_ne hne] using h.count j hj
  · intro j hj
    have hm := h.bit j hj
    by_cases he : j = i
    · subst he
      simp [hb]
    · have hne : frameAddr j ≠ frameAddr i := fun hh =>
        he (frameAddr_inj (hj.trans_le h.total_le) him hh)
      simpa [hne] using hm

lemma refcount_eq (h : Counts p R) {a : Word} (ha : a ∈ R) : pmmRefcount p a = R.count a := by
  obtain ⟨i, hi, rfl⟩ := h.pool a ha
  have him := hi.trans_le h.total_le
  simp [pmmRefcount, frameAddr_not_low him, frameIndex_frameAddr him, hi, h.count i hi]

lemma free_shared (h : Counts p R) {i : ℕ} (hi : i < p.totalFrames) (hc : 2 ≤ R.count (frameAddr i)) :
    (pmmFree p (frameAddr i)).bitmap i = true := by
  have him := hi.trans_le h.total_le
  have hb : p.bitmap i = true := (h.bit i hi).mpr (Multiset.count_pos.mp (by omega))
  have hmore : p.refcount i > 1 := by
    rw [h.count i hi]
    omega
  simp [pmmFree, frameAddr_not_low him, frameIndex_frameAddr him, hb, hmore, not_le.mpr hi]

end Counts

lemma pmmInstall_counts (memBytes : Word) : Counts (pmmInstall memBytes) 0 := by
  refine ⟨?_, Nat.zero_le _, by simp, by simp [pmmInstall], by simp [pmmInstall]⟩
  dsimp only [pmmInstall]
  split
  · exact Nat.zero_le _
  · split <;> omega

end PyroOS
