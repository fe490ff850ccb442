import Mathlib

/-! Machine words and the page entries of the x86 two-level tables. -/

namespace PyroOS

abbrev Byte := BitVec 8
abbrev Word := BitVec 32

def ascii (s : String) : List Byte := s.toList.map fun c => BitVec.ofNat 8 c.toNat

def pageSize : ℕ := 4096

def pfPresent : Word := 0x1
def pfRw : Word := 0x2
def pfUser : Word := 0x4
def pfCow : Word := 0x200

def dirIndex (v : Word) : ℕ := ((v >>> 22) &&& 0x3FF).toNat
def tabIndex (v : Word) : ℕ := ((v >>> 12) &&& 0x3FF).toNat
def frameOf (e : Word) : Word := e &&& 0xFFFFF000
def flagsOf (e : Word) : Word := e &&& 0xFFF

lemma ne_zero_of_pos {w : Word} (h : 0 < w.toNat) : w ≠ 0 := by
  rintro rfl
  exact lt_irrefl 0 h

def byteOf (w : Word) (j : ℕ) : Byte := (w >>> (8 * j)).setWidth 8

def hasFlag (e flag : Word) : Bool := e &&& flag != 0

abbrev isPresent (e : Word) : Bool := hasFlag e pfPresent
abbrev isWritable (e : Word) : Bool := hasFlag e pfRw
abbrev isUser (e : Word) : Bool := hasFlag e pfUser
abbrev isCow (e : Word) : Bool := hasFlag e pfCow

lemma hasFlag_twoPow (e : Word) (n : ℕ) (hn : n < 32) :
    hasFlag e (BitVec.twoPow 32 n) = e.getLsbD n := by
  have hne : BitVec.twoPow 32 n ≠ 0 := by
    intro h
    have hb := congrArg (fun x => BitVec.getLsbD x n) h
    simp [hn] at hb
  rw [hasFlag, BitVec.and_twoPow]
  cases h : e.getLsbD n
  · rfl
  · simpa using hne

lemma isPresent_bit (e : Word) : isPresent e = e.getLsbD 0 := hasFlag_twoPow e 0 (by omega)
lemma isWritable_bit (e : Word) : isWritable e = e.getLsbD 1 := hasFlag_twoPow e 1 (by omega)
lemma isUser_bit (e : Word) : isUser e = e.getLsbD 2 := hasFlag_twoPow e 2 (by omega)
lemma isCow_bit (e : Word) : isCow e = e.getLsbD 9 := hasFlag_twoPow e 9 (by omega)

lemma frameOf_bit (e : Word) (i : ℕ) : (frameOf e).getLsbD i = (decide (12 ≤ i) && e.getLsbD i) := by
  have hmask : ∀ j : Fin 32, (0xFFFFF000#32).getLsbD j = decide (12 ≤ j.val) := by decide
  by_cases hi : i < 32
  · have hm := hmask ⟨i, hi⟩
    simp only at hm
    simp only [frameOf, BitVec.ofNat_eq_ofNat, BitVec.getLsbD_and, hm, Bool.and_comm]
  · simp [BitVec.getLsbD_of_ge, Nat.le_of_not_lt hi]

lemma flagsOf_bit (e : Word) (i : ℕ) : (flagsOf e).getLsbD i = (decide (i < 12) && e.getLsbD i) := by
  have hmask : ∀ j : Fin 32, (0xFFF#32).getLsbD j = decide (j.val < 12) := by decide
  by_cases hi : i < 32
  · have hm := hmask ⟨i, hi⟩
    simp only at hm
    simp only [flagsOf, BitVec.ofNat_eq_ofNat, BitVec.getLsbD_and, hm, Bool.and_comm]
  · simp [BitVec.getLsbD_of_ge, Nat.le_of_not_lt hi]

def Aligned (a : Word) : Prop := frameOf a = a

instance (a : Word) : Decidable (Aligned a) := inferInstanceAs (Decidable (frameOf a = a))

lemma Aligned.bit {a : Word} (ha : Aligned a) {i : ℕ} (hi : i < 12) : a.getLsbD i = false := by
  rw [← ha, frameOf_bit]
  simp [show ¬ 12 ≤ i by omega]

@[simp] lemma frameOf_frameOf (e : Word) : frameOf (frameOf e) = frameOf e := by
  apply BitVec.eq_of_getLsbD_eq
  intro i _
  simp only [frameOf_bit]
  cases decide (12 ≤ i) <;> simp

lemma frameOf_aligned (e : Word) : Aligned (frameOf e) := frameOf_frameOf e

lemma frameOf_or_flags {a fl : Word} (ha : Aligned a) (hf : frameOf fl = 0) :
    frameOf (a ||| fl) = a := by
  apply BitVec.eq_of_getLsbD_eq
  intro i _
  have h₁ := congrArg (fun x => BitVec.getLsbD x i) ha
  have h₂ := congrArg (fun x => BitVec.getLsbD x i) hf
  simp only [frameOf_bit, BitVec.getLsbD_or] at h₁ h₂ ⊢
  rw [Bool.and_or_distrib_left, h₁, h₂]
  simp

@[simp] lemma frameOf_flagsOf (e : Word) : frameOf (flagsOf e) = 0 := by
  apply BitVec.eq_of_getLsbD_eq
  intro i _
  simp only [frameOf_bit, flagsOf_bit]
  by_cases hi : 12 ≤ i
  · simp [hi, show ¬ i < 12 by omega]
  · simp [hi]

lemma frameOf_or (a b : Word) : frameOf (a ||| b) = frameOf a ||| frameOf b := by
  apply BitVec.eq_of_getLsbD_eq
  intro i _
  simp only [frameOf_bit, BitVec.getLsbD_or, Bool.and_or_distrib_left]

lemma frameOf_and_left (a b : Word) (ha : frameOf a = 0) : frameOf (a &&& b) = 0 := by
  apply BitVec.eq_of_getLsbD_eq
  intro i _
  have h := congrArg (fun x => BitVec.getLsbD x i) ha
  simp only [frameOf_bit, BitVec.getLsbD_and] at h ⊢
  rw [← Bool.and_assoc, h]
  simp

def sharedEntry (e : Word) : Word :=
  (e &&& ~~~pfRw) ||| (if hasFlag e pfRw then pfCow else 0)

def reclaimedFlags (e : Word) : Word := (e &&& 0xFFF &&& ~~~pfCow) ||| pfRw

lemma pfRw_bit (i : ℕ) : pfRw.getLsbD i = decide (i = 1) := by
  have h : ∀ j : Fin 32, pfRw.getLsbD j = decide (j.val = 1) := by decide
  by_cases hi : i < 32
  · exact h ⟨i, hi⟩
  · rw [BitVec.getLsbD_of_ge _ _ (by omega)]
    simp [show i ≠ 1 by omega]

lemma pfCow_bit (i : ℕ) : pfCow.getLsbD i = decide (i = 9) := by
  have h : ∀ j : Fin 32, pfCow.getLsbD j = decide (j.val = 9) := by decide
  by_cases hi : i < 32
  · exact h ⟨i, hi⟩
  · rw [BitVec.getLsbD_of_ge _ _ (by omega)]
    simp [show i ≠ 9 by omega]

lemma sharedEntry_bit (e : Word) {i : ℕ} (hi : i < 32) : (sharedEntry e).getLsbD i =
    ((e.getLsbD i && decide (i ≠ 1)) || (e.getLsbD 1 && decide (i = 9))) := by
  have hw : hasFlag e pfRw = e.getLsbD 1 := isWritable_bit e
  rw [sharedEntry, hw, BitVec.getLsbD_or, BitVec.getLsbD_and, BitVec.getLsbD_not, pfRw_bit]
  cases h : e.getLsbD 1
  · rw [if_neg (by decide), BitVec.ofNat_eq_ofNat, BitVec.getLsbD_zero]
    simp only [hi, decide_true, Bool.true_and, decide_not, Bool.false_and]
  · rw [if_pos rfl, pfCow_bit]
    simp only [hi, decide_true, Bool.true_and, decide_not]

lemma reclaimedFlags_bit (e : Word) {i : ℕ} (hi : i < 32) : (reclaimedFlags e).getLsbD i =
    ((decide (i < 12) && e.getLsbD i && decide (i ≠ 9)) || decide (i = 1)) := by
  rw [reclaimedFlags, BitVec.getLsbD_or, BitVec.getLsbD_and, BitVec.getLsbD_not, pfCow_bit, pfRw_bit]
  change ((flagsOf e).getLsbD i && _ || _) = _
  simp only [flagsOf_bit, hi, decide_true, Bool.true_and, decide_not]

@[simp] lemma frameOf_sharedEntry (e : Word) : frameOf (sharedEntry e) = frameOf e := by
  apply BitVec.eq_of_getLsbD_eq
  intro i hi
  simp only [frameOf_bit, sharedEntry_bit e hi]
  by_cases h : 12 ≤ i
  · simp [h, show i ≠ 1 by omega, show i ≠ 9 by omega]
  · simp [h]

@[simp] lemma isPresent_sharedEntry (e : Word) : isPresent (sharedEntry e) = isPresent e := by
  rw [isPresent_bit, isPresent_bit, sharedEntry_bit e (by omega)]
  cases e.getLsbD 0 <;> cases e.getLsbD 1 <;> rfl

@[simp] lemma isWritable_sharedEntry (e : Word) : isWritable (sharedEntry e) = false := by
  rw [isWritable_bit, sharedEntry_bit e (by omega)]
  cases e.getLsbD 1 <;> rfl

@[simp] lemma frameOf_reclaimedFlags (e : Word) : frameOf (reclaimedFlags e) = 0 := by
  apply BitVec.eq_of_getLsbD_eq
  intro i hi
  simp only [frameOf_bit, reclaimedFlags_bit e hi]
  by_cases h : 12 ≤ i
  · simp [h, show ¬ i < 12 by omega, show i ≠ 1 by omega]
  · simp [h]

lemma or_flags_bit {a fl : Word} (ha : Aligned a) {i : ℕ} (hi : i < 12) :
    (a ||| fl).getLsbD i = fl.getLsbD i := by
  simp [BitVec.getLsbD_or, ha.bit hi]

lemma and_not_low (x : Word) {m : Word} {k : ℕ} (hm : ∀ i : Fin 32, m.getLsbD i = decide (i.val < k)) :
    (x &&& ~~~m).toNat = x.toNat / 2 ^ k * 2 ^ k := by
  have hshift : x &&& ~~~m = (x >>> k) <<< k := by
    apply BitVec.eq_of_getLsbD_eq
    intro i hi
    have h := hm ⟨i, hi⟩
    simp only at h
    rw [BitVec.getLsbD_and, BitVec.getLsbD_not, h, BitVec.getLsbD_shiftLeft, BitVec.getLsbD_ushiftRight]
    by_cases hk : i < k
    · simp [hk]
    · simp [hk, hi, show k + (i - k) = i by omega]
  have hle : x.toNat / 2 ^ k * 2 ^ k < 2 ^ 32 := lt_of_le_of_lt (Nat.div_mul_le_self _ _) x.isLt
  rw [hshift, BitVec.toNat_shiftLeft, BitVec.toNat_ushiftRight, Nat.shiftRight_eq_div_pow, Nat.shiftLeft_eq,
    Nat.mod_eq_of_lt hle]

lemma frameOf_toNat (a : Word) : (frameOf a).toNat = a.toNat / 4096 * 4096 :=
  and_not_low a (m := 0xFFF) (k := 12) (by decide)

end PyroOS
