import Mathlib.Data.BitVec
import Mathlib.Tactic.SplitIfs

/-! Little-endian words in a memory of bytes. -/

namespace ByteMemory

abbrev Mem := BitVec 32 → BitVec 8

variable {m m' : Mem} {a b w x : BitVec 32} {lo hi : ℕ}

def readWord (m : Mem) (a : BitVec 32) : BitVec 32 :=
    (m (a + 3) ++ m (a + 2) ++ m (a + 1) ++ m a : BitVec (8 + 8 + 8 + 8))

def writeWord (m : Mem) (a w : BitVec 32) : Mem := fun x =>
  if x = a then w.extractLsb' 0 8
  else if x = a + 1 then w.extractLsb' 8 8
  else if x = a + 2 then w.extractLsb' 16 8
  else if x = a + 3 then w.extractLsb' 24 8
  else m x

def Same (lo hi : ℕ) (m m' : Mem) : Prop := ∀ x : BitVec 32, lo ≤ x.toNat → x.toNat < hi → m' x = m x

namespace Same

lemma refl (lo hi : ℕ) (m : Mem) : Same lo hi m m := fun _ _ _ => rfl

lemma trans {m'' : Mem} (h : Same lo hi m m') (h' : Same lo hi m' m'') : Same lo hi m m'' :=
  fun x h₁ h₂ => (h' x h₁ h₂).trans (h x h₁ h₂)

lemma mono {lo' hi' : ℕ} (h : Same lo hi m m') (h₁ : lo ≤ lo') (h₂ : hi' ≤ hi) : Same lo' hi' m m' :=
  fun x hx hx' => h x (h₁.trans hx) (hx'.trans_le h₂)

lemma read (h : Same lo hi m m') (h₁ : lo ≤ a.toNat) (h₂ : a.toNat + 4 ≤ hi) (hhi : hi ≤ 2 ^ 32) :
    readWord m' a = readWord m a := by
  have hbyte : ∀ i : ℕ, i < 4 → m' (a + BitVec.ofNat 32 i) = m (a + BitVec.ofNat 32 i) := by
    intro i hi
    have ht : (a + BitVec.ofNat 32 i).toNat = a.toNat + i := by
      rw [BitVec.toNat_add, BitVec.toNat_ofNat]
      omega
    exact h _ (by omega) (by omega)
  have h0 := hbyte 0 (by omega)
  have h1 := hbyte 1 (by omega)
  have h2 := hbyte 2 (by omega)
  have h3 := hbyte 3 (by omega)
  simp only [BitVec.add_zero] at h0
  simp only [readWord, BitVec.ofNat_eq_ofNat, h0, h1, h2, h3]

end Same

lemma read_write (m : Mem) (a w : BitVec 32) : readWord (writeWord m a w) a = w := by
  have h1 : a + 1 ≠ a := by bv_omega
  have h2 : a + 2 ≠ a := by bv_omega
  have h3 : a + 3 ≠ a := by bv_omega
  have h21 : a + 2 ≠ a + 1 := by bv_omega
  have h31 : a + 3 ≠ a + 1 := by bv_omega
  have h32 : a + 3 ≠ a + 2 := by bv_omega
  simp only [readWord, writeWord, h1, h2, h3, h21, h31, h32, if_true, if_false]
  apply BitVec.eq_of_getLsbD_eq
  intro i hi
  simp only [BitVec.getLsbD_append, BitVec.getLsbD_extractLsb']
  by_cases h₁ : i < 8
  · simp [h₁]
  by_cases h₂ : i < 16
  · simp [h₁, show i - 8 < 8 by omega, show 8 + (i - 8) = i by omega]
  by_cases h₃ : i < 24
  · simp [h₁, show ¬ i - 8 < 8 by omega, show i - 8 - 8 < 8 by omega, show 16 + (i - 8 - 8) = i by omega]
  · simp [h₁, show ¬ i - 8 < 8 by omega, show ¬ i - 8 - 8 < 8 by omega, show i - 8 - 8 - 8 < 8 by omega,
      show 24 + (i - 8 - 8 - 8) = i by omega]

lemma write_other (h : x.toNat < a.toNat ∨ a.toNat + 4 ≤ x.toNat) (ha : a.toNat + 4 ≤ 2 ^ 32) :
    writeWord m a w x = m x := by
  have h0 : x ≠ a := by bv_omega
  have h1 : x ≠ a + 1 := by bv_omega
  have h2 : x ≠ a + 2 := by bv_omega
  have h3 : x ≠ a + 3 := by bv_omega
  simp only [writeWord, h0, h1, h2, h3, if_false]

lemma write_same (w : BitVec 32) (h : a.toNat + 4 ≤ lo ∨ hi ≤ a.toNat) (ha : a.toNat + 4 ≤ 2 ^ 32) :
    Same lo hi m (writeWord m a w) := fun x h₁ h₂ => write_other (by omega) ha

lemma read_write_other (w : BitVec 32) (h : a.toNat + 4 ≤ b.toNat ∨ b.toNat + 4 ≤ a.toNat) (ha : a.toNat + 4 ≤ 2 ^ 32)
    (hb : b.toNat + 4 ≤ 2 ^ 32) : readWord (writeWord m a w) b = readWord m b := by
  have hs : Same b.toNat (b.toNat + 4) m (writeWord m a w) := write_same w (by omega) ha
  exact hs.read le_rfl le_rfl hb

/-! ### Records -/

def writeWords (m : Mem) (a : BitVec 32) : List (BitVec 32) → Mem
  | [] => m
  | w :: ws => writeWords (writeWord m a w) (a + 4) ws

lemma add_four (h : a.toNat + 4 < 2 ^ 32) : (a + 4).toNat = a.toNat + 4 := by bv_omega

lemma writeWords_same {ws : List (BitVec 32)} (ha : a.toNat + 4 * ws.length < 2 ^ 32)
    (h : a.toNat + 4 * ws.length ≤ lo ∨ hi ≤ a.toNat) : Same lo hi m (writeWords m a ws) := by
  induction ws generalizing m a with
  | nil => exact .refl lo hi m
  | cons w ws ih =>
    rw [List.length_cons] at ha h
    have hadd := add_four (a := a) (by omega)
    have hw : Same lo hi m (writeWord m a w) := write_same w (by omega) (by omega)
    exact hw.trans (ih (by omega) (by omega))

lemma writeWords_read {ws : List (BitVec 32)} (ha : a.toNat + 4 * ws.length < 2 ^ 32) {i : ℕ} (hi : i < ws.length) :
    readWord (writeWords m a ws) (a + BitVec.ofNat 32 (4 * i)) = ws[i] := by
  induction ws generalizing m a i with
  | nil => cases hi
  | cons w ws ih =>
    rw [List.length_cons] at ha hi
    have hadd := add_four (a := a) (by omega)
    cases i with
    | zero =>
      have hs : Same a.toNat (a.toNat + 4) (writeWord m a w) (writeWords m a (w :: ws)) :=
        writeWords_same (by omega) (by omega)
      rw [Nat.mul_zero, BitVec.add_zero]
      exact (hs.read le_rfl le_rfl (by omega)).trans (read_write _ _ _)
    | succ i =>
      have haddr : a + BitVec.ofNat 32 (4 * (i + 1)) = a + 4 + BitVec.ofNat 32 (4 * i) := by
        rw [show 4 * (i + 1) = 4 + 4 * i by omega, BitVec.ofNat_add, ← add_assoc]
        rfl
      rw [haddr]
      exact ih (by omega) (by omega)

/-! ### Stacks -/

def push (m : Mem) (e : BitVec 32) : List (BitVec 32) → Mem
  | [] => m
  | w :: ws => push (writeWord m (e - 4) w) (e - 4) ws

lemma push_append (m : Mem) (e : BitVec 32) (xs ys : List (BitVec 32)) :
    push m e (xs ++ ys) = push (push m e xs) (e - BitVec.ofNat 32 (4 * xs.length)) ys := by
  induction xs generalizing m e with
  | nil => rw [List.nil_append, List.length_nil, Nat.mul_zero, BitVec.sub_zero, push]
  | cons x xs ih =>
    rw [List.cons_append, push, push, ih, List.length_cons, show 4 * (xs.length + 1) = 4 + 4 * xs.length by omega,
      BitVec.ofNat_add, ← sub_sub]
    rfl

lemma sub_four (h : 4 ≤ a.toNat) : (a - 4).toNat = a.toNat - 4 := by bv_omega

lemma push_same {ws : List (BitVec 32)} (he : 4 * ws.length ≤ a.toNat)
    (h : a.toNat ≤ lo ∨ hi ≤ a.toNat - 4 * ws.length) : Same lo hi m (push m a ws) := by
  induction ws generalizing m a with
  | nil => exact .refl lo hi m
  | cons w ws ih =>
    rw [List.length_cons] at he h
    have hsub := sub_four (a := a) (by omega)
    have hlt := a.isLt
    have hw : Same lo hi m (writeWord m (a - 4) w) := write_same w (by omega) (by omega)
    exact hw.trans (ih (by omega) (by omega))

lemma push_apply (ws : List (BitVec 32)) (he : 4 * ws.length ≤ a.toNat)
    (h : a.toNat ≤ x.toNat ∨ x.toNat < a.toNat - 4 * ws.length) : push m a ws x = m x := by
  have hsame : Same x.toNat (x.toNat + 1) m (push m a ws) := push_same he h
  exact hsame x le_rfl (Nat.lt_succ_self _)

lemma push_read {ws : List (BitVec 32)} (he : 4 * ws.length ≤ a.toNat) {i : ℕ} (hi : i < ws.length) :
    readWord (push m a ws) (a - BitVec.ofNat 32 (4 * (i + 1))) = ws[i] := by
  induction ws generalizing m a i with
  | nil => cases hi
  | cons w ws ih =>
    rw [List.length_cons] at he hi
    have hsub := sub_four (a := a) (by omega)
    have hlt := a.isLt
    cases i with
    | zero =>
      have hs : Same (a - 4).toNat ((a - 4).toNat + 4) (writeWord m (a - 4) w) (push m a (w :: ws)) :=
        push_same (by omega) (by omega)
      exact (hs.read le_rfl le_rfl (by omega)).trans (read_write _ _ _)
    | succ i =>
      have haddr : a - BitVec.ofNat 32 (4 * (i + 1 + 1)) = a - 4 - BitVec.ofNat 32 (4 * (i + 1)) := by
        rw [show 4 * (i + 1 + 1) = 4 + 4 * (i + 1) by omega, BitVec.ofNat_add, ← sub_sub]
        rfl
      rw [haddr]
      exact ih (by omega) (by omega)

end ByteMemory
