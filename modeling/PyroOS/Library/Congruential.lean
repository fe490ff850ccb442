import Mathlib.Algebra.Ring.GeomSum
import Mathlib.Data.Nat.ModEq
import Mathlib.Data.Nat.Prime.Basic
import Mathlib.Data.Fintype.EquivFin
import Mathlib.Data.BitVec
import Mathlib.Tactic.Ring

/-! Linear congruential generators modulo a power of two whose period is as long as it can be. -/

namespace Congruential

variable {w a c : ℕ}

def step (w a c : ℕ) (s : BitVec w) : BitVec w := s * BitVec.ofNat w a + BitVec.ofNat w c

def series (a n : ℕ) : ℕ := ∑ i ∈ Finset.range n, a ^ i

lemma series_succ (a n : ℕ) : series a (n + 1) = a * series a n + 1 := geom_sum_succ

lemma series_double (a m : ℕ) : series a (m + m) = series a m * (1 + a ^ m) := by
  simp only [series, Finset.sum_range_add, pow_add, ← Finset.mul_sum]
  ring

lemma series_parity (ha : a % 4 = 1) (n : ℕ) : series a n % 2 = n % 2 := by
  induction n with
  | zero => rfl
  | succ n ih =>
    have hodd : a % 2 = 1 := by omega
    rw [series_succ, Nat.add_mod, Nat.mul_mod, hodd, ih, Nat.one_mul, Nat.mod_mod, ← Nat.add_mod]

lemma pow_dvd_series (ha : a % 4 = 1) (w n : ℕ) : 2 ^ w ∣ series a n ↔ 2 ^ w ∣ n := by
  induction w generalizing n with
  | zero => simp
  | succ w ih =>
    obtain ⟨m, rfl | rfl⟩ := Nat.even_or_odd' n
    · have hpow : a ^ m % 4 = 1 := by rw [Nat.pow_mod, ha, Nat.one_pow]
      obtain ⟨q, hq⟩ : ∃ q, 1 + a ^ m = 2 * (2 * q + 1) := ⟨a ^ m / 4, by omega⟩
      have hcop : Nat.Coprime (2 ^ w) (2 * q + 1) := Nat.Coprime.pow_left w (by simp)
      rw [Nat.two_mul m, series_double, hq, pow_succ', ← Nat.two_mul m, Nat.mul_left_comm,
        Nat.mul_dvd_mul_iff_left Nat.two_pos, Nat.mul_dvd_mul_iff_left Nat.two_pos, hcop.dvd_mul_right, ih]
    · have hodd := series_parity ha (2 * m + 1)
      have hno : ∀ x, x % 2 = 1 → ¬ 2 ^ (w + 1) ∣ x := fun x hx hd => by
        have hdvd : 2 ∣ x := (dvd_pow_self 2 (Nat.succ_ne_zero w)).trans hd
        omega
      exact iff_of_false (hno _ (by omega)) (hno _ (by omega))

variable (s t : BitVec w)

lemma iterate_eq (ha : 1 ≤ a) (n : ℕ) :
    (step w a c)^[n] s = BitVec.ofNat w (s.toNat + series a n * ((a - 1) * s.toNat + c)) := by
  obtain ⟨b, rfl⟩ := Nat.exists_eq_add_of_le ha
  rw [Nat.add_sub_cancel_left]
  induction n with
  | zero => simp [series]
  | succ n ih =>
    rw [Function.iterate_succ_apply', ih, step, ← BitVec.ofNat_mul, ← BitVec.ofNat_add, series_succ]
    congr 1
    ring

theorem iterate_eq_self_iff (ha : a % 4 = 1) (hc : c % 2 = 1) (n : ℕ) : (step w a c)^[n] s = s ↔ 2 ^ w ∣ n := by
  have hodd : Nat.Coprime (2 ^ w) ((a - 1) * s.toNat + c) := by
    refine Nat.Coprime.pow_left w ?_
    rw [Nat.coprime_two_left, Nat.odd_iff, Nat.add_mod, Nat.mul_mod, show (a - 1) % 2 = 0 by omega, hc,
      Nat.zero_mul]
  rw [iterate_eq s (by omega), ← pow_dvd_series ha w n, ← hodd.dvd_mul_right]
  constructor
  · intro h
    have hn := congrArg BitVec.toNat h
    rw [BitVec.toNat_ofNat] at hn
    have hmod : s.toNat + series a n * ((a - 1) * s.toNat + c) ≡ s.toNat + 0 [MOD 2 ^ w] := by
      rw [Nat.ModEq, hn, Nat.add_zero, Nat.mod_eq_of_lt s.isLt]
    exact (Nat.modEq_zero_iff_dvd).mp (Nat.ModEq.add_left_cancel' _ hmod)
  · rintro ⟨k, hk⟩
    apply BitVec.eq_of_toNat_eq
    rw [hk, BitVec.toNat_ofNat, Nat.add_mul_mod_self_left, Nat.mod_eq_of_lt s.isLt]

lemma iterate_injective (ha : a % 4 = 1) (hc : c % 2 = 1) {i j : ℕ} (hij : i < j) (hj : j < 2 ^ w) :
    (step w a c)^[i] s ≠ (step w a c)^[j] s := by
  intro h
  rw [show j = (j - i) + i by omega, Function.iterate_add_apply] at h
  have hdvd := (iterate_eq_self_iff _ ha hc (j - i)).mp h.symm
  have hle := Nat.le_of_dvd (by omega) hdvd
  omega

theorem reaches (ha : a % 4 = 1) (hc : c % 2 = 1) : ∃ n < 2 ^ w, (step w a c)^[n] s = t := by
  have hinj : Function.Injective fun n : Fin (2 ^ w) => ((step w a c)^[n] s).toFin := by
    intro i j h
    have heq : (step w a c)^[i] s = (step w a c)^[j] s := BitVec.eq_of_toFin_eq h
    obtain hlt | hij | hlt := Nat.lt_trichotomy i j
    · exact absurd heq (iterate_injective s ha hc hlt j.isLt)
    · exact Fin.ext hij
    · exact absurd heq.symm (iterate_injective s ha hc hlt i.isLt)
  obtain ⟨n, hn⟩ := Finite.surjective_of_injective hinj t.toFin
  exact ⟨n, n.isLt, BitVec.eq_of_toFin_eq hn⟩

/-! ### Runs of states -/

variable {s t} {l : List (BitVec w)}

lemma chain_getElem (h : List.IsChain (fun s t => t = step w a c s) (s :: l)) {i : ℕ} (hi : i < (s :: l).length) :
    (s :: l)[i] = (step w a c)^[i] s := by
  induction i with
  | zero => rfl
  | succ i ih =>
    rw [Function.iterate_succ_apply', ← ih (by omega)]
    exact List.isChain_iff_getElem.mp h i hi

theorem chain_nodup (ha : a % 4 = 1) (hc : c % 2 = 1) (h : List.IsChain (fun s t => t = step w a c s) l) (ht : t ∉ l) :
    l.Nodup ∧ l.length < 2 ^ w := by
  cases l with
  | nil => exact ⟨.nil, Nat.two_pow_pos w⟩
  | cons s l =>
    have hlen : (s :: l).length < 2 ^ w := by
      by_contra hge
      obtain ⟨n, hn, hreach⟩ := reaches s t ha hc
      refine ht ?_
      rw [← hreach, ← chain_getElem h (by omega : n < (s :: l).length)]
      exact List.getElem_mem _
    refine ⟨?_, hlen⟩
    rw [List.nodup_iff_getElem?_ne_getElem?]
    intro i j hij hj
    rw [List.getElem?_eq_getElem hj, List.getElem?_eq_getElem (hij.trans hj), chain_getElem h, chain_getElem h]
    exact fun heq => iterate_injective s ha hc hij (hj.trans hlen) (Option.some.inj heq)

end Congruential
