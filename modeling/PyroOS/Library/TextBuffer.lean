import Mathlib.Data.List.Range
import Mathlib.Logic.Function.Basic

/-! Arrays with a counter of the cells in use, read as lists. -/

namespace TextBuffer

variable {α : Type} {b b' : ℕ → α} {n i k : ℕ} {c : α}

def upTo (b : ℕ → α) (n : ℕ) : List α := (List.range n).map b

@[simp] lemma upTo_zero : upTo b 0 = [] := rfl

@[simp] lemma upTo_length : (upTo b n).length = n := by simp [upTo]

lemma upTo_succ : upTo b (n + 1) = upTo b n ++ [b n] := by simp [upTo, List.range_succ]

lemma upTo_congr (h : ∀ i < n, b i = b' i) : upTo b n = upTo b' n :=
  List.map_congr_left fun i hi => h i (List.mem_range.mp hi)

lemma upTo_getElem (h : i < (upTo b n).length) : (upTo b n)[i] = b i := by simp [upTo]

lemma upTo_write_of_le (h : n ≤ i) : upTo (Function.update b i c) n = upTo b n :=
  upTo_congr fun _ hj => Function.update_of_ne (by omega) ..

lemma upTo_write : upTo (Function.update b n c) (n + 1) = upTo b n ++ [c] := by
  rw [upTo_succ, upTo_write_of_le le_rfl, Function.update_self]

lemma upTo_pred : upTo b (n - 1) = (upTo b n).dropLast := by
  cases n with
  | zero => rfl
  | succ n => rw [upTo_succ, List.dropLast_concat, Nat.add_sub_cancel]

lemma upTo_add (m : ℕ) : upTo b (m + n) = upTo b m ++ upTo (fun i => b (m + i)) n := by
  induction n with
  | zero => rw [Nat.add_zero, upTo_zero, List.append_nil]
  | succ n ih => rw [← Nat.add_assoc, upTo_succ, ih, upTo_succ, List.append_assoc]

lemma upTo_eq_append_singleton {xs : List α} (h : upTo b n = xs ++ [c]) : b xs.length = c := by
  have hlen : n = xs.length + 1 := by simpa using congrArg List.length h
  subst hlen
  rw [upTo_succ] at h
  exact List.singleton_inj.mp (List.append_inj_right h (by simp))

end TextBuffer
