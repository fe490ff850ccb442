import Mathlib.Data.List.Basic
import Mathlib.Data.Nat.ModEq
import Mathlib.Logic.Function.Basic

/-! A ring of `N` cells in which consecutive items of a sequence stand. -/

namespace RingBuffer

variable {α : Type*} {N r a : ℕ} {cell : ℕ → α} {items : List α} {c : α}

structure Window (N : ℕ) (cell : ℕ → α) (items : List α) (r : ℕ) : Prop where
  le : r ≤ items.length
  lt : items.length < r + N
  get : ∀ i, r ≤ i → ∀ h : i < items.length, cell (i % N) = items[i]

lemma mod_eq_iff (h : r ≤ a) (h' : a < r + N) : a % N = r % N ↔ a = r := by
  refine ⟨fun hm => ?_, fun he => by rw [he]⟩
  have hd : N ∣ a - r := (Nat.modEq_iff_dvd' h).mp (show r % N = a % N from hm.symm)
  have hz := Nat.eq_zero_of_dvd_of_lt hd (by omega)
  omega

lemma succ_mod_eq_iff (h : r ≤ a) (h' : a < r + N) : (a + 1) % N = r % N ↔ a + 1 = r + N := by
  refine ⟨fun hm => ?_, fun he => by rw [he, Nat.add_mod_right]⟩
  by_contra hne
  have heq := (mod_eq_iff (by omega) (by omega)).mp hm
  omega

namespace Window

lemma push {cell' : ℕ → α} (h : Window N cell items r) (hroom : items.length + 1 ≠ r + N)
    (hself : cell' (items.length % N) = c) (hother : ∀ i < N, i ≠ items.length % N → cell' i = cell i) :
    Window N cell' (items ++ [c]) r := by
  have hle := h.le
  have hlt := h.lt
  have hlen : (items ++ [c]).length = items.length + 1 := by simp
  refine ⟨by omega, by omega, fun i hi hi' => ?_⟩
  by_cases hlast : i = items.length
  · subst hlast
    simpa using hself
  · have hi'' : i < items.length := by omega
    have hne : i % N ≠ items.length % N := fun hm => hlast ((mod_eq_iff (by omega) (by omega)).mp hm.symm).symm
    rw [hother _ (Nat.mod_lt _ (by omega)) hne, List.getElem_append_left hi'']
    exact h.get i hi hi''

lemma pop (h : Window N cell items r) (hne : r < items.length) : Window N cell items (r + 1) :=
  ⟨hne, by have hlt := h.lt; omega, fun i hi hi' => h.get i (by omega) hi'⟩

lemma contents (h : Window N cell items r) :
    (List.range (items.length - r)).map (fun j => cell ((r + j) % N)) = items.drop r := by
  refine List.ext_getElem (by simp) fun j h₁ h₂ => ?_
  have hj : r + j < items.length := by
    simp only [List.length_map, List.length_range] at h₁
    omega
  rw [List.getElem_map, List.getElem_range, List.getElem_drop]
  exact h.get (r + j) (by omega) hj

end Window

end RingBuffer
