import Mathlib

/-! Invariant rules for counted loops, with and without early exit. -/

namespace Loop

variable {σ ε : Type*}

lemma foldl_range {f : σ → ℕ → σ} (I : ℕ → σ → Prop) {a n : ℕ} {s : σ} (h₀ : I a s)
    (hs : ∀ i s, a ≤ i → i < a + n → I i s → I (i + 1) (f s i)) :
    I (a + n) ((List.range' a n).foldl f s) := by
  induction n generalizing a s with
  | zero => simpa using h₀
  | succ n ih =>
    rw [List.range'_succ, List.foldl_cons]
    have hh := ih (hs a s le_rfl (by omega) h₀) (fun i s hi hn => hs i s (by omega) (by omega))
    rwa [show a + (n + 1) = a + 1 + n by omega]

inductive Outcome (P : σ → Prop) (E : ε → Prop) : Except ε σ → Prop
  | ok {s : σ} : P s → Outcome P E (.ok s)
  | error {e : ε} : E e → Outcome P E (.error e)

@[simp] lemma outcome_ok {P : σ → Prop} {E : ε → Prop} {s : σ} : Outcome P E (.ok s) ↔ P s :=
  ⟨fun h => by cases h; assumption, .ok⟩

@[simp] lemma outcome_error {P : σ → Prop} {E : ε → Prop} {e : ε} : Outcome P E (.error e) ↔ E e :=
  ⟨fun h => by cases h; assumption, .error⟩

lemma Outcome.mono {P Q : σ → Prop} {E F : ε → Prop} {x : Except ε σ} (h : Outcome P E x)
    (hp : ∀ s, P s → Q s) (he : ∀ e, E e → F e) : Outcome Q F x := by
  cases h with
  | ok h => exact .ok (hp _ h)
  | error h => exact .error (he _ h)

lemma foldlM_range {f : σ → ℕ → Except ε σ} (I : ℕ → σ → Prop) (E : ε → Prop) {a n : ℕ} {s : σ}
    (h₀ : I a s) (hs : ∀ i s, a ≤ i → i < a + n → I i s → Outcome (I (i + 1)) E (f s i)) :
    Outcome (I (a + n)) E ((List.range' a n).foldlM f s) := by
  induction n generalizing a s with
  | zero => exact .ok h₀
  | succ n ih =>
    rw [List.range'_succ, List.foldlM_cons]
    have hstep := hs a s le_rfl (by omega) h₀
    cases he : f s a with
    | error e =>
      rw [he] at hstep
      exact .error (outcome_error.mp hstep)
    | ok s' =>
      rw [he] at hstep
      have hh := ih (outcome_ok.mp hstep) (fun i s hi hn => hs i s (by omega) (by omega))
      rwa [show a + (n + 1) = a + 1 + n by omega]

end Loop
