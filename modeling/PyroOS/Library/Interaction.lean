import Mathlib.Data.Nat.Notation
import Mathlib.Tactic.Lemma

/-! Programs that act on a world by requests, their executions (also those that stop halfway), and
rules to reason about all executions at once. -/

namespace Interaction

inductive Prog (E : Type) (Reply : E → Type) (α : Type) where
  | pure (a : α)
  | ask (e : E) (next : Reply e → Prog E Reply α)

namespace Prog

variable {E : Type} {Reply : E → Type} {α β τ σ : Type}

def bind : Prog E Reply α → (α → Prog E Reply β) → Prog E Reply β
  | .pure a, f => f a
  | .ask e next, f => .ask e fun a => (next a).bind f

instance : Monad (Prog E Reply) where
  pure := .pure
  bind := bind

def request (e : E) : Prog E Reply (Reply e) := .ask e .pure

def iterate (out : τ → Prog E Reply α) (body : τ → Prog E Reply (τ ⊕ α)) : ℕ → τ → Prog E Reply α
  | 0, x => out x
  | n + 1, x => do
    match ← body x with
    | .inl y => iterate out body n y
    | .inr a => pure a

/-! ### Executions -/

inductive Reaches (step : σ → (e : E) → Reply e → σ → Prop) :
    Prog E Reply α → σ → Prog E Reply α → σ → Prop
  | here {p : Prog E Reply α} {s : σ} : Reaches step p s p s
  | ask {e : E} {next : Reply e → Prog E Reply α} {a : Reply e} {s t u : σ} {p : Prog E Reply α} :
    step s e a t → Reaches step (next a) t p u → Reaches step (.ask e next) s p u

def Asks (step : σ → (e : E) → Reply e → σ → Prop) (p : Prog E Reply α) (s : σ) (e : E) : Prop :=
  ∃ next t, Reaches step p s (.ask e next) t

def Terminates (step : σ → (e : E) → Reply e → σ → Prop) (p : Prog E Reply α) (s : σ) : Prop :=
  ∀ q t, Reaches step p s q t → ∃ a u, Reaches step q t (pure a) u

def run (handle : σ → (e : E) → Option (Reply e × σ)) : Prog E Reply α → σ → Option (α × σ)
  | .pure a, s => some (a, s)
  | .ask e next, s =>
    match handle s e with
    | none => none
    | some (a, t) => (next a).run handle t

def handled (handle : σ → (e : E) → Option (Reply e × σ)) (s : σ) (e : E) (a : Reply e) (t : σ) : Prop :=
  handle s e = some (a, t)

def requests (handle : σ → (e : E) → Option (Reply e × σ)) : Prog E Reply α → σ → List E
  | .pure _, _ => []
  | .ask e next, s =>
    e :: match handle s e with
    | none => []
    | some (a, t) => (next a).requests handle t

/-! ### Rules -/

section rules

variable (step : σ → (e : E) → Reply e → σ → Prop) (allowed : E → Prop) (good : σ → Prop)

/-- Every execution makes allowed requests only, passes through worlds that satisfy `good` only, is
never left without an answer, and ends in `post`. -/
def Meets (post : α → σ → Prop) : Prog E Reply α → σ → Prop
  | .pure a, s => good s ∧ post a s
  | .ask e next, s => good s ∧ allowed e ∧ (∃ a t, step s e a t) ∧
    ∀ a t, step s e a t → Meets post (next a) t

variable {step allowed good} {post post' : α → σ → Prop} {p q : Prog E Reply α} {s t : σ}

lemma Meets.here (h : Meets step allowed good post p s) : good s := by
  cases p <;> exact h.1

lemma Meets.mono (h : Meets step allowed good post p s) (hpost : ∀ a t, good t → post a t → post' a t) :
    Meets step allowed good post' p s := by
  induction p generalizing s with
  | pure a => exact ⟨h.1, hpost a s h.1 h.2⟩
  | ask e next ih => exact ⟨h.1, h.2.1, h.2.2.1, fun a t hs => ih a (h.2.2.2 a t hs)⟩

lemma Meets.weaken {allowed' : E → Prop} {good' : σ → Prop} (h : Meets step allowed good post p s)
    (ha : ∀ e, allowed e → allowed' e) (hc : ∀ s, good s → good' s) :
    Meets step allowed' good' post p s := by
  induction p generalizing s with
  | pure a => exact ⟨hc s h.1, h.2⟩
  | ask e next ih => exact ⟨hc s h.1, ha e h.2.1, h.2.2.1, fun a t hs => ih a (h.2.2.2 a t hs)⟩

lemma Meets.congr {step' : σ → (e : E) → Reply e → σ → Prop} (h : Meets step allowed good post p s)
    (hs : ∀ s e a t, allowed e → (step' s e a t ↔ step s e a t)) : Meets step' allowed good post p s := by
  induction p generalizing s with
  | pure a => exact h
  | ask e next ih =>
    obtain ⟨hg, ha, ⟨a, t, ht⟩, hnext⟩ := h
    exact ⟨hg, ha, ⟨a, t, (hs s e a t ha).mpr ht⟩, fun b u hb => ih b (hnext b u ((hs s e b u ha).mp hb))⟩

lemma Meets.bind {post : β → σ → Prop} {f : α → Prog E Reply β}
    (h : Meets step allowed good (fun a t => Meets step allowed good post (f a) t) p s) :
    Meets step allowed good post (p >>= f) s := by
  induction p generalizing s with
  | pure a => exact h.2
  | ask e next ih => exact ⟨h.1, h.2.1, h.2.2.1, fun a t hs => ih a (h.2.2.2 a t hs)⟩

lemma meets_iterate {out : τ → Prog E Reply α} {body : τ → Prog E Reply (τ ⊕ α)}
    (inv : ℕ → τ → σ → Prop)
    (hbody : ∀ n x s, inv (n + 1) x s → Meets step allowed good
      (fun r t => match r with
        | .inl y => inv n y t
        | .inr a => post a t) (body x) s)
    (hout : ∀ x s, inv 0 x s → Meets step allowed good post (out x) s) :
    ∀ n x s, inv n x s → Meets step allowed good post (iterate out body n x) s := by
  intro n
  induction n with
  | zero => exact hout
  | succ n ih =>
    intro x s hi
    refine Meets.bind ((hbody n x s hi).mono ?_)
    intro r t hc hr
    cases r with
    | inl y => exact ih y t hr
    | inr a => exact ⟨hc, hr⟩

/-! ### What the rules say about executions -/

lemma Meets.reaches (h : Meets step allowed good post p s) (hr : Reaches step p s q t) :
    Meets step allowed good post q t := by
  induction hr with
  | here => exact h
  | ask hs _ ih => exact ih (h.2.2.2 _ _ hs)

lemma Meets.result {a : α} (h : Meets step allowed good post p s)
    (hr : Reaches step p s (Pure.pure a) t) : post a t :=
  (h.reaches hr).2

lemma Meets.returns (h : Meets step allowed good post p s) :
    ∃ a t, Reaches step p s (Pure.pure a) t ∧ post a t := by
  induction p generalizing s with
  | pure a => exact ⟨a, s, .here, h.2⟩
  | ask e next ih =>
    obtain ⟨b, u, hs⟩ := h.2.2.1
    obtain ⟨a, t, hr, hp⟩ := ih b (h.2.2.2 b u hs)
    exact ⟨a, t, .ask hs hr, hp⟩

lemma Meets.asks {e : E} (h : Meets step allowed good post p s) (ha : Asks step p s e) : allowed e := by
  obtain ⟨next, t, hr⟩ := ha
  exact (h.reaches hr).2.1

lemma Meets.terminates (h : Meets step allowed good post p s) : Terminates step p s := by
  intro q t hr
  obtain ⟨a, u, hend, _⟩ := (h.reaches hr).returns
  exact ⟨a, u, hend⟩

lemma Reaches.mono {step' : σ → (e : E) → Reply e → σ → Prop} (hr : Reaches step p s q t)
    (h : ∀ s e a t, step s e a t → step' s e a t) : Reaches step' p s q t := by
  induction hr with
  | here => exact .here
  | ask hs _ ih => exact .ask (h _ _ _ _ hs) ih

lemma Reaches.bind {a : α} {f : α → Prog E Reply β} {q : Prog E Reply β} {u : σ}
    (h : Reaches step p s (Pure.pure a) t) (h' : Reaches step (f a) t q u) : Reaches step (p >>= f) s q u := by
  generalize hp : (Pure.pure a : Prog E Reply α) = p' at h
  induction h with
  | here =>
    subst hp
    exact h'
  | ask hs _ ih => exact .ask hs (ih h' hp)

lemma Meets.first {post : β → σ → Prop} {f : α → Prog E Reply β}
    (h : Meets step allowed good post (p >>= f) s) : Meets step allowed good (fun _ _ => True) p s := by
  induction p generalizing s with
  | pure a => exact ⟨h.here, trivial⟩
  | ask e next ih => exact ⟨h.1, h.2.1, h.2.2.1, fun a t hs => ih a (h.2.2.2 a t hs)⟩

lemma Meets.then {post : β → σ → Prop} {f : α → Prog E Reply β} {a : α}
    (h : Meets step allowed good post (p >>= f) s) (hr : Reaches step p s (Pure.pure a) t) :
    Meets step allowed good post (f a) t :=
  h.reaches (hr.bind .here)

lemma Reaches.trans {r : Prog E Reply α} {u : σ} (h : Reaches step p s q t) (h' : Reaches step q t r u) :
    Reaches step p s r u := by
  induction h with
  | here => exact h'
  | ask hs _ ih => exact .ask hs (ih h')

lemma Reaches.of_bind {f : α → Prog E Reply β} {b : β} {u : σ}
    (h : Reaches step (p >>= f) s (Pure.pure b) u) :
    ∃ a t, Reaches step p s (Pure.pure a) t ∧ Reaches step (f a) t (Pure.pure b) u := by
  induction p generalizing s with
  | pure a => exact ⟨a, s, .here, h⟩
  | ask e next ih =>
    cases h with
    | ask hs hr =>
      obtain ⟨a, t, hfirst, hrest⟩ := ih _ hr
      exact ⟨a, t, .ask hs hfirst, hrest⟩

def Preserves (step : σ → (e : E) → Reply e → σ → Prop) (good : σ → Prop) (p : Prog E Reply α) : Prop :=
  ∀ s a t, good s → Reaches step p s (Pure.pure a) t → good t

lemma preserves_pure (a : α) : Preserves step good (Pure.pure a : Prog E Reply α) := by
  intro s b t hs hr
  cases hr
  exact hs

lemma Preserves.bind {f : α → Prog E Reply β} (h : Preserves step good p) (hf : ∀ a, Preserves step good (f a)) :
    Preserves step good (p >>= f) := by
  intro s b u hs hr
  obtain ⟨a, t, hfirst, hrest⟩ := hr.of_bind
  exact hf a t b u (h s a t hs hfirst) hrest

lemma Meets.lockstep {R : σ → σ → Prop} {a a' : α} {s' t' : σ}
    (hstep : ∀ s s' e a t a' t', R s s' → allowed e → step s e a t → step s' e a' t' → a = a' ∧ R t t')
    (h : Meets step allowed good post p s) (hR : R s s') (hr : Reaches step p s (Pure.pure a) t)
    (hr' : Reaches step p s' (Pure.pure a') t') : a = a' ∧ R t t' := by
  induction p generalizing s s' with
  | pure b =>
    cases hr
    cases hr'
    exact ⟨rfl, hR⟩
  | ask e next ih =>
    cases hr with
    | ask hs hr =>
      cases hr' with
      | ask hs' hr' =>
        obtain ⟨rfl, hR'⟩ := hstep _ _ _ _ _ _ _ hR h.2.1 hs hs'
        exact ih _ (h.2.2.2 _ _ hs) hR' hr hr'

variable {handle : σ → (e : E) → Option (Reply e × σ)}

lemma reaches_of_run {a : α} (h : run handle p s = some (a, t)) :
    Reaches (handled handle) p s (Pure.pure a) t := by
  induction p generalizing s with
  | pure b =>
    obtain ⟨rfl, rfl⟩ := Prod.mk.inj (Option.some.inj h)
    exact .here
  | ask e next ih =>
    rw [run] at h
    split at h
    · cases h
    · rename_i b u hh
      exact .ask hh (ih b h)

lemma run_of_reaches {a : α} (h : Reaches (handled handle) p s (Pure.pure a) t) :
    run handle p s = some (a, t) := by
  generalize hq : (Pure.pure a : Prog E Reply α) = q at h
  induction h with
  | here =>
    subst hq
    rfl
  | ask hs _ ih =>
    rw [run, show handle _ _ = _ from hs]
    exact ih hq

lemma run_bind (handle : σ → (e : E) → Option (Reply e × σ)) (p : Prog E Reply α) (f : α → Prog E Reply β)
    (s : σ) : (p >>= f).run handle s = (p.run handle s).bind fun x => (f x.1).run handle x.2 := by
  induction p generalizing s with
  | pure a => rfl
  | ask e next ih =>
    change (ask e fun a => (next a).bind f).run handle s = _
    rw [Prog.run, Prog.run]
    split
    · rfl
    · exact ih _ _

lemma Meets.run (h : Meets (handled handle) allowed good post p s) :
    ∃ a t, p.run handle s = some (a, t) ∧ post a t := by
  obtain ⟨a, t, hr, hp⟩ := h.returns
  exact ⟨a, t, run_of_reaches hr, hp⟩

lemma Meets.of_run {a : α} (h : Meets (handled handle) allowed good post p s)
    (hr : p.run handle s = some (a, t)) :
    Meets (handled handle) allowed good (fun a' t' => a' = a ∧ t' = t) p s := by
  induction p generalizing s with
  | pure b =>
    obtain ⟨rfl, rfl⟩ := Prod.mk.inj (Option.some.inj hr)
    exact ⟨h.1, rfl, rfl⟩
  | ask e next ih =>
    refine ⟨h.1, h.2.1, h.2.2.1, fun b u hs => ih b (h.2.2.2 b u hs) ?_⟩
    rw [Prog.run, show handle s e = some (b, u) from hs] at hr
    exact hr

lemma Meets.requests (h : Meets (handled handle) allowed good post p s) :
    ∀ e ∈ p.requests handle s, allowed e := by
  induction p generalizing s with
  | pure a => simp [Prog.requests]
  | ask e next ih =>
    intro e' he
    rw [Prog.requests, List.mem_cons] at he
    rcases he with rfl | he
    · exact h.2.1
    · split at he
      · cases he
      · rename_i b u hh
        exact ih b (h.2.2.2 b u hh) e' he

end rules

end Prog

end Interaction
