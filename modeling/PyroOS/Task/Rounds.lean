import PyroOS.Library.Loop
import PyroOS.Task.Scheduler

/-! Cooperative tasks take turns in rounds, like the body of a loop over the workers. -/

namespace PyroOS

open Rotation

variable {σ δ : Type*}

structure Crew (σ δ : Type*) where
  table : Tasks
  running : ℕ
  shared : σ
  own : ℕ → δ

/-- What worker `i` does before it calls `task_yield`, or before it exits. -/
abbrev Behaviour (σ δ : Type*) := ℕ → σ → δ → σ × Option δ

namespace Crew

def yield (m : Crew σ δ) : Crew σ δ :=
  let (t, c) := taskYield m.table
  { m with table := t, running := c.getD m.running }

def step (turn : Behaviour σ δ) (m : Crew σ δ) : Crew σ δ :=
  if m.running = 0 then m
  else
    match turn m.running m.shared (m.own m.running) with
    | (s, some x) => yield { m with shared := s, own := Function.update m.own m.running x }
    | (s, none) => yield { m with shared := s, table := m.table.retire }

def start (stackBase : Word) (old : ℕ → Task) (n : ℕ) (s : σ) (own : ℕ → δ) : Crew σ δ :=
  yield ⟨spawned stackBase old n, 0, s, own⟩

end Crew

def serve (turn : Behaviour σ δ) (x : σ × (ℕ → Option δ)) (i : ℕ) : σ × (ℕ → Option δ) :=
  match x.2 i with
  | none => x
  | some y =>
    let (s, y') := turn i x.1 y
    (s, Function.update x.2 i y')

def round (turn : Behaviour σ δ) (n : ℕ) (x : σ × (ℕ → Option δ)) : σ × (ℕ → Option δ) :=
  (List.range' 1 n).foldl (serve turn) x

variable {turn : Behaviour σ δ} {n i : ℕ} {x : σ × (ℕ → Option δ)} {m : Crew σ δ}

lemma serve_none (h : x.2 i = none) : serve turn x i = x := by
  rw [serve, h]

lemma serve_some {y : δ} (h : x.2 i = some y) :
    serve turn x i = ((turn i x.1 y).1, Function.update x.2 i (turn i x.1 y).2) := by
  rw [serve, h]

structure Serves (n i : ℕ) (x : σ × (ℕ → Option δ)) (m : Crew σ δ) : Prop where
  num : m.table.numTasks = n + 1
  current : m.table.current = m.running
  shared : m.shared = x.1
  own : ∀ v, v ≠ 0 → v ≤ n → x.2 v = if (m.table.tasks v).active then some (m.own v) else none
  running : m.running = ((order n i).find? fun v => (x.2 v).isSome).getD 0

lemma mem_others {v p : ℕ} (hp : p ≤ n) (h : v ∈ others n p) : v ≠ 0 ∧ v ≤ n ∧ v ≠ p := by
  rw [others, List.mem_append, List.mem_range'_1, List.mem_range'_1] at h
  omega

lemma find_others {t : Tasks} {alive : ℕ → Bool} (hnum : t.numTasks = n + 1) (hcur : t.current ≤ n)
    (halive : ∀ v, v ≠ 0 → v ≤ n → alive v = (t.tasks v).active) :
    search t.numTasks t.current t.ready = (others n t.current).find? alive := by
  rw [hnum, search_eq hcur (by simp [Tasks.ready])]
  refine List.find?_congr fun v hv => ?_
  obtain ⟨h₀, hn, -⟩ := mem_others hcur hv
  rw [halive v h₀ hn, Tasks.ready, bne_iff_ne.mpr h₀, Bool.true_and]

lemma yield_serves (hnum : m.table.numTasks = n + 1) (hcur : m.table.current = m.running) (hrun : m.running = i)
    (hle : i ≤ n) (hshared : m.shared = x.1)
    (hown : ∀ v, v ≠ 0 → v ≤ n → x.2 v = if (m.table.tasks v).active then some (m.own v) else none) :
    Serves n i x m.yield := by
  subst hrun
  have halive : ∀ v, v ≠ 0 → v ≤ n → (x.2 v).isSome = (m.table.tasks v).active := by
    intro v h₀ hn
    rw [hown v h₀ hn]
    cases (m.table.tasks v).active <;> rfl
  have hfind := find_others hnum (hcur.trans_le hle) halive
  have horder := find_order n m.running fun v => (x.2 v).isSome
  rw [hcur] at hfind
  rw [Crew.yield, taskYield, hcur, hfind]
  cases hs : (others n m.running).find? fun v => (x.2 v).isSome with
  | some c =>
    rw [hs, Option.some_or] at horder
    exact ⟨hnum, rfl, hshared, hown, by rw [horder]; rfl⟩
  | none =>
    rw [hs, Option.none_or] at horder
    dsimp only
    by_cases h₀ : m.running = 0
    · rw [if_neg (fun h => h.1 h₀)] at horder ⊢
      exact ⟨hnum, hcur, hshared, hown, by rw [horder]; exact h₀⟩
    · have hself := halive m.running h₀ hle
      cases ha : (m.table.tasks m.running).active with
      | true =>
        rw [if_pos ⟨h₀, hself.trans ha⟩] at horder
        rw [if_neg (by simp)]
        exact ⟨hnum, hcur, hshared, hown, by rw [horder]; rfl⟩
      | false =>
        rw [if_neg (by rw [hself, ha]; simp)] at horder
        rw [if_pos ⟨h₀, rfl⟩]
        exact ⟨hnum, rfl, hshared, hown, by rw [horder]; rfl⟩

lemma Serves.serve (turn : Behaviour σ δ) (h : Serves n i x m) (hi : i < n) :
    ∃ N, Serves n (i + 1) (serve turn x (i + 1)) ((Crew.step turn)^[N] m) := by
  have hrun := h.running
  rw [order_cons hi, List.find?_cons] at hrun
  cases hx : x.2 (i + 1) with
  | none =>
    rw [serve_none hx]
    refine ⟨0, h.num, h.current, h.shared, h.own, ?_⟩
    rw [hx] at hrun
    rw [order_concat, List.find?_append, List.find?_singleton, hx]
    simpa using hrun
  | some y =>
    rw [hx] at hrun
    have hrun : m.running = i + 1 := hrun
    have hown := h.own (i + 1) (Nat.succ_ne_zero i) hi
    rw [hx] at hown
    have hactive : (m.table.tasks (i + 1)).active = true := by
      by_contra hne
      rw [if_neg hne] at hown
      cases hown
    rw [if_pos hactive, Option.some.injEq] at hown
    refine ⟨1, ?_⟩
    rw [serve_some hx, Function.iterate_one, Crew.step, if_neg (by rw [hrun]; exact Nat.succ_ne_zero i), hrun,
      h.shared, ← hown]
    have hcur := h.current.trans hrun
    generalize turn (i + 1) x.1 y = r
    obtain ⟨s, _ | z⟩ := r
    · refine yield_serves h.num hcur rfl hi rfl fun v h₀ hn => ?_
      by_cases hv : v = i + 1
      · have hself := m.table.retire_self
        rw [hcur] at hself
        simp only [hv, Function.update_self, hself, Bool.false_eq_true, if_false]
      · simp only [Function.update_of_ne hv, h.own v h₀ hn, Tasks.retire_other _ (hcur ▸ hv : v ≠ m.table.current)]
    · refine yield_serves h.num hcur rfl hi rfl fun v h₀ hn => ?_
      by_cases hv : v = i + 1
      · simp only [hv, Function.update_self, hactive, if_true]
      · simp only [Function.update_of_ne hv, h.own v h₀ hn]

lemma Serves.round (turn : Behaviour σ δ) (h : Serves n 0 x m) : ∃ N,
    Serves n 0 (round turn n x) ((Crew.step turn)^[N] m) := by
  have hall : ∃ N, Serves n (1 + n - 1) (PyroOS.round turn n x) ((Crew.step turn)^[N] m) := by
    refine Loop.foldl_range (fun i y => ∃ N, Serves n (i - 1) y ((Crew.step turn)^[N] m)) ⟨0, h⟩ fun i y hi hlt hy => ?_
    obtain ⟨N, hN⟩ := hy
    obtain ⟨k, hk⟩ := hN.serve turn (by omega)
    rw [Nat.sub_add_cancel hi] at hk
    exact ⟨k + N, by rw [Function.iterate_add_apply]; exact hk⟩
  rw [Nat.add_sub_cancel_left] at hall
  obtain ⟨N, hN⟩ := hall
  exact ⟨N, hN.num, hN.current, hN.shared, hN.own, by rw [← order_last]; exact hN.running⟩

lemma start_serves (stackBase : Word) (old : ℕ → Task) (n : ℕ) (s : σ) (own : ℕ → δ) :
    Serves n 0 (s, fun v => some (own v)) (Crew.start stackBase old n s own) := by
  obtain ⟨hnum, hcur, -, hactive⟩ := spawned_spec stackBase old n
  refine yield_serves hnum hcur rfl (Nat.zero_le n) rfl fun v h₀ hn => ?_
  rw [if_pos (hactive v h₀ hn)]

lemma rounds_serves (turn : Behaviour σ δ) (stackBase : Word) (old : ℕ → Task) (n : ℕ) (s : σ) (own : ℕ → δ) (r : ℕ) :
    ∃ N, Serves n 0 ((round turn n)^[r] (s, fun v => some (own v)))
      ((Crew.step turn)^[N] (Crew.start stackBase old n s own)) := by
  induction r with
  | zero => exact ⟨0, start_serves stackBase old n s own⟩
  | succ r ih =>
    obtain ⟨N, hN⟩ := ih
    obtain ⟨k, hk⟩ := hN.round turn
    exact ⟨k + N, by rw [Function.iterate_succ_apply', Function.iterate_add_apply]; exact hk⟩

lemma Serves.first (h : Serves n 0 x m) : m.running = ((List.range' 1 n).find? fun v => (x.2 v).isSome).getD 0 := by
  rw [h.running, order, Nat.sub_zero, List.range'_zero, List.append_nil]

lemma Serves.home (h : Serves n 0 x m) (hx : ∀ v, v ≠ 0 → v ≤ n → x.2 v = none) : m.running = 0 := by
  have hnone : (List.range' 1 n).find? (fun v => (x.2 v).isSome) = none := by
    rw [List.find?_eq_none]
    intro v hv
    rw [List.mem_range'_1] at hv
    rw [hx v (by omega) (by omega)]
    exact Bool.false_ne_true
  rw [h.first, hnone]
  rfl

lemma Serves.inactive (h : Serves n i x m) {v : ℕ} (h₀ : v ≠ 0) (hn : v ≤ n) (hx : x.2 v = none) :
    (m.table.tasks v).active = false := by
  have hown := h.own v h₀ hn
  rw [hx] at hown
  by_contra ha
  rw [Bool.not_eq_false] at ha
  rw [if_pos ha] at hown
  cases hown

/-- Whatever the workers do, the scheduler runs them like a loop: in every round each worker that has not exited has one
turn, from the first to the last. When a round begins, the first that is left has the processor, or task 0 if none is. -/
theorem coop_rounds (turn : Behaviour σ δ) (stackBase : Word) (old : ℕ → Task) (n : ℕ) (s : σ) (own : ℕ → δ) (r : ℕ) :
    ∃ N m x, m = (Crew.step turn)^[N] (Crew.start stackBase old n s own) ∧
      x = (round turn n)^[r] (s, fun v => some (own v)) ∧ m.shared = x.1 ∧
      (∀ v, v ≠ 0 → v ≤ n → x.2 v = if (m.table.tasks v).active then some (m.own v) else none) ∧
      m.running = ((List.range' 1 n).find? fun v => (x.2 v).isSome).getD 0 ∧ m.table.current = m.running := by
  obtain ⟨N, hN⟩ := rounds_serves turn stackBase old n s own r
  exact ⟨N, _, _, rfl, rfl, hN.shared, hN.own, hN.first, hN.current⟩

/-! ### Threads without a lock -/

structure Racer where
  copy : Option ℤ
  left : ℕ

/-- From the store of `t + 1` to the next load of the counter. -/
def racer : Behaviour ℤ Racer := fun _ counter x =>
  let counter := (x.copy.map (· + 1)).getD counter
  if x.left = 0 then (counter, none) else (counter, some ⟨some counter, x.left - 1⟩)

lemma racer_first (i l : ℕ) (s : ℤ) : racer i s ⟨none, l + 1⟩ = (s, some ⟨some s, l⟩) := rfl

lemma racer_again (i l : ℕ) (s q : ℤ) : racer i s ⟨some q, l + 1⟩ = (q + 1, some ⟨some (q + 1), l⟩) := rfl

lemma racer_last (i : ℕ) (s q : ℤ) : racer i s ⟨some q, 0⟩ = (q + 1, none) := rfl

lemma round_same {s s' : σ} {y : δ} {z : Option δ} (h : ∀ i, turn i s y = (s', z)) (h' : ∀ i, turn i s' y = (s', z))
    (hn : 1 ≤ n) {f : ℕ → Option δ} (hf : ∀ v, v ≠ 0 → v ≤ n → f v = some y) :
    (round turn n (s, f)).1 = s' ∧ ∀ v, v ≠ 0 → v ≤ n → (round turn n (s, f)).2 v = z := by
  have hall := Loop.foldl_range (f := serve turn) (s := (s, f)) (a := 1) (n := n)
    (fun i x => x.1 = (if i = 1 then s else s') ∧ ∀ v, v ≠ 0 → v ≤ n → x.2 v = if v < i then z else some y)
    ⟨rfl, fun v h₀ hv => by rw [if_neg (by omega)]; exact hf v h₀ hv⟩ ?_
  · obtain ⟨hs, hrest⟩ := hall
    refine ⟨hs.trans (if_neg (by omega)), fun v h₀ hv => ?_⟩
    rw [round, hrest v h₀ hv, if_pos (by omega)]
  · rintro i ⟨t, g⟩ hi hlt ⟨ht, hg⟩
    obtain rfl : t = if i = 1 then s else s' := ht
    have hturn : turn i (if i = 1 then s else s') y = (s', z) := by
      split
      · exact h i
      · exact h' i
    have hgi : g i = some y := (hg i (by omega) (by omega)).trans (if_neg (lt_irrefl i))
    rw [serve_some (x := (_, g)) hgi, hturn]
    refine ⟨(if_neg (by omega)).symm, fun v h₀ hv => ?_⟩
    dsimp only
    by_cases hvi : v = i
    · rw [hvi, Function.update_self, if_pos (Nat.lt_succ_self i)]
    · rw [Function.update_of_ne hvi]
      exact (hg v h₀ hv).trans (if_congr (by omega) rfl rfl)

lemma racer_rounds (hn : 1 ≤ n) {l : ℕ} {q s : ℤ} {f : ℕ → Option Racer}
    (hf : ∀ v, v ≠ 0 → v ≤ n → f v = some ⟨some q, l⟩) :
    ((round racer n)^[l + 1] (s, f)).1 = q + l + 1 ∧
      ∀ v, v ≠ 0 → v ≤ n → ((round racer n)^[l + 1] (s, f)).2 v = none := by
  induction l generalizing q s f with
  | zero =>
    rw [zero_add, Function.iterate_one, Nat.cast_zero, add_zero]
    exact round_same (racer_last · s q) (racer_last · _ q) hn hf
  | succ l ih =>
    obtain ⟨-, hown⟩ := round_same (racer_again · l s q) (racer_again · l _ q) hn hf
    rw [Function.iterate_succ_apply]
    obtain ⟨hs, hnone⟩ := ih (s := (round racer n (s, f)).1) hown
    refine ⟨hs.trans ?_, hnone⟩
    push_cast
    ring

/-- The threads of one round all add to the same copy, so `n` threads that add `k` times each reach `k` only. -/
theorem racers_lose_updates (hn : 1 ≤ n) (stackBase : Word) (old : ℕ → Task) (k : ℕ) :
    ∃ N m, m = (Crew.step racer)^[N] (Crew.start stackBase old n 0 fun _ => ⟨none, k⟩) ∧
      m.shared = k ∧ m.running = 0 ∧ m.table.current = 0 ∧ ∀ v, v ≠ 0 → v ≤ n → (m.table.tasks v).active = false := by
  have hrounds : ((round racer n)^[k + 1] (0, fun _ => some ⟨none, k⟩)).1 = k ∧
      ∀ v, v ≠ 0 → v ≤ n → ((round racer n)^[k + 1] (0, fun _ => some ⟨none, k⟩)).2 v = none := by
    cases k with
    | zero => exact round_same (fun _ => rfl) (fun _ => rfl) hn fun _ _ _ => rfl
    | succ k =>
      obtain ⟨-, hown⟩ := round_same (racer_first · k 0) (racer_first · k 0) hn (f := fun _ => some ⟨none, k + 1⟩)
        fun _ _ _ => rfl
      rw [Function.iterate_succ_apply]
      obtain ⟨hs, hnone⟩ := racer_rounds (s := (round racer n (0, fun _ => some ⟨none, k + 1⟩)).1) hn hown
      refine ⟨hs.trans ?_, hnone⟩
      rw [zero_add, Nat.cast_succ]
  obtain ⟨hs, hnone⟩ := hrounds
  obtain ⟨N, hN⟩ := rounds_serves racer stackBase old n 0 (fun _ => ⟨none, k⟩) (k + 1)
  exact ⟨N, _, rfl, hN.shared.trans hs, hN.home hnone, hN.current.trans (hN.home hnone),
    fun v h₀ hv => hN.inactive h₀ hv (hnone v h₀ hv)⟩

-- the demonstration of the shell, where 24 would be right
theorem racers_demo : ∃ N,
    ((Crew.step racer)^[N] (Crew.start 0x30000 (fun _ => ⟨0, false⟩) 3 0 fun _ => ⟨none, 8⟩)).shared = 8 := by
  obtain ⟨N, m, rfl, hs, -⟩ := racers_lose_updates (n := 3) (by decide) 0x30000 (fun _ => ⟨0, false⟩) 8
  exact ⟨N, hs⟩

/-! ### Workers that print -/

def worker (label : ℕ → List Byte) : Behaviour (List Byte) ℕ := fun i out left =>
  if left = 0 then (out, none) else (out ++ label i, some (left - 1))

def printedIn (label : ℕ → List Byte) (times : ℕ → ℕ) (n q : ℕ) : List Byte :=
  ((List.range' 1 n).filter (q < times ·)).flatMap label

def leftIn (times : ℕ → ℕ) (q v : ℕ) : Option ℕ := if q ≤ times v then some (times v - q) else none

lemma worker_serve (label : ℕ → List Byte) {times : ℕ → ℕ} {q i : ℕ} {out : List Byte} {f : ℕ → Option ℕ}
    (hf : f i = leftIn times q i) : serve (worker label) (out, f) i =
      (out ++ if q < times i then label i else [], Function.update f i (leftIn times (q + 1) i)) := by
  rw [leftIn] at hf ⊢
  by_cases hq : q ≤ times i
  · rw [if_pos hq] at hf
    rw [serve_some (x := (out, f)) hf, worker]
    by_cases hlt : q < times i
    · rw [if_neg (by omega), if_pos hlt, if_pos (by omega : q + 1 ≤ times i), Nat.sub_sub]
    · rw [if_pos (by omega), if_neg hlt, if_neg (by omega : ¬ q + 1 ≤ times i), List.append_nil]
  · rw [if_neg hq] at hf
    rw [serve_none (x := (out, f)) hf, if_neg (by omega), if_neg (by omega), List.append_nil,
      Function.update_eq_self_iff.mpr hf.symm]

lemma worker_round (label : ℕ → List Byte) (out : List Byte) {times : ℕ → ℕ} {q : ℕ} {f : ℕ → Option ℕ}
    (hf : ∀ v, v ≠ 0 → v ≤ n → f v = leftIn times q v) :
    (round (worker label) n (out, f)).1 = out ++ printedIn label times n q ∧
      ∀ v, v ≠ 0 → v ≤ n → (round (worker label) n (out, f)).2 v = leftIn times (q + 1) v := by
  have hall := Loop.foldl_range (f := serve (worker label)) (s := (out, f)) (a := 1) (n := n)
    (fun i x => x.1 = out ++ printedIn label times (i - 1) q ∧
      ∀ v, v ≠ 0 → v ≤ n → x.2 v = if v < i then leftIn times (q + 1) v else leftIn times q v)
    ⟨(List.append_nil out).symm, fun v h₀ hv => by rw [if_neg (by omega)]; exact hf v h₀ hv⟩ ?_
  · obtain ⟨hs, hrest⟩ := hall
    rw [Nat.add_sub_cancel_left] at hs
    refine ⟨hs, fun v h₀ hv => ?_⟩
    rw [round, hrest v h₀ hv, if_pos (by omega)]
  · rintro i ⟨t, g⟩ hi hlt ⟨ht, hg⟩
    rw [worker_serve label ((hg i (by omega) (by omega)).trans (if_neg (lt_irrefl i)))]
    refine ⟨?_, fun v h₀ hv => ?_⟩
    · obtain ⟨j, rfl⟩ := Nat.exists_eq_add_of_le hi
      change t ++ _ = _
      rw [show t = _ from ht, List.append_assoc, Nat.add_sub_cancel, Nat.add_sub_cancel_left, printedIn, printedIn,
        Nat.add_comm 1 j, List.range'_1_concat, List.filter_append, List.flatMap_append, Nat.add_comm 1 j]
      by_cases hq : q < times (j + 1) <;> simp [hq]
    · dsimp only
      by_cases hvi : v = i
      · rw [hvi, Function.update_self, if_pos (Nat.lt_succ_self i)]
      · rw [Function.update_of_ne hvi]
        exact (hg v h₀ hv).trans (if_congr (by omega) rfl rfl)

lemma worker_rounds (label : ℕ → List Byte) (times : ℕ → ℕ) (n r : ℕ) :
    ((round (worker label) n)^[r] ([], fun v => some (times v))).1 = (List.range r).flatMap (printedIn label times n) ∧
      ∀ v, v ≠ 0 → v ≤ n → ((round (worker label) n)^[r] ([], fun v => some (times v))).2 v = leftIn times r v := by
  induction r with
  | zero => exact ⟨rfl, fun v _ _ => (if_pos (Nat.zero_le _)).symm⟩
  | succ r ih =>
    obtain ⟨hs, hown⟩ := ih
    rw [Function.iterate_succ_apply']
    generalize (round (worker label) n)^[r] ([], fun v => some (times v)) = x at hs hown ⊢
    obtain ⟨out, f⟩ := x
    obtain ⟨hs', hown'⟩ := worker_round (n := n) label out hown
    refine ⟨hs'.trans ?_, hown'⟩
    rw [List.range_succ, List.flatMap_append, List.flatMap_singleton]
    exact congrArg (· ++ _) hs

/-- The labels come out round by round, and in each round those of the workers that still have to print, in order. -/
theorem workers_print (label : ℕ → List Byte) (times : ℕ → ℕ) (stackBase : Word) (old : ℕ → Task) {R : ℕ}
    (hR : ∀ v, v ≠ 0 → v ≤ n → times v < R) :
    ∃ N m, m = (Crew.step (worker label))^[N] (Crew.start stackBase old n [] times) ∧
      m.shared = (List.range R).flatMap (printedIn label times n) ∧ m.running = 0 ∧ m.table.current = 0 := by
  obtain ⟨hs, hown⟩ := worker_rounds label times n R
  have hnone : ∀ v, v ≠ 0 → v ≤ n → ((round (worker label) n)^[R] ([], fun v => some (times v))).2 v = none := by
    intro v h₀ hv
    have hlt := hR v h₀ hv
    rw [hown v h₀ hv, leftIn, if_neg (by omega)]
  obtain ⟨N, hN⟩ := rounds_serves (worker label) stackBase old n [] times R
  exact ⟨N, _, rfl, hN.shared.trans hs, hN.home hnone, hN.current.trans (hN.home hnone)⟩

-- task `a` prints twice and task `b` three times
theorem workers_print_uneven : ∃ N, ((Crew.step (worker fun v => [BitVec.ofNat 8 (0x40 + v)]))^[N]
    (Crew.start 0x30000 (fun _ => ⟨0, false⟩) 2 [] fun v => v + 1)).shared = [0x41, 0x42, 0x41, 0x42, 0x42] := by
  obtain ⟨N, m, rfl, hs, -⟩ := workers_print (n := 2) (fun v => [BitVec.ofNat 8 (0x40 + v)]) (fun v => v + 1) 0x30000
    (fun _ => ⟨0, false⟩) (R := 4) (by omega)
  exact ⟨N, hs.trans (by decide)⟩

end PyroOS
