import Mathlib
import PyroOS.Library.Rotation
import PyroOS.Memory.Word

/-! The cooperative scheduler: workers that yield and exit, and the order in which they run. -/

namespace PyroOS

open Rotation

structure Task where
  esp : Word
  active : Bool

structure Tasks where
  tasks : ℕ → Task
  numTasks : ℕ
  current : ℕ

def stackSize : ℕ := 4096

def createdEsp (stackBase : Word) (id : ℕ) : Word := stackBase + BitVec.ofNat 32 ((id + 1) * stackSize) - 20

def taskCreate (stackBase : Word) (t : Tasks) : Tasks where
  tasks := Function.update t.tasks t.numTasks ⟨createdEsp stackBase t.numTasks, true⟩
  numTasks := t.numTasks + 1
  current := t.current

def Tasks.ready (t : Tasks) (cand : ℕ) : Bool := cand != 0 && (t.tasks cand).active

def taskYield (t : Tasks) : Tasks × Option ℕ :=
  let prev := t.current
  match search t.numTasks prev t.ready with
  | some cand => ({ t with current := cand }, some cand)
  | none =>
    if prev ≠ 0 ∧ (t.tasks prev).active = false then ({ t with current := 0 }, some 0) else (t, none)

def Tasks.retire (t : Tasks) : Tasks :=
  { t with tasks := Function.update t.tasks t.current { t.tasks t.current with active := false } }

@[simp] lemma Tasks.retire_self (t : Tasks) : (t.retire.tasks t.current).active = false := by
  simp [Tasks.retire]

@[simp] lemma Tasks.retire_other (t : Tasks) {v : ℕ} (h : v ≠ t.current) : t.retire.tasks v = t.tasks v := by
  simp [Tasks.retire, h]

structure Switch where
  source : ℕ
  target : ℕ
  active : ℕ → Bool

structure Coop where
  table : Tasks
  running : ℕ
  left : ℕ → ℕ
  log : List Switch

namespace Coop

def yield (m : Coop) : Coop :=
  match taskYield m.table with
  | (t, none) => { m with table := t }
  | (t, some c) =>
    { m with
      table := t
      running := c
      log := m.log ++ [⟨m.running, c, fun i => (t.tasks i).active⟩] }

def step (m : Coop) : Coop :=
  if m.running = 0 then m
  else if m.left m.running = 0 then yield { m with table := m.table.retire }
  else yield { m with left := Function.update m.left m.running (m.left m.running - 1) }

end Coop

def spawned (stackBase : Word) (old : ℕ → Task) : ℕ → Tasks
  | 0 => ⟨Function.update old 0 ⟨0, false⟩, 1, 0⟩
  | n + 1 => taskCreate stackBase (spawned stackBase old n)

def Coop.start (stackBase : Word) (old : ℕ → Task) (n : ℕ) (yields : ℕ → ℕ) : Coop :=
  Coop.yield ⟨spawned stackBase old n, 0, yields, []⟩

def Switch.turn (sw : Switch) : Turn := ⟨sw.target, fun v => v != 0 && sw.active v⟩

structure RoundRobin (n : ℕ) (log : List Switch) : Prop where
  targets : ∀ sw ∈ log, sw.target ≠ sw.source ∧ (sw.target ≠ 0 → sw.active sw.target = true)
  turns : ∀ l₁ a l₂ b l₃, log = l₁ ++ a :: (l₂ ++ b :: l₃) → a.target ≠ 0 → b.target = a.target →
    (∀ x ∈ l₂, x.target ≠ a.target) →
    (l₂.map fun x => dist (n + 1) a.target x.target).Pairwise (· < ·) ∧
      ∀ v, v ≠ 0 → v ≤ n → v ≠ a.target → b.active v = true → (l₂.map (·.target)).count v = 1
  back : ∃ l sw, log = l ++ [sw] ∧ sw.target = 0 ∧ (∀ v, v ≠ 0 → v ≤ n → sw.active v = false) ∧
    ∀ x ∈ l, x.target ≠ 0

variable {stackBase : Word} {old : ℕ → Task} {n : ℕ} {yields : ℕ → ℕ} {t : Tasks} {m : Coop}

/-! ### Single steps -/

lemma taskYield_cases (t : Tasks) (hcur : t.current < t.numTasks) :
    (∃ c, taskYield t = ({ t with current := c }, some c) ∧ search t.numTasks t.current t.ready = some c) ∨
    ((∀ v < t.numTasks, v ≠ t.current → t.ready v = false) ∧
      ((taskYield t = ({ t with current := 0 }, some 0) ∧ t.current ≠ 0 ∧ (t.tasks t.current).active = false) ∨
        (taskYield t = (t, none) ∧ ¬ (t.current ≠ 0 ∧ (t.tasks t.current).active = false)))) := by
  rw [taskYield]
  cases hs : search t.numTasks t.current t.ready with
  | some c => exact .inl ⟨c, rfl, rfl⟩
  | none =>
    refine .inr ⟨fun v hv hne => search_none hcur hs hv hne, ?_⟩
    dsimp only
    split
    · rename_i h
      exact .inl ⟨rfl, h⟩
    · rename_i h
      exact .inr ⟨rfl, h⟩

lemma spawned_spec (stackBase : Word) (old : ℕ → Task) (n : ℕ) :
    (spawned stackBase old n).numTasks = n + 1 ∧ (spawned stackBase old n).current = 0 ∧
    ((spawned stackBase old n).tasks 0).active = false ∧
    ∀ v, v ≠ 0 → v ≤ n → ((spawned stackBase old n).tasks v).active = true := by
  induction n with
  | zero =>
    refine ⟨rfl, rfl, rfl, fun v h₁ h₂ => by omega⟩
  | succ n ih =>
    obtain ⟨hn, hc, h₀, hw⟩ := ih
    simp only [spawned, taskCreate, hn]
    refine ⟨trivial, hc, ?_, fun v h₁ h₂ => ?_⟩
    · rw [Function.update_of_ne (by omega)]
      exact h₀
    · by_cases hv : v = n + 1
      · rw [hv, Function.update_self]
      · rw [Function.update_of_ne hv]
        exact hw v h₁ (by omega)

structure Yielding (n : ℕ) (m : Coop) : Prop where
  num : m.table.numTasks = n + 1
  current : m.table.current = m.running
  worker : m.running ≠ 0 ∧ m.running ≤ n
  targets : ∀ sw ∈ m.log, sw.target ≠ sw.source ∧ sw.target ≠ 0 ∧ sw.target ≤ n ∧ sw.active sw.target = true
  chain : List.IsChain (Next (n + 1)) (m.log.map Switch.turn)
  last : ∃ l sw, m.log = l ++ [sw] ∧ sw.target = m.running ∧
    ∀ v, (m.table.tasks v).active = true → sw.active v = true
  rest : ∀ v, v ≠ 0 → v ≤ n → (m.table.tasks v).active = false → m.left v = 0

structure Working (n : ℕ) (m : Coop) : Prop extends Yielding n m where
  active : (m.table.tasks m.running).active = true

structure Finished (n : ℕ) (m : Coop) : Prop where
  running : m.running = 0
  inactive : ∀ v, v ≠ 0 → v ≤ n → (m.table.tasks v).active = false
  rest : ∀ v, v ≠ 0 → v ≤ n → m.left v = 0
  log : ∃ l sw, m.log = l ++ [sw] ∧ sw.target = 0 ∧ sw.source ≠ 0 ∧ (∀ v, v ≠ 0 → v ≤ n → sw.active v = false) ∧
    (∀ sw ∈ l, sw.target ≠ sw.source ∧ sw.target ≠ 0 ∧ sw.target ≤ n ∧ sw.active sw.target = true) ∧
    List.IsChain (Next (n + 1)) (l.map Switch.turn)

lemma Tasks.ready_iff {v : ℕ} : t.ready v = true ↔ v ≠ 0 ∧ (t.tasks v).active = true := by
  simp [Tasks.ready]

lemma Yielding.extend (h : Yielding n m) {c : ℕ} (hs : search m.table.numTasks m.table.current m.table.ready = some c) :
    Working n { m with
      table := { m.table with current := c }
      running := c
      log := m.log ++ [⟨m.running, c, fun i => (m.table.tasks i).active⟩] } := by
  have hs' : search (n + 1) m.running m.table.ready = some c := by rw [← h.num, ← h.current, hs]
  obtain ⟨hc, hne, hready, _⟩ := search_some (Nat.lt_succ_of_le h.worker.2) hs'
  obtain ⟨hc₀, hactive⟩ := Tasks.ready_iff.mp hready
  obtain ⟨l, sw, hlog, htarget, hflags⟩ := h.last
  refine ⟨⟨h.num, rfl, ⟨hc₀, Nat.le_of_lt_succ hc⟩, fun x hx => ?_, ?_, ⟨m.log, _, rfl, rfl, fun v hv => hv⟩,
    h.rest⟩, hactive⟩
  · rcases List.mem_append.mp hx with hx | hx
    · exact h.targets x hx
    · rw [List.mem_singleton.mp hx]
      exact ⟨hne, hc₀, Nat.le_of_lt_succ hc, hactive⟩
  · dsimp only
    rw [List.map_append, List.isChain_append]
    refine ⟨h.chain, List.isChain_singleton _, fun x hx y hy => ?_⟩
    rw [hlog, List.map_append, List.map_singleton, List.getLast?_concat] at hx
    obtain rfl := Option.some.inj hx
    obtain rfl := Option.some.inj hy
    refine ⟨?_, fun v hv => ?_⟩
    · rw [show sw.turn.target = m.running from htarget]
      exact hs'
    · simp only [Switch.turn, Bool.and_eq_true] at hv ⊢
      exact ⟨hv.1, hflags v hv.2⟩

lemma yield_of_switch {c : ℕ} {t : Tasks} (h : taskYield m.table = (t, some c)) : m.yield =
    { m with table := t, running := c, log := m.log ++ [⟨m.running, c, fun i => (t.tasks i).active⟩] } := by
  rw [Coop.yield, h]

lemma yield_of_none (h : taskYield m.table = (m.table, none)) : m.yield = m := by
  rw [Coop.yield, h]

lemma Yielding.yield_cases (h : Yielding n m) : Working n m.yield ∨ Finished n m.yield := by
  rcases taskYield_cases m.table (by rw [h.current, h.num]; exact Nat.lt_succ_of_le h.worker.2) with
    ⟨c, hy, hs⟩ | ⟨hnone, ⟨hy, _, hexit⟩ | ⟨hy, hstay⟩⟩
  · rw [yield_of_switch hy]
    exact .inl (h.extend hs)
  · rw [h.current] at hexit
    have hall : ∀ v, v ≠ 0 → v ≤ n → (m.table.tasks v).active = false := by
      intro v hv hn
      by_cases hvr : v = m.running
      · rw [hvr, hexit]
      · have hready := hnone v (by rw [h.num]; omega) (by rw [h.current]; exact hvr)
        exact Bool.eq_false_iff.mpr fun ha => Bool.eq_false_iff.mp hready (Tasks.ready_iff.mpr ⟨hv, ha⟩)
    rw [yield_of_switch hy]
    exact .inr ⟨rfl, hall, fun v hv hn => h.rest v hv hn (hall v hv hn), m.log, _, rfl, rfl, h.worker.1, hall,
      h.targets, h.chain⟩
  · rw [yield_of_none hy]
    rw [h.current] at hstay
    refine .inl ⟨h, ?_⟩
    by_contra hact
    exact hstay ⟨h.worker.1, Bool.eq_false_iff.mpr hact⟩

lemma yield_keeps (m : Coop) : (∀ v, (m.yield.table.tasks v).active = (m.table.tasks v).active) ∧
    m.yield.left = m.left := by
  have htasks : (taskYield m.table).1.tasks = m.table.tasks := by
    rw [taskYield]
    cases search m.table.numTasks m.table.current m.table.ready with
    | some c => rfl
    | none =>
      dsimp only
      split <;> rfl
  rw [Coop.yield]
  generalize taskYield m.table = r at htasks ⊢
  obtain ⟨t, _ | c⟩ := r
  · exact ⟨fun v => by rw [htasks], rfl⟩
  · exact ⟨fun v => by rw [htasks], rfl⟩

/-! ### Runs -/

def work (n : ℕ) (m : Coop) : ℕ :=
  ∑ v ∈ Finset.Icc 1 n, if (m.table.tasks v).active then m.left v + 1 else 0

lemma work_yield (n : ℕ) (m : Coop) : work n m.yield = work n m := by
  obtain ⟨hflags, hleft⟩ := yield_keeps m
  simp only [work, hflags, hleft]

lemma sum_pred {p : ℕ} {f g : ℕ → ℕ} (hp : p ∈ Finset.Icc 1 n) (hf : f p = g p + 1) (h : ∀ v, v ≠ p → f v = g v) :
    ∑ v ∈ Finset.Icc 1 n, f v = (∑ v ∈ Finset.Icc 1 n, g v) + 1 := by
  have h₁ : f p + ∑ v ∈ (Finset.Icc 1 n).erase p, f v = ∑ v ∈ Finset.Icc 1 n, f v := Finset.add_sum_erase _ f hp
  have h₂ : g p + ∑ v ∈ (Finset.Icc 1 n).erase p, g v = ∑ v ∈ Finset.Icc 1 n, g v := Finset.add_sum_erase _ g hp
  have h₃ : ∑ v ∈ (Finset.Icc 1 n).erase p, f v = ∑ v ∈ (Finset.Icc 1 n).erase p, g v :=
    Finset.sum_congr rfl fun v hv => h v (Finset.ne_of_mem_erase hv)
  omega

lemma Working.step (h : Working n m) : (Working n m.step ∨ Finished n m.step) ∧ work n m = work n m.step + 1 := by
  have hp : m.running ∈ Finset.Icc 1 n := Finset.mem_Icc.mpr ⟨Nat.one_le_iff_ne_zero.mpr h.worker.1, h.worker.2⟩
  rw [Coop.step, if_neg h.worker.1]
  by_cases hleft : m.left m.running = 0
  · -- the worker exits
    rw [if_pos hleft]
    have hflag : ∀ v, ((m.table.retire.tasks v).active = true) → (m.table.tasks v).active = true := by
      intro v hv
      by_cases hvc : v = m.table.current
      · rw [hvc, Tasks.retire_self] at hv
        cases hv
      · rwa [Tasks.retire_other _ hvc] at hv
    obtain ⟨l, sw, hlog, htarget, hflags⟩ := h.last
    have hyield : Yielding n { m with table := m.table.retire } :=
      ⟨h.num, h.current, h.worker, h.targets, h.chain, ⟨l, sw, hlog, htarget, fun v hv => hflags v (hflag v hv)⟩,
        fun v hv hn hv' => ?_⟩
    rotate_left
    · by_cases hvr : v = m.running
      · rw [hvr]
        exact hleft
      · rw [Tasks.retire_other _ (show v ≠ m.table.current by rw [h.current]; exact hvr)] at hv'
        exact h.rest v hv hn hv'
    refine ⟨hyield.yield_cases, ?_⟩
    rw [work_yield]
    refine sum_pred hp ?_ fun v hv => ?_
    · have hself : (m.table.retire.tasks m.running).active = false := by rw [← h.current, Tasks.retire_self]
      simp only [hself, h.active, hleft, if_true, Bool.false_eq_true, if_false]
    · simp only [Tasks.retire_other _ (show v ≠ m.table.current by rw [h.current]; exact hv)]
  · rw [if_neg hleft]
    have hyield : Yielding n { m with left := Function.update m.left m.running (m.left m.running - 1) } :=
      ⟨h.num, h.current, h.worker, h.targets, h.chain, h.last, fun v hv hn hv' => ?_⟩
    rotate_left
    · have hne : v ≠ m.running := by
        rintro rfl
        rw [h.active] at hv'
        cases hv'
      exact (Function.update_of_ne hne _ _).trans (h.rest v hv hn hv')
    refine ⟨hyield.yield_cases, ?_⟩
    rw [work_yield]
    refine sum_pred hp ?_ fun v hv => ?_
    · simp only [h.active, if_true, Function.update_self]
      omega
    · simp only [Function.update_of_ne hv]

lemma start_working (hn : 1 ≤ n) : Working n (Coop.start stackBase old n yields) ∧
    (Coop.start stackBase old n yields).left = yields := by
  obtain ⟨hnum, hcur, _, hactive⟩ := spawned_spec stackBase old n
  refine ⟨?_, (yield_keeps _).2⟩
  rw [Coop.start]
  rcases taskYield_cases (spawned stackBase old n) (by rw [hcur, hnum]; omega) with ⟨c, hy, hs⟩ | ⟨hnone, _⟩
  · rw [hnum, hcur] at hs
    obtain ⟨hc, hne, hready, _⟩ := search_some (Nat.succ_pos n) hs
    obtain ⟨_, ha⟩ := Tasks.ready_iff.mp hready
    rw [yield_of_switch hy]
    refine ⟨⟨hnum, rfl, ⟨hne, Nat.le_of_lt_succ hc⟩, fun x hx => ?_, List.isChain_singleton _,
      ⟨[], _, rfl, rfl, fun v hv => hv⟩, fun v hv hn hv' => ?_⟩, ha⟩
    rotate_left
    · rw [hactive v hv hn] at hv'
      cases hv'
    rw [List.mem_singleton.mp hx]
    exact ⟨hne, hne, Nat.le_of_lt_succ hc, ha⟩
  · have hready := hnone 1 (by rw [hnum]; omega) (by rw [hcur]; omega)
    exact (Bool.eq_false_iff.mp hready (Tasks.ready_iff.mpr ⟨one_ne_zero, hactive 1 one_ne_zero hn⟩)).elim

lemma Finished.step (h : Finished n m) : m.step = m := by rw [Coop.step, if_pos h.running]

lemma Working.finishes (h : Working n m) : ∃ N, Finished n (Coop.step^[N] m) := by
  refine iterate_reaches (R := fun m w => (Working n m ∨ Finished n m) ∧ work n m = w) (fun m w hm => ?_) ⟨.inl h, rfl⟩
  rcases hm.1 with hw | hf
  · obtain ⟨hnext, hwork⟩ := hw.step
    exact .inr ⟨work n m.step, by omega, hnext, rfl⟩
  · exact .inl hf

lemma Finished.roundRobin (h : Finished n m) : RoundRobin n m.log := by
  obtain ⟨l, sw, hlog, htarget, hsource, hdone, htargets, hchain⟩ := h.log
  refine ⟨fun x hx => ?_, fun l₁ a l₂ b l₃ heq ha hb hl => ?_, l, sw, hlog, htarget, hdone,
    fun x hx => (htargets x hx).2.1⟩
  · rw [hlog] at hx
    rcases List.mem_append.mp hx with hx | hx
    · obtain ⟨h₁, _, _, h₂⟩ := htargets x hx
      exact ⟨h₁, fun _ => h₂⟩
    · rw [List.mem_singleton.mp hx, htarget]
      exact ⟨Ne.symm hsource, fun hh => (hh rfl).elim⟩
  · -- the last switch is to task 0, so `b` comes before it
    rw [hlog] at heq
    induction l₃ using List.reverseRecOn with
    | nil =>
      have hlast : sw = b := by
        have hh := congrArg List.getLast? heq
        rw [← List.cons_append, ← List.append_assoc, List.getLast?_concat, List.getLast?_concat] at hh
        exact Option.some.inj hh
      rw [hlast, hb] at htarget
      exact (ha htarget).elim
    | append_singleton l₃ x _ =>
      have hfront : l = l₁ ++ (a :: (l₂ ++ [b])) ++ l₃ := by
        have hh : l ++ [sw] = (l₁ ++ (a :: (l₂ ++ [b])) ++ l₃) ++ [x] := by rw [heq]; simp
        exact (List.append_inj' hh rfl).1
      rw [hfront, List.map_append, List.map_append] at hchain
      have hmid := (List.isChain_append.mp (List.isChain_append.mp hchain).1).2.1
      rw [List.map_cons, List.map_append, List.map_singleton] at hmid
      have hbound : a.turn.target < n + 1 := Nat.lt_succ_of_le (htargets a (by rw [hfront]; simp)).2.2.1
      obtain ⟨horder, hcount⟩ := turns hmid hbound hb fun y hy => by
        obtain ⟨x, hx, rfl⟩ := List.mem_map.mp hy
        exact hl x hx
      rw [List.map_map] at horder
      refine ⟨horder, fun v hv₀ hv hva hactive => ?_⟩
      have hh := hcount v (by omega) hva (by simp [Switch.turn, hv₀, hactive])
      rwa [List.map_map] at hh

lemma Working.reach (h : Working n m) (j : ℕ) : Working n (Coop.step^[j] m) ∨ Finished n (Coop.step^[j] m) := by
  induction j with
  | zero => exact .inl h
  | succ j ih =>
    rw [Function.iterate_succ_apply']
    rcases ih with ih | ih
    · exact ih.step.1
    · rw [ih.step]
      exact .inr ih

lemma Working.alone (h : Working n m) (hleft : m.left m.running ≠ 0)
    (halone : ∀ v, v ≠ 0 → v ≤ n → v ≠ m.running → (m.table.tasks v).active = false) :
    m.step.running = m.running ∧ m.step.log = m.log := by
  have hcur := h.current
  rw [Coop.step, if_neg h.worker.1, if_neg hleft]
  rcases taskYield_cases m.table (by rw [hcur, h.num]; exact Nat.lt_succ_of_le h.worker.2) with
    ⟨c, _, hs⟩ | ⟨_, ⟨_, _, hexit⟩ | ⟨hy, _⟩⟩
  · rw [h.num, hcur] at hs
    obtain ⟨hc, hne, hready, _⟩ := search_some (Nat.lt_succ_of_le h.worker.2) hs
    obtain ⟨hc₀, ha⟩ := Tasks.ready_iff.mp hready
    rw [halone c hc₀ (Nat.le_of_lt_succ hc) hne] at ha
    cases ha
  · rw [hcur, h.active] at hexit
    cases hexit
  · rw [yield_of_none (m := { m with left := Function.update m.left m.running (m.left m.running - 1) }) hy]
    exact ⟨rfl, rfl⟩

/-- Any number of workers, each of which yields as often as it likes and then exits. The rotation is fair and
skips those who have exited, and task 0 gets the processor back once, from the last of them. -/
theorem round_robin (stackBase : Word) (old : ℕ → Task) (yields : ℕ → ℕ) (hn : 1 ≤ n) :
    (∃ N, (Coop.step^[N] (Coop.start stackBase old n yields)).running = 0 ∧
      (∀ v, v ≠ 0 → v ≤ n → ((Coop.step^[N] (Coop.start stackBase old n yields)).table.tasks v).active = false ∧
        (Coop.step^[N] (Coop.start stackBase old n yields)).left v = 0) ∧
      RoundRobin n (Coop.step^[N] (Coop.start stackBase old n yields)).log) ∧
    ∀ j m, m = Coop.step^[j] (Coop.start stackBase old n yields) → m.running ≠ 0 → m.left m.running ≠ 0 →
      (∀ v, v ≠ 0 → v ≤ n → v ≠ m.running → (m.table.tasks v).active = false) →
      m.step.running = m.running ∧ m.step.log = m.log := by
  have hw : Working n (Coop.start stackBase old n yields) := (start_working hn).1
  refine ⟨?_, fun j m hm hrun hleft halone => ?_⟩
  · obtain ⟨N, hN⟩ := hw.finishes
    exact ⟨N, hN.running, fun v hv hn => ⟨hN.inactive v hv hn, hN.rest v hv hn⟩, hN.roundRobin⟩
  · rcases hw.reach j with hj | hj
    · rw [← hm] at hj
      exact hj.alone hleft halone
    · rw [← hm] at hj
      exact (hrun hj.running).elim

def sampleCoop : Coop := Coop.start 0x30000 (fun _ => ⟨0, false⟩) 3 fun _ => 5

theorem round_robin_demo : ∃ N, (Coop.step^[N] sampleCoop).running = 0 ∧ RoundRobin 3 (Coop.step^[N] sampleCoop).log := by
  obtain ⟨⟨N, hrunning, _, hlog⟩, _⟩ := round_robin (n := 3) 0x30000 (fun _ => ⟨0, false⟩) (fun _ => 5) (by decide)
  exact ⟨N, hrunning, hlog⟩

example : (Coop.step^[18] sampleCoop).log.map (·.target) = [1, 2, 3, 1, 2, 3, 1, 2, 3, 1, 2, 3, 1, 2, 3, 1, 2, 3, 0] := by
  decide +kernel

end PyroOS
