import PyroOS.Task.Scheduler

/-! Threads that share a counter under a mutex, in any order and in the order of `task_yield`. -/

namespace PyroOS

open Rotation

inductive Stage where
  | lock
  | wait -- `task_yield` in `mutex_lock`
  | load
  | pause (t : ℤ) -- `task_yield` with the mutex held
  | store (t : ℤ)
  | unlock
  | exit
  | gone

structure Worker where
  stage : Stage
  left : ℕ

structure Shared where
  locked : ℤ
  counter : ℤ

structure Workers where
  shared : Shared
  worker : ℕ → Worker

def atomicXchg (s : Shared) (v : ℤ) : ℤ × Shared := (s.locked, { s with locked := v })

def mutexUnlock (s : Shared) : Shared := { s with locked := 0 }

def Worker.loop (left : ℕ) : Worker := ⟨if left = 0 then .exit else .lock, left⟩

def safeWorker (s : Shared) (x : Worker) : Shared × Worker :=
  match x.stage with
  | .lock =>
    let (old, s) := atomicXchg s 1
    (s, { x with stage := if old ≠ 0 then .wait else .load })
  | .wait => (s, { x with stage := .lock })
  | .load => (s, { x with stage := .pause s.counter })
  | .pause t => (s, { x with stage := .store t })
  | .store t => ({ s with counter := t + 1 }, { x with stage := .unlock })
  | .unlock => (mutexUnlock s, .loop (x.left - 1))
  | .exit => (s, { x with stage := .gone })
  | .gone => (s, x)

namespace Workers

def step (w : Workers) (i : ℕ) : Workers :=
  let (s, x) := safeWorker w.shared (w.worker i)
  ⟨s, Function.update w.worker i x⟩

def start (k : ℕ) : Workers := ⟨⟨0, 0⟩, fun _ => .loop k⟩

end Workers

def Stage.ended : Stage → Bool
  | .exit | .gone => true
  | _ => false

def Stage.critical : Stage → Bool
  | .load | .pause _ | .store _ | .unlock => true
  | _ => false

inductive Interleaved (n k : ℕ) : Workers → Prop
  | start : Interleaved n k (.start k)
  | step {w : Workers} (i : ℕ) : Interleaved n k w → i ∈ Finset.Icc 1 n → (w.worker i).stage ≠ .gone →
    Interleaved n k (w.step i)

variable {n k i : ℕ} {o o' : Option ℕ} {w : Workers} {s : Shared} {x : Worker}

/-! ### Mutual exclusion -/

def Stage.copy : Stage → Option ℤ
  | .pause t | .store t => some t
  | _ => none

def Worker.owed (x : Worker) : ℕ :=
  match x.stage with
  | .unlock => x.left - 1
  | _ => x.left

structure Worker.Fits (x : Worker) (o : Option ℕ) (counter : ℤ) (i : ℕ) : Prop where
  holder : x.stage.critical = true ↔ o = some i
  copy : ∀ t, x.stage.copy = some t → t = counter
  left : x.stage.ended = true ↔ x.left = 0

structure Exclusive (n k : ℕ) (o : Option ℕ) (w : Workers) : Prop where
  lock : w.shared.locked = 0 ↔ o = none
  member : ∀ i, o = some i → i ∈ Finset.Icc 1 n
  fits : ∀ i ∈ Finset.Icc 1 n, (w.worker i).Fits o w.shared.counter i
  count : w.shared.counter + ∑ i ∈ Finset.Icc 1 n, ((w.worker i).owed : ℤ) = n * k

lemma Stage.critical_of_copy {g : Stage} {t : ℤ} (h : g.copy = some t) : g.critical = true := by
  cases g <;> first | rfl | cases h

lemma Exclusive.update (h : Exclusive n k o w) (hi : i ∈ Finset.Icc 1 n) (hlock : s.locked = 0 ↔ o' = none)
    (hothers : ∀ j, j ≠ i → (o' = some j ↔ o = some j)) (hcounter : s.counter = w.shared.counter ∨ o = some i)
    (hx : x.Fits o' s.counter i) (hcount : s.counter + x.owed = w.shared.counter + (w.worker i).owed) :
    Exclusive n k o' ⟨s, Function.update w.worker i x⟩ := by
  refine ⟨hlock, fun j hj => ?_, fun j hj => ?_, ?_⟩
  · by_cases hji : j = i
    · rwa [hji]
    · exact h.member j ((hothers j hji).mp hj)
  · dsimp only
    by_cases hji : j = i
    · rwa [hji, Function.update_self]
    · rw [Function.update_of_ne hji]
      obtain ⟨hholder, hcopy, hleft⟩ := h.fits j hj
      refine ⟨hholder.trans (hothers j hji).symm, fun t ht => ?_, hleft⟩
      rcases hcounter with hc | hc
      · exact (hcopy t ht).trans hc.symm
      · have hj' := hholder.mp (Stage.critical_of_copy ht)
        rw [hc, Option.some.injEq] at hj'
        exact absurd hj'.symm hji
  · have hsum : ∑ j ∈ (Finset.Icc 1 n).erase i, ((Function.update w.worker i x j).owed : ℤ) =
        ∑ j ∈ (Finset.Icc 1 n).erase i, ((w.worker j).owed : ℤ) :=
      Finset.sum_congr rfl fun j hj => by rw [Function.update_of_ne (Finset.ne_of_mem_erase hj)]
    have hold := h.count
    rw [← Finset.add_sum_erase _ _ hi] at hold ⊢
    rw [hsum]
    dsimp only
    rw [Function.update_self]
    linarith

lemma Worker.loop_fits {counter : ℤ} (left : ℕ) (ho : o ≠ some i) : (Worker.loop left).Fits o counter i := by
  rw [Worker.loop]
  split
  · rename_i h
    exact ⟨by simp [Stage.critical, ho], fun t ht => (by cases ht), by simp [Stage.ended, h]⟩
  · rename_i h
    exact ⟨by simp [Stage.critical, ho], fun t ht => (by cases ht), by simp [Stage.ended, h]⟩

lemma Worker.loop_owed (left : ℕ) : (Worker.loop left).owed = left := by
  by_cases h : left = 0 <;> simp [Worker.loop, Worker.owed, h]

lemma Exclusive.start (n k : ℕ) : Exclusive n k none (.start k) := by
  refine ⟨by simp [Workers.start], fun i hi => (by cases hi), fun i hi => Worker.loop_fits k (by simp), ?_⟩
  simp [Workers.start, Worker.loop_owed]

lemma Exclusive.move (h : Exclusive n k o w) (hi : i ∈ Finset.Icc 1 n) {g : Stage}
    (hcritical : g.critical = (w.worker i).stage.critical) (hended : g.ended = (w.worker i).stage.ended)
    (hcopy : ∀ t, g.copy = some t → t = w.shared.counter)
    (howed : Worker.owed ⟨g, (w.worker i).left⟩ = (w.worker i).owed) :
    Exclusive n k o ⟨w.shared, Function.update w.worker i { w.worker i with stage := g }⟩ := by
  obtain ⟨hholder, -, hleft⟩ := h.fits i hi
  exact h.update hi h.lock (fun j hj => Iff.rfl) (.inl rfl) ⟨hcritical ▸ hholder, hcopy, hended ▸ hleft⟩ (by rw [howed])

def Workers.nextHolder (o : Option ℕ) (w : Workers) (i : ℕ) : Option ℕ :=
  match (w.worker i).stage with
  | .lock => if w.shared.locked = 0 then some i else o
  | .unlock => none
  | _ => o

lemma Exclusive.step (h : Exclusive n k o w) (hi : i ∈ Finset.Icc 1 n) : Exclusive n k (w.nextHolder o i) (w.step i) := by
  obtain ⟨hholder, hcopy, hleft⟩ := h.fits i hi
  have hlock := h.lock
  have howed : (w.worker i).stage ≠ .unlock → (w.worker i).owed = (w.worker i).left := fun hne => by
    rw [Worker.owed]
    split
    · contradiction
    · rfl
  simp only [Workers.step, safeWorker, Workers.nextHolder]
  cases hs : (w.worker i).stage with rw [hs] at hholder hcopy hleft howed
  | lock =>
    by_cases hfree : w.shared.locked = 0
    · obtain rfl := hlock.mp hfree
      simp only [atomicXchg, hfree, if_true, ne_eq, not_true_eq_false, if_false]
      refine h.update hi (by simp) (fun j hj => by simp [hj.symm]) (.inl rfl)
        ⟨by simp [Stage.critical], fun t ht => (by cases ht), hleft⟩ ?_
      rw [howed (by simp), Worker.owed]
    · simp only [atomicXchg, hfree, if_false, ne_eq, not_false_eq_true, if_true]
      refine h.update hi (by simpa using fun ho => hfree (hlock.mpr ho)) (fun j hj => Iff.rfl) (.inl rfl)
        ⟨hholder, fun t ht => (by cases ht), hleft⟩ ?_
      rw [howed (by simp), Worker.owed]
  | wait => exact h.move hi (by rw [hs]; rfl) (by rw [hs]; rfl) (fun t ht => by cases ht) (howed (by simp)).symm
  | load =>
    refine h.move hi (by rw [hs]; rfl) (by rw [hs]; rfl) (fun t ht => ?_) (howed (by simp)).symm
    cases ht
    rfl
  | pause t => exact h.move hi (by rw [hs]; rfl) (by rw [hs]; rfl) hcopy (howed (by simp)).symm
  | store t =>
    -- the copy is still the counter, since no other thread has been in its critical section
    have ht : t = w.shared.counter := hcopy t rfl
    have hpos : (w.worker i).left ≠ 0 := fun h0 => by cases hleft.mpr h0
    refine h.update hi hlock (fun j hj => Iff.rfl) (.inr (hholder.mp rfl))
      ⟨hholder, fun t ht => (by cases ht), hleft⟩ ?_
    rw [howed (by simp), Worker.owed, ht]
    dsimp only
    omega
  | unlock =>
    have ho := hholder.mp rfl
    refine h.update hi (by simp [mutexUnlock]) (fun j hj => by simp [ho, hj.symm]) (.inl rfl)
      (Worker.loop_fits _ (by simp)) ?_
    rw [Worker.loop_owed, mutexUnlock, Worker.owed, hs]
  | exit => exact h.move hi (by rw [hs]; rfl) (by rw [hs]; rfl) (fun t ht => by cases ht) (howed (by simp)).symm
  | gone => exact h.update hi hlock (fun j hj => Iff.rfl) (.inl rfl) (h.fits i hi) rfl

lemma Interleaved.exclusive (h : Interleaved n k w) : ∃ o, Exclusive n k o w := by
  induction h with
  | start => exact ⟨none, .start n k⟩
  | step i _ hi _ ih =>
    obtain ⟨o, ho⟩ := ih
    exact ⟨_, ho.step hi⟩

lemma Exclusive.total (h : Exclusive n k o w) (hend : ∀ i ∈ Finset.Icc 1 n, (w.worker i).stage.ended = true) :
    w.shared.counter = n * k := by
  have howed : ∀ i ∈ Finset.Icc 1 n, ((w.worker i).owed : ℤ) = 0 := by
    intro i hi
    have hleft := (h.fits i hi).left.mp (hend i hi)
    rw [Worker.owed]
    split <;> simp [hleft]
  have hcount := h.count
  rwa [Finset.sum_eq_zero howed, add_zero] at hcount

/-! ### The rotation -/

structure ThreadsDemo where
  table : Tasks
  running : ℕ
  workers : Workers

namespace ThreadsDemo

def yield (d : ThreadsDemo) : ThreadsDemo :=
  match taskYield d.table with
  | (t, none) => { d with table := t }
  | (t, some c) => { d with table := t, running := c }

def step (d : ThreadsDemo) : ThreadsDemo :=
  if d.running = 0 then d
  else
    let w := d.workers.step d.running
    match (d.workers.worker d.running).stage with
    | .wait | .pause _ => { d with workers := w }.yield
    | .exit => { d with table := d.table.retire, workers := w }.yield
    | _ => { d with workers := w }

def spawn (stackBase : Word) (old : ℕ → Task) (n k : ℕ) : ThreadsDemo :=
  yield ⟨spawned stackBase old n, 0, .start k⟩

end ThreadsDemo

variable {d : ThreadsDemo}

structure Scheduled (n : ℕ) (d : ThreadsDemo) : Prop where
  num : d.table.numTasks = n + 1
  current : d.table.current = d.running
  active : ∀ i ∈ Finset.Icc 1 n, (d.table.tasks i).active = true ↔ (d.workers.worker i).stage ≠ .gone

lemma ThreadsDemo.yield_workers (d : ThreadsDemo) : d.yield.workers = d.workers := by
  rw [ThreadsDemo.yield]
  split <;> rfl

lemma Scheduled.ready_iff (h : Scheduled n d) (hi : i ∈ Finset.Icc 1 n) :
    d.table.ready i = true ↔ (d.workers.worker i).stage ≠ .gone := by
  rw [Tasks.ready_iff, ← h.active i hi]
  exact and_iff_right (Nat.one_le_iff_ne_zero.mp (Finset.mem_Icc.mp hi).1)

lemma Scheduled.yield_cases (h : Scheduled n d) (hr : d.running ≤ n) :
    (∃ c ∈ Finset.Icc 1 n, d.yield = { d with table := { d.table with current := c }, running := c } ∧
      (d.workers.worker c).stage ≠ .gone ∧ c ≠ d.running ∧ ∀ v ∈ Finset.Icc 1 n, v ≠ d.running →
        (d.workers.worker v).stage ≠ .gone → dist (n + 1) d.running c ≤ dist (n + 1) d.running v) ∨
    ((∀ v ∈ Finset.Icc 1 n, v ≠ d.running → (d.workers.worker v).stage = .gone) ∧
      ((d.yield = { d with table := { d.table with current := 0 }, running := 0 } ∧
          (d.running ∈ Finset.Icc 1 n → (d.workers.worker d.running).stage = .gone)) ∨
        (d.yield = d ∧ (d.running ∈ Finset.Icc 1 n → (d.workers.worker d.running).stage ≠ .gone)))) := by
  have hcur : d.table.current < d.table.numTasks := by
    rw [h.current, h.num]
    omega
  have hmem : ∀ v, v ∈ Finset.Icc 1 n → v < d.table.numTasks ∧ v ≠ 0 := fun v hv => by
    have hv' := Finset.mem_Icc.mp hv
    rw [h.num]
    omega
  rcases taskYield_cases d.table hcur with ⟨c, hy, hs⟩ | ⟨hnone, hrest⟩
  · obtain ⟨hc, hne, hready, hnear⟩ := search_some hcur hs
    have hc₀ : c ≠ 0 := (Tasks.ready_iff.mp hready).1
    have hcn : c ∈ Finset.Icc 1 n := Finset.mem_Icc.mpr ⟨Nat.one_le_iff_ne_zero.mpr hc₀, by rw [h.num] at hc; omega⟩
    rw [h.current] at hne hnear
    refine .inl ⟨c, hcn, by rw [ThreadsDemo.yield, hy], (h.ready_iff hcn).mp hready, hne, fun v hv hvr hgone => ?_⟩
    have hd := hnear v (hmem v hv).1 hvr ((h.ready_iff hv).mpr hgone)
    rwa [h.num] at hd
  · rw [h.current] at hnone hrest
    refine .inr ⟨fun v hv hvr => ?_, ?_⟩
    · by_contra hgone
      have hready := (h.ready_iff hv).mpr hgone
      rw [hnone v (hmem v hv).1 hvr] at hready
      cases hready
    · rcases hrest with ⟨hy, -, hoff⟩ | ⟨hy, hon⟩
      · refine .inl ⟨by rw [ThreadsDemo.yield, hy], fun hmem' => ?_⟩
        by_contra hgone
        rw [(h.active _ hmem').mpr hgone] at hoff
        cases hoff
      · refine .inr ⟨by rw [ThreadsDemo.yield, hy], fun hmem' hgone => hon ⟨(hmem _ hmem').2, ?_⟩⟩
        by_contra hactive
        exact (h.active _ hmem').mp (by simpa using hactive) hgone

structure Pausing (n k : ℕ) (o : Option ℕ) (d : ThreadsDemo) : Prop extends Scheduled n d where
  excl : Exclusive n k o d.workers
  worker : d.running ∈ Finset.Icc 1 n
  quiet : ∀ i ∈ Finset.Icc 1 n, (d.workers.worker i).stage ≠ .wait

structure Going (n k : ℕ) (o : Option ℕ) (d : ThreadsDemo) : Prop extends Scheduled n d where
  excl : Exclusive n k o d.workers
  worker : d.running ∈ Finset.Icc 1 n
  there : (d.workers.worker d.running).stage ≠ .gone
  waiting : ∀ i ∈ Finset.Icc 1 n, (d.workers.worker i).stage = .wait → i = d.running ∧ o ≠ none

structure Over (n k : ℕ) (d : ThreadsDemo) : Prop where
  home : d.running = 0 ∧ d.table.current = 0
  gone : ∀ i ∈ Finset.Icc 1 n, (d.workers.worker i).stage = .gone
  excl : ∃ o, Exclusive n k o d.workers

lemma Pausing.yield (h : Pausing n k o d) : Going n k o d.yield ∨ Over n k d.yield := by
  rcases h.yield_cases (Finset.mem_Icc.mp h.worker).2 with ⟨c, hc, hy, hthere, -⟩ | ⟨hothers, ⟨hy, hself⟩ | ⟨hy, hself⟩⟩
  · rw [hy]
    exact .inl ⟨⟨h.num, rfl, h.active⟩, h.excl, hc, hthere, fun i hi hw => absurd hw (h.quiet i hi)⟩
  · rw [hy]
    refine .inr ⟨⟨rfl, rfl⟩, fun i hi => ?_, o, h.excl⟩
    by_cases hir : i = d.running
    · rw [hir]
      exact hself h.worker
    · exact hothers i hi hir
  · rw [hy]
    exact .inl ⟨h.toScheduled, h.excl, h.worker, hself h.worker, fun i hi hw => absurd hw (h.quiet i hi)⟩

/-! ### Progress -/

def Worker.work (x : Worker) : ℕ :=
  match x.stage with
  | .lock | .wait => 5 * x.left + 1
  | .load => 5 * x.left
  | .pause _ => 5 * x.left - 1
  | .store _ => 5 * x.left - 2
  | .unlock => 5 * x.left - 3
  | .exit => 1
  | .gone => 0

def ThreadsDemo.work (n : ℕ) (d : ThreadsDemo) : ℕ := ∑ i ∈ Finset.Icc 1 n, (d.workers.worker i).work

def ThreadsDemo.distance (n : ℕ) (o : Option ℕ) (d : ThreadsDemo) : ℕ :=
  2 * dist (n + 1) d.running (o.getD d.running) +
    match (d.workers.worker d.running).stage with
    | .lock => 1
    | _ => 0

def Blocked (s : Shared) (x : Worker) : Prop := x.stage = .wait ∨ x.stage = .lock ∧ s.locked ≠ 0

lemma safeWorker_work (hleft : x.stage.ended = true ↔ x.left = 0) (hgone : x.stage ≠ .gone) (hb : ¬ Blocked s x) :
    x.work = (safeWorker s x).2.work + 1 ∧ (safeWorker s x).2.stage ≠ .wait ∧
      ((safeWorker s x).2.stage = .gone ↔ x.stage = .exit) := by
  obtain ⟨g, l⟩ := x
  rw [Blocked] at hb
  cases g with
  | lock =>
    have hfree : s.locked = 0 := by simpa using hb
    simp [safeWorker, atomicXchg, hfree, Worker.work]
  | wait => simp at hb
  | unlock =>
    have hpos : l ≠ 0 := by simpa [Stage.ended] using hleft
    by_cases hl : l - 1 = 0
    · simp [safeWorker, Worker.loop, Worker.work, hl]
      omega
    · simp [safeWorker, Worker.loop, Worker.work, hl]
      omega
  | gone => exact absurd rfl hgone
  | exit => simp [safeWorker, Worker.work]
  | load | pause t | store t =>
    have hpos : l ≠ 0 := by simpa [Stage.ended] using hleft
    simp [safeWorker, Worker.work]
    omega

lemma Workers.step_self (w : Workers) (i : ℕ) : (w.step i).worker i = (safeWorker w.shared (w.worker i)).2 :=
  Function.update_self ..

lemma Workers.step_other (w : Workers) {i j : ℕ} (h : j ≠ i) : (w.step i).worker j = w.worker j :=
  Function.update_of_ne h ..

lemma Going.stay (h : Going n k o d) {w : Workers} (hex : Exclusive n k o' w)
    (hothers : ∀ i, i ≠ d.running → w.worker i = d.workers.worker i) (hthere : (w.worker d.running).stage ≠ .gone)
    (hwait : ∀ i ∈ Finset.Icc 1 n, (w.worker i).stage = .wait → i = d.running ∧ o' ≠ none) :
    Going n k o' { d with workers := w } := by
  refine ⟨⟨h.num, h.current, fun i hi => ?_⟩, hex, h.worker, hthere, hwait⟩
  by_cases hir : i = d.running
  · subst hir
    exact ⟨fun _ => hthere, fun _ => (h.active _ hi).mpr h.there⟩
  · dsimp only
    rw [hothers i hir]
    exact h.active i hi

lemma Going.running_ne (h : Going n k o d) : d.running ≠ 0 :=
  Nat.one_le_iff_ne_zero.mp (Finset.mem_Icc.mp h.worker).1

lemma Going.free_step (h : Going n k o d) (hb : ¬ Blocked d.workers.shared (d.workers.worker d.running)) :
    ((∃ o', Going n k o' d.step) ∨ Over n k d.step) ∧ d.work n = d.step.work n + 1 := by
  obtain ⟨hwork, hwait, hgone⟩ := safeWorker_work (h.excl.fits _ h.worker).left h.there hb
  have hex := h.excl.step h.worker
  rw [← Workers.step_self] at hwork hwait hgone
  have hothers : ∀ i, i ≠ d.running → (d.workers.step d.running).worker i = d.workers.worker i :=
    fun i hi => Workers.step_other _ hi
  rw [ThreadsDemo.step, if_neg h.running_ne]
  dsimp only
  generalize d.workers.step d.running = w at hwork hwait hgone hex hothers ⊢
  have hsum : d.work n = (∑ i ∈ Finset.Icc 1 n, (w.worker i).work) + 1 :=
    sum_pred h.worker hwork fun i hi => by rw [hothers i hi]
  have hquiet : ∀ i ∈ Finset.Icc 1 n, (w.worker i).stage ≠ .wait := by
    intro i hi hw
    by_cases hir : i = d.running
    · exact hwait (hir ▸ hw)
    · rw [hothers i hir] at hw
      exact hir (h.waiting i hi hw).1
  have hstay : (w.worker d.running).stage ≠ .gone →
    Going n k (d.workers.nextHolder o d.running) { d with workers := w } :=
    fun hthere => h.stay hex hothers hthere fun i hi hw => absurd hw (hquiet i hi)
  have hyield : ∀ t, Pausing n k (d.workers.nextHolder o d.running) ⟨t, d.running, w⟩ →
      ((∃ o', Going n k o' (ThreadsDemo.yield ⟨t, d.running, w⟩)) ∨ Over n k (ThreadsDemo.yield ⟨t, d.running, w⟩)) ∧
        d.work n = (ThreadsDemo.yield ⟨t, d.running, w⟩).work n + 1 := fun t ht =>
    ⟨ht.yield.imp (fun hg => ⟨_, hg⟩) id, by rw [hsum]; simp only [ThreadsDemo.work, ThreadsDemo.yield_workers]⟩
  cases hs : (d.workers.worker d.running).stage with rw [hs] at hgone
  | wait => exact absurd (.inl hs) hb
  | gone => exact absurd hs h.there
  | lock | load | store t | unlock =>
    exact ⟨.inl ⟨_, hstay fun hg => by cases hgone.mp hg⟩, hsum⟩
  | pause t =>
    have hg := hstay fun hg => by cases hgone.mp hg
    exact hyield _ ⟨hg.toScheduled, hex, h.worker, hquiet⟩
  | exit =>
    refine hyield _ ⟨⟨h.num, h.current, fun i hi => ?_⟩, hex, h.worker, hquiet⟩
    dsimp only
    by_cases hir : i = d.running
    · subst hir
      have hself : (d.table.retire.tasks d.running).active = false := by rw [← h.current, Tasks.retire_self]
      simp [hself, hgone.mpr rfl]
    · rw [Tasks.retire_other _ (h.current.symm ▸ hir), hothers i hir]
      exact h.active i hi

lemma sum_work_congr {w w' : Workers} (hself : (w'.worker i).work = (w.worker i).work)
    (hothers : ∀ j, j ≠ i → w'.worker j = w.worker j) :
    ∑ j ∈ Finset.Icc 1 n, (w'.worker j).work = ∑ j ∈ Finset.Icc 1 n, (w.worker j).work := by
  refine Finset.sum_congr rfl fun j hj => ?_
  by_cases hji : j = i
  · rw [hji, hself]
  · rw [hothers j hji]

lemma Going.lock_step (h : Going n k o d) (hs : (d.workers.worker d.running).stage = .lock)
    (hlocked : d.workers.shared.locked ≠ 0) :
    Going n k o d.step ∧ d.step.work n = d.work n ∧ d.step.distance n o < d.distance n o := by
  have hex := h.excl.step h.worker
  have ho : o ≠ none := fun ho => hlocked (h.excl.lock.mpr ho)
  have hself : (d.workers.step d.running).worker d.running = ⟨.wait, (d.workers.worker d.running).left⟩ := by
    rw [Workers.step_self]
    simp [safeWorker, hs, atomicXchg, hlocked]
  have hothers : ∀ i, i ≠ d.running → (d.workers.step d.running).worker i = d.workers.worker i :=
    fun i hi => Workers.step_other _ hi
  have hnext : d.workers.nextHolder o d.running = o := by simp [Workers.nextHolder, hs, hlocked]
  have hstep : d.step = { d with workers := d.workers.step d.running } := by
    simp only [ThreadsDemo.step, if_neg h.running_ne, hs]
  rw [hstep]
  rw [hnext] at hex
  refine ⟨h.stay hex hothers (by simp [hself]) fun i hi hw => ⟨?_, ho⟩, sum_work_congr ?_ hothers, ?_⟩
  · by_contra hir
    rw [hothers i hir] at hw
    exact hir (h.waiting i hi hw).1
  · rw [hself, Worker.work, Worker.work, hs]
  · simp [ThreadsDemo.distance, hself, hs]

lemma Going.wait_step (h : Going n k o d) (hs : (d.workers.worker d.running).stage = .wait) :
    Going n k o d.step ∧ d.step.work n = d.work n ∧ d.step.distance n o < d.distance n o := by
  have hex := h.excl.step h.worker
  obtain ⟨g, rfl⟩ := Option.ne_none_iff_exists'.mp (h.waiting _ h.worker hs).2
  have hself : (d.workers.step d.running).worker d.running = ⟨.lock, (d.workers.worker d.running).left⟩ := by
    rw [Workers.step_self]
    simp [safeWorker, hs]
  have hothers : ∀ i, i ≠ d.running → (d.workers.step d.running).worker i = d.workers.worker i :=
    fun i hi => Workers.step_other _ hi
  have hnext : d.workers.nextHolder (some g) d.running = some g := by simp [Workers.nextHolder, hs]
  have hstep : d.step = ThreadsDemo.yield { d with workers := d.workers.step d.running } := by
    simp only [ThreadsDemo.step, if_neg h.running_ne, hs]
  rw [hstep]
  rw [hnext] at hex
  generalize d.workers.step d.running = w at hself hothers hex ⊢
  have hquiet : ∀ i ∈ Finset.Icc 1 n, (w.worker i).stage ≠ .wait := by
    intro i hi hw
    by_cases hir : i = d.running
    · rw [hir, hself] at hw
      cases hw
    · rw [hothers i hir] at hw
      exact hir (h.waiting i hi hw).1
  have hg := h.stay hex hothers (by simp [hself]) fun i hi hw => absurd hw (hquiet i hi)
  -- the holder is another thread, and it is there
  have hmem := hex.member g rfl
  have hcritical := (hex.fits g hmem).holder.mpr rfl
  have hgr : g ≠ d.running := by
    rintro rfl
    rw [hself] at hcritical
    cases hcritical
  have hthere : (w.worker g).stage ≠ .gone := fun hgone => by
    rw [hgone] at hcritical
    cases hcritical
  have hr := (Finset.mem_Icc.mp h.worker).2
  rcases hg.yield_cases hr with ⟨c, hc, hy, hcthere, hne, hnear⟩ | ⟨hnone, -⟩
  · rw [hy]
    refine ⟨⟨⟨hg.num, rfl, hg.active⟩, hex, hc, hcthere, fun i hi hw => absurd hw (hquiet i hi)⟩,
      sum_work_congr ?_ hothers, ?_⟩
    · rw [hself, Worker.work, Worker.work, hs]
    · have hlt : dist (n + 1) c g < dist (n + 1) d.running g :=
        dist_lt_dist (Nat.lt_succ_of_le hr) (Nat.lt_succ_of_le (Finset.mem_Icc.mp hc).2)
        (Nat.lt_succ_of_le (Finset.mem_Icc.mp hmem).2) hne (hnear g hmem hgr hthere)
      simp only [ThreadsDemo.distance, hs, Option.getD_some]
      split <;> omega
  · exact absurd (hnone g hmem hgr) hthere

lemma Going.step (h : Going n k o d) :
    (Over n k d.step ∧ d.work n = d.step.work n + 1) ∨
    ∃ o', Going n k o' d.step ∧
      (d.step.work n < d.work n ∨ d.step.work n = d.work n ∧ d.step.distance n o' < d.distance n o) := by
  by_cases hb : Blocked d.workers.shared (d.workers.worker d.running)
  · obtain ⟨hg, hwork, hdist⟩ : Going n k o d.step ∧ d.step.work n = d.work n ∧ d.step.distance n o < d.distance n o :=
      hb.elim h.wait_step fun hl => h.lock_step hl.1 hl.2
    exact .inr ⟨o, hg, .inr ⟨hwork, hdist⟩⟩
  · obtain ⟨⟨o', hg⟩ | hover, hwork⟩ := h.free_step hb
    · exact .inr ⟨o', hg, .inl (by omega)⟩
    · exact .inl ⟨hover, hwork⟩

lemma Going.finishes (h : Going n k o d) : ∃ N, Over n k (ThreadsDemo.step^[N] d) := by
  refine iterate_reaches (β := ℕ ×ₗ ℕ)
    (R := fun d r => (∃ o, Going n k o d ∧ r = toLex (d.work n, d.distance n o)) ∨ Over n k d) (fun d r hd => ?_)
    (.inl ⟨o, h, rfl⟩)
  rcases hd with ⟨o, hg, rfl⟩ | hover
  · rcases hg.step with ⟨hover, hwork⟩ | ⟨o', hg', hless⟩
    · exact .inr ⟨toLex (d.step.work n, 0), Prod.Lex.toLex_lt_toLex.mpr (.inl (by dsimp only; omega)), .inr hover⟩
    · exact .inr ⟨_, Prod.Lex.toLex_lt_toLex.mpr hless, .inl ⟨o', hg', rfl⟩⟩
  · exact .inl hover

lemma spawn_cases (stackBase : Word) (old : ℕ → Task) (n k : ℕ) :
    (∃ o, Going n k o (ThreadsDemo.spawn stackBase old n k)) ∨ Over n k (ThreadsDemo.spawn stackBase old n k) := by
  obtain ⟨hnum, hcur, -, hactive⟩ := spawned_spec stackBase old n
  have hstage : ∀ i, ((Workers.start k).worker i).stage ≠ .gone ∧ ((Workers.start k).worker i).stage ≠ .wait := by
    intro i
    simp only [Workers.start, Worker.loop]
    split <;> simp
  have hs : Scheduled n ⟨spawned stackBase old n, 0, .start k⟩ := by
    refine ⟨hnum, hcur, fun i hi => ?_⟩
    have hi' := Finset.mem_Icc.mp hi
    exact iff_of_true (hactive i (by omega) hi'.2) (hstage i).1
  rw [ThreadsDemo.spawn]
  rcases hs.yield_cases (Nat.zero_le n) with ⟨c, hc, hy, hthere, -⟩ | ⟨hnone, hrest⟩
  · rw [hy]
    exact .inl ⟨none, ⟨hnum, rfl, hs.active⟩, .start n k, hc, hthere, fun i hi hw => absurd hw (hstage i).2⟩
  · have hempty : ∀ i, i ∉ Finset.Icc 1 n := fun i hi =>
      (hstage i).1 (hnone i hi (Nat.one_le_iff_ne_zero.mp (Finset.mem_Icc.mp hi).1))
    right
    rcases hrest with ⟨hy, -⟩ | ⟨hy, -⟩
    · rw [hy]
      exact ⟨⟨rfl, rfl⟩, fun i hi => absurd hi (hempty i), none, .start n k⟩
    · rw [hy]
      exact ⟨⟨rfl, hcur⟩, fun i hi => absurd hi (hempty i), none, .start n k⟩

/-- In any order of the steps at most one thread is between `mutex_lock` and `mutex_unlock`, and no addition is
lost; in the order of `task_yield` all threads finish and task 0 goes on. -/
theorem mutex_no_lost_update (n k : ℕ) :
    (∀ w, Interleaved n k w →
      (∀ i ∈ Finset.Icc 1 n, ∀ j ∈ Finset.Icc 1 n, (w.worker i).stage.critical = true →
        (w.worker j).stage.critical = true → i = j) ∧
      ((∀ i ∈ Finset.Icc 1 n, (w.worker i).stage.ended = true) → w.shared.counter = n * k)) ∧
    (n ≤ 7 → ∀ stackBase old, ∃ N, ∃ d, d = ThreadsDemo.step^[N] (.spawn stackBase old n k) ∧
      d.running = 0 ∧ d.table.current = 0 ∧ (∀ i ∈ Finset.Icc 1 n, (d.workers.worker i).stage = .gone) ∧
      d.workers.shared.counter = n * k) := by
  refine ⟨fun w hw => ?_, fun _ stackBase old => ?_⟩
  · obtain ⟨o, ho⟩ := hw.exclusive
    refine ⟨fun i hi j hj hci hcj => ?_, ho.total⟩
    have h₁ := (ho.fits i hi).holder.mp hci
    have h₂ := (ho.fits j hj).holder.mp hcj
    exact Option.some.inj (h₁.symm.trans h₂)
  · obtain ⟨N, hN⟩ : ∃ N, Over n k (ThreadsDemo.step^[N] (.spawn stackBase old n k)) := by
      rcases spawn_cases stackBase old n k with ⟨o, hg⟩ | hover
      · exact hg.finishes
      · exact ⟨0, hover⟩
    obtain ⟨o, ho⟩ := hN.excl
    exact ⟨N, _, rfl, hN.home.1, hN.home.2, hN.gone, ho.total fun i hi => by rw [hN.gone i hi]; rfl⟩

-- the demonstration of the shell
theorem mutex_demo_total : ∃ N, (ThreadsDemo.step^[N] (.spawn 0x30000 (fun _ => ⟨0, false⟩) 3 8)).running = 0 ∧
    (ThreadsDemo.step^[N] (.spawn 0x30000 (fun _ => ⟨0, false⟩) 3 8)).workers.shared.counter = 24 := by
  obtain ⟨N, d, rfl, hrunning, -, -, hcounter⟩ := (mutex_no_lost_update 3 8).2 (by decide) 0x30000 fun _ => ⟨0, false⟩
  exact ⟨N, hrunning, hcounter⟩

end PyroOS
