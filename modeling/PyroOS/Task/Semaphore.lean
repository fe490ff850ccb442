import PyroOS.Memory.Word

/-! Counting semaphores: threads that the timer may switch anywhere, except where `irq_save` has masked it. -/

namespace PyroOS

inductive SemCall where
  | wait
  | post
deriving DecidableEq

/-- A semaphore whose calls are atomic; `wait` is possible only while units are left. -/
def SemCall.perform (n : ℕ) : SemCall → Option ℕ
  | .wait => if n = 0 then none else some (n - 1)
  | .post => some (n + 1)

/-- Where a thread is in `sem_wait` or `sem_post`; `flags` is the interrupt flag as `irq_save` has read it. -/
inductive SemStage where
  | out
  | save (op : SemCall) -- `pushf; pop`
  | mask (op : SemCall) (flags : Bool) -- `cli`
  | test (flags : Bool)
  | load (op : SemCall) (flags : Bool)
  | store (op : SemCall) (flags : Bool) (t : Word)
  | restore (flags again : Bool)
  | yield -- inside `task_yield`

structure Semaphore where
  count : Word
  flag : Bool -- the interrupt flag of the CPU

def SemCall.change (t : Word) : SemCall → Word
  | .wait => t - 1
  | .post => t + 1

def semStep (s : Semaphore) : SemStage → Semaphore × SemStage
  | .out => (s, .out)
  | .save op => (s, .mask op s.flag)
  | .mask op flags => ({ s with flag := false }, if op = .wait then .test flags else .load op flags)
  | .test flags => (s, if 0 < s.count.toInt then .load .wait flags else .restore flags true)
  | .load op flags => (s, .store op flags s.count)
  | .store op flags t => ({ s with count := op.change t }, .restore flags false)
  | .restore flags again => ({ s with flag := flags }, if again then .yield else .out)
  | .yield => (s, .save .wait)

def SemStage.masked : SemStage → Bool
  | .test _ | .load _ _ | .store _ _ _ | .restore _ _ => true
  | _ => false

def SemStage.pending : SemStage → List SemCall
  | .out => []
  | .save op | .mask op _ | .load op _ | .store op _ _ => [op]
  | .restore _ again => if again then [.wait] else []
  | .test _ | .yield => [.wait]

variable {ι : Type*} [DecidableEq ι]

structure SemThreads (ι : Type*) where
  sem : Semaphore
  running : ι
  stage : ι → SemStage
  interrupted : ι → Bool -- an interrupt has stopped the thread, and its `iret` will set the interrupt flag

namespace SemThreads

def set (m : SemThreads ι) (s : Semaphore) (x : SemStage) : SemThreads ι :=
  { m with sem := s, stage := Function.update m.stage m.running x }

def step (m : SemThreads ι) : SemThreads ι :=
  let (s, x) := semStep m.sem (m.stage m.running)
  m.set s x

def effect (m : SemThreads ι) : List (ι × SemCall) :=
  match m.stage m.running with
  | .store op _ _ => [(m.running, op)]
  | _ => []

def call (m : SemThreads ι) (op : SemCall) : SemThreads ι := m.set m.sem (.save op)

def switch (m : SemThreads ι) (interrupted : Bool) (j : ι) (flag : Bool) : SemThreads ι :=
  { m with
    sem := { m.sem with flag := flag }
    running := j
    interrupted := Function.update (Function.update m.interrupted m.running interrupted) j false }

/-- The flag with which thread `j` goes on. `context_switch` leaves it alone, so a thread that has yielded may find
either. -/
def Resumes (m : SemThreads ι) (interrupted : Bool) (j : ι) (flag : Bool) : Prop :=
  Function.update m.interrupted m.running interrupted j = true → flag = true

end SemThreads

/-- Any threads that use a semaphore with `k` units in any order, with the calls made and the calls that have taken
effect. A thread may set or clear the interrupt flag and yield anywhere outside the calls. -/
inductive SemRun (k : Word) : SemThreads ι → List (ι × SemCall) → List (ι × SemCall) → Prop
  | start {m : SemThreads ι} : m.sem.count = k → (∀ i, m.stage i = .out ∧ m.interrupted i = false) → SemRun k m [] []
  | call {m : SemThreads ι} {cs es : List (ι × SemCall)} (op : SemCall) :
    SemRun k m cs es → m.stage m.running = .out → SemRun k (m.call op) (cs ++ [(m.running, op)]) es
  | flag {m : SemThreads ι} {cs es : List (ι × SemCall)} (b : Bool) :
    SemRun k m cs es → m.stage m.running = .out → SemRun k { m with sem := { m.sem with flag := b } } cs es
  | step {m : SemThreads ι} {cs es : List (ι × SemCall)} :
    SemRun k m cs es → SemRun k m.step cs (es ++ m.effect)
  | interrupt {m : SemThreads ι} {cs es : List (ι × SemCall)} (j : ι) (b : Bool) :
    SemRun k m cs es → m.sem.flag = true → m.Resumes true j b → SemRun k (m.switch true j b) cs es
  | yield {m : SemThreads ι} {cs es : List (ι × SemCall)} (j : ι) (b : Bool) :
    SemRun k m cs es → m.stage m.running = .out ∨ m.stage m.running = .yield → m.Resumes false j b →
    SemRun k (m.switch false j b) cs es

/-! ### The atomic semaphore -/

lemma perform_units {ops : List SemCall} {k n : ℕ} (h : ops.foldlM SemCall.perform k = some n) :
    n + ops.count .wait = k + ops.count .post := by
  induction ops generalizing k with
  | nil =>
    cases h
    rfl
  | cons op ops ih =>
    rw [List.foldlM_cons] at h
    obtain ⟨k', hop, hops⟩ := Option.bind_eq_some_iff.mp h
    have hrest := ih hops
    cases op with
    | wait =>
      rw [SemCall.perform, Option.ite_none_left_eq_some] at hop
      obtain ⟨hk, hop⟩ := hop
      obtain rfl := Option.some.inj hop
      simp only [List.count_cons_self, List.count_cons_of_ne, ne_eq, reduceCtorEq, not_false_eq_true]
      omega
    | post =>
      obtain rfl := Option.some.inj hop
      simp only [List.count_cons_self, List.count_cons_of_ne, ne_eq, reduceCtorEq, not_false_eq_true]
      omega

lemma change_toNat {op : SemCall} {t : Word} (hwait : op = .wait → 0 < t.toInt)
    (hpost : op = .post → t.toNat + 1 < 2 ^ 31) :
    op.perform t.toNat = some (op.change t).toNat := by
  cases op with
  | wait =>
    have hpos := hwait rfl
    have hne : t.toNat ≠ 0 := fun h => by
      rw [BitVec.toInt_eq_toNat_cond, h] at hpos
      exact absurd hpos (by decide)
    rw [SemCall.perform, if_neg hne, SemCall.change]
    congr 1
    bv_omega
  | post =>
    have hlt := hpost rfl
    rw [SemCall.perform, SemCall.change]
    congr 1
    bv_omega

/-! ### What holds between the steps -/

def SemStage.Fits (s : Semaphore) (here interrupted : Prop) : SemStage → Prop
  | .mask _ flags => (here → s.flag = flags) ∧ (¬ here → interrupted ∧ flags = true)
  | .load op _ => here ∧ s.flag = false ∧ (op = .wait → 0 < s.count.toInt)
  | .store op _ t => here ∧ s.flag = false ∧ (op = .wait → 0 < s.count.toInt) ∧ t = s.count
  | .test _ | .restore _ _ => here ∧ s.flag = false
  | _ => True

namespace SemStage

variable {s s' : Semaphore} {p : Prop} {x : SemStage}

lemma Fits.away (h : x.Fits s False p) : x.Fits s' False p := by
  cases x with
  | mask op flags => exact ⟨False.elim, h.2⟩
  | load => exact h.1.elim
  | store => exact h.1.elim
  | test => exact h.1.elim
  | restore => exact h.1.elim
  | _ => trivial

lemma Fits.masked {here : Prop} (h : x.Fits s here p) (hx : x.masked = true) : here ∧ s.flag = false := by
  cases x with
  | load => exact ⟨h.1, h.2.1⟩
  | store => exact ⟨h.1, h.2.1⟩
  | test => exact h
  | restore => exact h
  | _ => cases hx

lemma Fits.step (h : x.Fits s True p) : (semStep s x).2.Fits (semStep s x).1 True p := by
  cases x with
  | out => trivial
  | save op => exact ⟨fun _ => rfl, fun hn => absurd trivial hn⟩
  | mask op flags =>
    simp only [semStep]
    split
    · exact ⟨trivial, rfl⟩
    · rename_i hop
      exact ⟨trivial, rfl, fun hw => absurd hw hop⟩
  | test flags =>
    simp only [semStep]
    split
    · rename_i hpos
      exact ⟨trivial, h.2, fun _ => hpos⟩
    · exact ⟨trivial, h.2⟩
  | load op flags => exact ⟨trivial, h.2.1, h.2.2, rfl⟩
  | store op flags t => exact ⟨trivial, h.2.1⟩
  | restore flags again =>
    simp only [semStep]
    split <;> trivial
  | yield => trivial

lemma Fits.stop (h : x.Fits s True p) (hflag : s.flag = true) : x.Fits s False True := by
  cases x with
  | mask op flags => exact ⟨False.elim, fun _ => ⟨trivial, (h.1 trivial).symm.trans hflag⟩⟩
  | load => cases h.2.1.symm.trans hflag
  | store => cases h.2.1.symm.trans hflag
  | test => cases h.2.symm.trans hflag
  | restore => cases h.2.symm.trans hflag
  | _ => trivial

lemma Fits.resume (h : x.Fits s False p) (hflag : p → s'.flag = true) : x.Fits s' True False := by
  cases x with
  | mask op flags =>
    obtain ⟨hp, hf⟩ := h.2 not_false
    exact ⟨fun _ => (hflag hp).trans hf.symm, fun hn => absurd trivial hn⟩
  | load => exact h.1.elim
  | store => exact h.1.elim
  | test => exact h.1.elim
  | restore => exact h.1.elim
  | _ => trivial

end SemStage

structure SemThreads.Ordered (m : SemThreads ι) : Prop where
  here : (m.stage m.running).Fits m.sem True False
  away : ∀ i, i ≠ m.running → (m.stage i).Fits m.sem False (m.interrupted i = true)

variable {k : Word} {m : SemThreads ι} {cs es : List (ι × SemCall)}

namespace SemThreads

lemma set_stage_running (m : SemThreads ι) (s : Semaphore) (x : SemStage) :
    (m.set s x).stage (m.set s x).running = x := Function.update_self ..

lemma set_stage_other {i : ι} (h : i ≠ m.running) (s : Semaphore) (x : SemStage) : (m.set s x).stage i = m.stage i :=
  Function.update_of_ne h ..

lemma set_step (m : SemThreads ι) (s : Semaphore) (x : SemStage) :
    (m.set s x).step = m.set (semStep s x).1 (semStep s x).2 := by
  change (m.set s x).set (semStep s _).1 (semStep s _).2 = _
  rw [set_stage_running]
  simp only [set, Function.update_idem]

end SemThreads

namespace SemThreads.Ordered

lemma set (h : m.Ordered) {s : Semaphore} {x : SemStage} (hx : x.Fits s True False) : (m.set s x).Ordered := by
  constructor
  · rwa [set_stage_running]
  · intro i hi
    rw [set_stage_other (m := m) hi]
    exact (h.away i hi).away

lemma switch (h : m.Ordered) {intr flag : Bool} {j : ι} (hstop : (m.stage m.running).Fits m.sem False (intr = true))
    (hj : m.Resumes intr j flag) : (m.switch intr j flag).Ordered := by
  have hall : ∀ i, (m.stage i).Fits m.sem False (Function.update m.interrupted m.running intr i = true) := by
    intro i
    by_cases hi : i = m.running
    · rwa [hi, Function.update_self]
    · rw [Function.update_of_ne hi]
      exact h.away i hi
  constructor
  · exact (hall j).resume hj
  · intro i hi
    dsimp only [SemThreads.switch] at hi ⊢
    rw [Function.update_of_ne hi]
    exact (hall i).away

end SemThreads.Ordered

lemma SemRun.ordered (h : SemRun k m cs es) : m.Ordered := by
  induction h with
  | start hcount hout =>
    constructor
    · rw [(hout _).1]
      trivial
    · intro i _
      rw [(hout i).1]
      trivial
  | call op _ _ ih => exact ih.set trivial
  | flag b _ hout ih =>
    constructor
    · dsimp only
      rw [hout]
      trivial
    · exact fun i hi => (ih.away i hi).away
  | step _ ih => exact ih.set ih.here.step
  | interrupt j b _ hflag hj ih =>
    refine ih.switch ?_ hj
    simpa only using ih.here.stop hflag
  | yield j b _ hstage hj ih =>
    refine ih.switch ?_ hj
    obtain hstage | hstage := hstage <;> rw [hstage] <;> trivial

/-! ### Calls and their effects -/

def callsOf (i : ι) (cs : List (ι × SemCall)) : List SemCall := (cs.filter (·.1 = i)).map Prod.snd

@[simp] lemma callsOf_append (i : ι) (cs es : List (ι × SemCall)) : callsOf i (cs ++ es) = callsOf i cs ++
    callsOf i es := by
  simp only [callsOf, List.filter_append, List.map_append]

lemma callsOf_self (i : ι) (op : SemCall) : callsOf i [(i, op)] = [op] := by
  simp [callsOf]

lemma callsOf_other {i j : ι} (h : i ≠ j) (op : SemCall) : callsOf i [(j, op)] = [] := by
  simp [callsOf, h.symm]

lemma effect_other {i : ι} (h : i ≠ m.running) : callsOf i m.effect = [] := by
  rw [SemThreads.effect]
  split
  · exact callsOf_other h _
  · rfl

lemma step_pending (m : SemThreads ι) :
    (m.stage m.running).pending = callsOf m.running m.effect ++ (semStep m.sem (m.stage m.running)).2.pending := by
  rw [SemThreads.effect]
  cases m.stage m.running with
  | out => rfl
  | save op => rfl
  | mask op flags => cases op <;> rfl
  | test flags =>
    simp only [semStep]
    split <;> rfl
  | load op flags => rfl
  | store op flags t => simp [callsOf_self, semStep, SemStage.pending]
  | restore flags again => cases again <;> rfl
  | yield => rfl

lemma SemRun.calls (h : SemRun k m cs es) (i : ι) : callsOf i cs = callsOf i es ++ (m.stage i).pending := by
  induction h with
  | start _ hout =>
    rw [(hout i).1]
    rfl
  | @call m cs es op _ hout ih =>
    rw [callsOf_append, ih]
    by_cases hi : i = m.running
    · subst hi
      have hsave : (m.call op).stage m.running = .save op := m.set_stage_running m.sem (.save op)
      rw [hsave, hout, callsOf_self]
      simp only [SemStage.pending, List.append_nil]
    · rw [callsOf_other hi, SemThreads.call, SemThreads.set_stage_other hi, List.append_nil]
  | flag b _ _ ih => exact ih
  | @step m cs es _ ih =>
    rw [ih, callsOf_append, List.append_assoc]
    by_cases hi : i = m.running
    · subst hi
      have hnext : m.step.stage m.running = (semStep m.sem (m.stage m.running)).2 := m.set_stage_running _ _
      rw [hnext, step_pending]
    · have hsame : m.step.stage i = m.stage i := SemThreads.set_stage_other hi _ _
      rw [hsame, effect_other hi, List.nil_append]
  | interrupt _ _ _ _ _ ih => exact ih
  | yield _ _ _ _ _ ih => exact ih

def posts (es : List (ι × SemCall)) : ℕ := (es.map Prod.snd).count .post

lemma SemRun.performs (h : SemRun k m cs es) (hk : k.toNat + posts es < 2 ^ 31) :
    (es.map Prod.snd).foldlM SemCall.perform k.toNat = some m.sem.count.toNat := by
  induction h with
  | start hcount _ =>
    rw [hcount]
    rfl
  | call _ _ _ ih => exact ih hk
  | flag _ _ _ ih => exact ih hk
  | @step m cs es hrun ih =>
    rw [posts, List.map_append, List.count_append] at hk
    have hes := ih (by rw [posts]; omega)
    have hfits := hrun.ordered.here
    have hunits := perform_units hes
    rw [List.map_append, List.foldlM_append, hes, Option.bind_eq_bind, Option.bind_some]
    rw [SemThreads.effect] at hk ⊢
    rw [SemThreads.step]
    cases hstage : m.stage m.running with rw [hstage] at hk hfits
    | store op flags t =>
      obtain ⟨-, -, hwait, rfl⟩ := hfits
      have hop := change_toNat hwait fun hpost => by
        subst hpost
        simp only [List.map_cons, List.map_nil, List.count_singleton_self] at hk
        omega
      simp only [List.map_cons, List.map_nil, List.foldlM_cons, List.foldlM_nil, semStep, hop]
      rfl
    | mask op flags => rfl
    | test flags => rfl
    | _ => rfl
  | interrupt _ _ _ _ _ ih => exact ih hk
  | yield _ _ _ _ _ ih => exact ih hk

lemma step_alone {op : SemCall} (h : m.stage m.running = .save op) (hop : op = .wait → 0 < m.sem.count.toInt) :
    ∃ N, SemThreads.step^[N] m = m.set ⟨op.change m.sem.count, m.sem.flag⟩ .out := by
  have hfirst : m.step = m.set m.sem (.mask op m.sem.flag) := by
    rw [SemThreads.step, h]
    rfl
  cases op with
  | wait =>
    have htest : semStep ⟨m.sem.count, false⟩ (.test m.sem.flag) = (⟨m.sem.count, false⟩, .load .wait m.sem.flag) := by
      rw [semStep, if_pos (hop rfl)]
    refine ⟨6, ?_⟩
    simp only [Function.iterate_succ_apply, Function.iterate_zero_apply, hfirst, SemThreads.set_step]
    rw [show semStep m.sem (.mask .wait m.sem.flag) = (⟨m.sem.count, false⟩, .test m.sem.flag) from rfl, htest]
    rfl
  | post =>
    refine ⟨5, ?_⟩
    simp only [Function.iterate_succ_apply, Function.iterate_zero_apply, hfirst, SemThreads.set_step]
    rfl

/-- Whatever the threads do and wherever the timer switches them, the effects on the count are those of an atomic semaphore
in some order in which each call takes effect once, between its beginning and its end; so no unit is taken twice. While
interrupts are masked no other thread runs, and the flag that comes back is the one that `cli` has found. -/
theorem sem_linearizable (h : SemRun k m cs es) (hk : k.toNat + posts es < 2 ^ 31) :
    (es.map Prod.snd).foldlM SemCall.perform k.toNat = some m.sem.count.toNat ∧
      m.sem.count.toNat + (es.map Prod.snd).count .wait = k.toNat + posts es ∧
      (∀ i, callsOf i cs = callsOf i es ++ (m.stage i).pending) ∧
      (∀ i, (m.stage i).masked = true → i = m.running ∧ m.sem.flag = false) ∧
      (∀ op flags, m.stage m.running = .mask op flags → flags = m.sem.flag) ∧
      ∀ op, m.stage m.running = .save op → (op = .wait → 0 < m.sem.count.toInt) →
        ∃ N, SemThreads.step^[N] m = m.set ⟨op.change m.sem.count, m.sem.flag⟩ .out := by
  have hperf := h.performs hk
  refine ⟨hperf, perform_units hperf, h.calls, fun i hi => ?_, fun op flags hmask => ?_, fun op => step_alone⟩
  · by_cases hrun : i = m.running
    · rw [hrun] at hi
      exact ⟨hrun, (h.ordered.here.masked hi).2⟩
    · exact ((h.ordered.away i hrun).masked hi).1.elim
  · have hfits := h.ordered.here
    rw [hmask] at hfits
    exact (hfits.1 trivial).symm

def SemThreads.sample : SemThreads Bool where
  sem := ⟨1, true⟩
  running := true
  stage := fun _ => .out
  interrupted := fun _ => false

theorem sem_linearizable_contended : ∃ m : SemThreads Bool,
    SemRun 1 m [(true, .wait), (false, .wait)] [(true, .wait)] ∧ m.running = true ∧
      (m.stage false).pending = [.wait] ∧ m.sem.count = 0 ∧ m.sem.count.toNat + 1 = 1 + posts [(true, SemCall.wait)] := by
  have h₀ : SemRun 1 SemThreads.sample [] [] := .start rfl fun _ => ⟨rfl, rfl⟩
  have h₁ : SemRun 1 (SemThreads.step^[6] (SemThreads.sample.call .wait)) [(true, .wait)] [(true, .wait)] :=
    (h₀.call .wait rfl).step.step.step.step.step.step
  have h₂ := (((h₁.interrupt false true rfl (fun _ => rfl)).call .wait rfl).step).interrupt true true rfl fun _ => rfl
  exact ⟨_, h₂, rfl, rfl, rfl, (sem_linearizable h₂ (by decide)).2.1⟩

end PyroOS
