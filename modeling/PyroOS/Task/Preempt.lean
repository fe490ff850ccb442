import PyroOS.Task.Switch

/-! Preemption: the timer enters the scheduler between two statements of a task, which may itself be inside
`task_yield`. -/

namespace PyroOS

open Rotation

/-- Where a task stands: in its own code, before a statement of `task_yield`, or in `context_switch`. -/
inductive Place where
  | code
  | entered
  | scan (prev off : ℕ)
  | check (prev : ℕ)
  | claim (prev cand : ℕ) -- current = cand
  | call (prev cand : ℕ) -- context_switch(&tasks[prev].esp, tasks[cand].esp)
  | save (prev cand : ℕ) (new : Word) -- mov [eax], esp
  | load (cand : ℕ) (new e : Word) -- mov esp, [esp + 24]

structure Load where
  target : ℕ
  esp : Word
  left : Word
  deriving DecidableEq

structure Preempt where
  table : Tasks
  enabled : Bool
  tick : Word
  deadline : Word
  exec : ℕ -- the task whose stack the processor is on
  place : Place
  frames : Word → ℕ × Place -- the frames on the stacks: whose they are, and where they lead
  last : ℕ → Word
  log : List Load

/-- The loop of `preempt_tick` over the workers. -/
def Tasks.stop (t : Tasks) : Tasks :=
  { t with tasks := fun i => if 1 ≤ i ∧ i < t.numTasks then { t.tasks i with active := false } else t.tasks i }

namespace Preempt

/-- `mov [eax], esp` in a call that returns to `k`. -/
def save (s : Preempt) (prev : ℕ) (e : Word) (k : Place) : Preempt :=
  { s with
    table := { s.table with tasks := Function.update s.table.tasks prev { s.table.tasks prev with esp := e } }
    frames := Function.update s.frames e (s.exec, k) }

/-- `mov esp, [esp + 24]`: from the stack pointer `e` to `new`. -/
def load (s : Preempt) (cand : ℕ) (new e : Word) : Preempt :=
  { s with
    exec := (s.frames new).1
    place := (s.frames new).2
    last := Function.update s.last s.exec e
    log := s.log ++ [⟨cand, new, s.last cand⟩] }

/-- `context_switch(&tasks[prev].esp, tasks[cand].esp)` in the handler, where nothing interrupts it. -/
def switch (s : Preempt) (prev cand : ℕ) (e : Word) (k : Place) : Preempt :=
  (s.save prev e k).load cand (s.table.tasks cand).esp e

/-- The next statement of `task_yield`, or the next instruction of `context_switch` that has an effect. -/
def statement (s : Preempt) (e : Word) : Preempt :=
  match s.place with
  | .code => s
  | .entered => { s with place := .scan s.table.current 1 }
  | .scan prev off =>
    if off < s.table.numTasks then
      let cand := (prev + off) % s.table.numTasks
      if s.table.ready cand then { s with place := .claim prev cand } else { s with place := .scan prev (off + 1) }
    else { s with place := .check prev }
  | .check prev =>
    if prev ≠ 0 ∧ (s.table.tasks prev).active = false then { s with place := .claim prev 0 } else
      { s with place := .code }
  | .claim prev cand => { s with table := { s.table with current := cand }, place := .call prev cand }
  | .call prev cand => { s with place := .save prev cand (s.table.tasks cand).esp }
  | .save prev cand new => { s.save prev e .code with place := .load cand new e }
  | .load cand new e => s.load cand new e

def preemptTick (s : Preempt) (e : Word) : Preempt :=
  if s.enabled = false then s
  else if s.deadline ≤ s.tick then
    let prev := s.table.current
    if prev ≠ 0 then
      { s with enabled := false, table := { s.table.stop with current := 0 } }.switch prev 0 e s.place
    else { s with enabled := false, table := s.table.stop }
  else
    match taskYield s.table with
    | (t, none) => { s with table := t }
    | (t, some cand) => { s with table := t }.switch s.table.current cand e s.place

def timerCallback (s : Preempt) (e : Word) : Preempt := { s with tick := s.tick + 1 }.preemptTick e

def start (stackBase : Word) (old : ℕ → Task) (n : ℕ) (tick deadline : Word) : Preempt where
  table := spawned stackBase old n
  enabled := true
  tick := tick
  deadline := deadline
  exec := 0
  place := .code
  frames := created n
  last := createdEsp stackBase
  log := []
where
  created : ℕ → Word → ℕ × Place
    | 0 => fun _ => (0, .code)
    | n + 1 => Function.update (created n) (createdEsp stackBase (n + 1)) (n + 1, .code)

end Preempt

/-- The task that is about to get the processor: `current` has been set, and `esp` has not. -/
def Place.pending : Place → Option ℕ
  | .call _ cand | .save _ cand _ | .load cand _ _ => some cand
  | _ => none

def Preempt.InWindow (s : Preempt) : Prop := s.place.pending ≠ none

def InStack (L : TaskMemory) (i : ℕ) (e : Word) : Prop := L.low i ≤ e.toNat ∧ e.toNat + 20 ≤ L.high i

/-- What can happen between two statements, with the stack pointer at a switch. A task calls `task_yield` itself or
from `mutex_lock` and `sem_wait`; the first statement of `task_exit` clears its flag. -/
inductive Instant where
  | call
  | exit
  | statement (e : Word)
  | tick (e : Word)

def Preempt.step (s : Preempt) : Instant → Preempt
  | .call => { s with place := .entered }
  | .exit => { s with table := s.table.retire, place := .entered }
  | .statement e => s.statement e
  | .tick e => s.timerCallback e

inductive Instant.Possible (L : TaskMemory) (s : Preempt) : Instant → Prop
  | call : s.place = .code → Possible L s .call
  | exit : s.place = .code → Possible L s .exit
  | statement (e : Word) : InStack L s.exec e → Possible L s (.statement e)
  | tick (e : Word) : InStack L s.exec e → Possible L s (.tick e)

def Instant.Outside (s : Preempt) : Instant → Prop
  | .tick _ => s.enabled = true → ¬ s.InWindow
  | _ => True

inductive Preempt.Run (L : TaskMemory) (P : Preempt → Instant → Prop) (s₀ : Preempt) : Preempt → Prop
  | start : Run L P s₀ s₀
  | step {s : Preempt} (i : Instant) : Run L P s₀ s → i.Possible L s → P s i → Run L P s₀ (s.step i)

variable {L : TaskMemory} {s : Preempt} {i cand : ℕ} {e : Word} {k : Place}

def Place.Of (N i : ℕ) : Place → Prop
  | .code | .entered => True
  | .scan prev off => prev = i ∧ 1 ≤ off
  | .check prev => prev = i
  | .claim prev cand | .call prev cand | .save prev cand _ => prev = i ∧ cand ≠ i ∧ cand < N
  | .load cand _ _ => cand ≠ i ∧ cand < N

structure Paused (L : TaskMemory) (s : Preempt) (i : ℕ) : Prop where
  esp : (s.table.tasks i).esp = s.last i
  stack : InStack L i (s.last i)
  owner : (s.frames (s.last i)).1 = i
  place : (s.frames (s.last i)).2.Of s.table.numTasks i
  window : (s.frames (s.last i)).2.pending = none

structure Preempt.Saved (L : TaskMemory) (s : Preempt) (e : Word) (k : Place) : Prop where
  esp : (s.table.tasks s.exec).esp = e
  stack : InStack L s.exec e
  frame : s.frames e = (s.exec, k)

structure Preempt.Kept (L : TaskMemory) (s : Preempt) : Prop where
  count : s.exec < s.table.numTasks ∧ s.table.numTasks ≤ 8
  paused : ∀ i < s.table.numTasks, i ≠ s.exec → Paused L s i
  log : ∀ x ∈ s.log, x.esp = x.left ∧ InStack L x.target x.esp

structure Preempt.Safe (L : TaskMemory) (s : Preempt) : Prop extends s.Kept L where
  place : s.place.Of s.table.numTasks s.exec
  current : s.table.current = s.place.pending.getD s.exec
  save : ∀ prev cand new, s.place = .save prev cand new → new = s.last cand
  load : ∀ cand new e, s.place = .load cand new e → new = s.last cand ∧ Preempt.Saved L s e .code

lemma InStack.ne {j : ℕ} {e' : Word} (h : InStack L i e) (h' : InStack L j e') (hi : i < 8) (hj : j < 8) (hne : i ≠ j) :
    e ≠ e' := by
  rintro rfl
  have ha := L.stacks_apart hi hj hne
  have h₁ : L.low i ≤ e.toNat ∧ e.toNat + 20 ≤ L.high i := h
  have h₂ : L.low j ≤ e.toNat ∧ e.toNat + 20 ≤ L.high j := h'
  omega

lemma Preempt.Kept.last_ne (h : s.Kept L) (he : InStack L s.exec e) {j : ℕ} (hj : j < s.table.numTasks)
    (hne : j ≠ s.exec) : s.last j ≠ e :=
  (h.paused j hj hne).stack.ne he (hj.trans_le h.count.2) (h.count.1.trans_le h.count.2) hne

lemma Preempt.Kept.saved (h : s.Kept L) (he : InStack L s.exec e) (k : Place) :
    (s.save s.exec e k).Kept L ∧ Preempt.Saved L (s.save s.exec e k) e k := by
  refine ⟨⟨h.count, fun j hj hne => ?_, h.log⟩, ?_, he, Function.update_self ..⟩
  · obtain ⟨h₁, h₂, h₃, h₄, h₅⟩ := h.paused j hj hne
    constructor <;>
      simpa only [Preempt.save, Function.update_of_ne (show j ≠ s.exec from hne),
        Function.update_of_ne (h.last_ne he hj hne)]
  · simp only [Preempt.save, Function.update_self]

lemma Preempt.Kept.loaded (h : s.Kept L) (hsaved : Preempt.Saved L s e k) (hcur : s.table.current = cand)
    (hcand : cand < s.table.numTasks) (hne : cand ≠ s.exec) (hk : k.Of s.table.numTasks s.exec)
    (hw : k.pending = none) :
    (s.load cand (s.last cand) e).Safe L ∧ (s.load cand (s.last cand) e).exec = cand := by
  obtain ⟨hesp, hstack, howner, hplace, hwindow⟩ := h.paused cand hcand hne
  have hexec : (s.load cand (s.last cand) e).exec = cand := howner
  have hpending : (s.load cand (s.last cand) e).place.pending = none := hwindow
  refine ⟨⟨⟨⟨hexec.symm ▸ hcand, h.count.2⟩, fun j hj hj' => ?_, fun x hx => ?_⟩, ?_, ?_, ?_, ?_⟩, hexec⟩
  · rw [hexec] at hj'
    by_cases hj₀ : j = s.exec
    · subst hj₀
      obtain ⟨h₁, h₂, h₃⟩ := hsaved
      constructor <;> simp only [Preempt.load, Function.update_self, h₁, h₂, h₃, hk, hw]
    · obtain ⟨h₁, h₂, h₃, h₄, h₅⟩ := h.paused j hj hj₀
      constructor <;> simpa only [Preempt.load, Function.update_of_ne hj₀]
  · rcases List.mem_append.mp hx with hx | hx
    · exact h.log x hx
    · rw [List.mem_singleton.mp hx]
      exact ⟨rfl, hstack⟩
  · rw [hexec]
    exact hplace
  · rw [hexec, hpending]
    exact hcur
  · intro prev cand' new hp
    rw [hp] at hpending
    cases hpending
  · intro cand' new e' hp
    rw [hp] at hpending
    cases hpending

lemma Preempt.Kept.switch (h : s.Kept L) (hcur : s.table.current = cand) (hcand : cand < s.table.numTasks)
    (hne : cand ≠ s.exec) (he : InStack L s.exec e) (hk : k.Of s.table.numTasks s.exec) (hw : k.pending = none) :
    (s.switch s.exec cand e k).Safe L ∧ (s.switch s.exec cand e k).exec = cand := by
  obtain ⟨hkept, hsaved⟩ := h.saved he k
  have hesp : (s.table.tasks cand).esp = (s.save s.exec e k).last cand := (h.paused cand hcand hne).esp
  rw [Preempt.switch, hesp]
  exact hkept.loaded hsaved hcur hcand hne hk hw

lemma Preempt.Kept.congr {t : Preempt} (h : s.Kept L) (hexec : t.exec = s.exec)
    (hnum : t.table.numTasks = s.table.numTasks) (hesp : ∀ i, (t.table.tasks i).esp = (s.table.tasks i).esp)
    (hframes : t.frames = s.frames) (hlast : t.last = s.last) (hlog : t.log = s.log) : t.Kept L := by
  refine ⟨by rw [hexec, hnum]; exact h.count, fun i hi hi' => ?_, by rw [hlog]; exact h.log⟩
  obtain ⟨h₁, h₂, h₃, h₄, h₅⟩ := h.paused i (hnum ▸ hi) (hexec ▸ hi')
  exact ⟨by rw [hesp, hlast, h₁], by rwa [hlast], by rwa [hframes, hlast], by rwa [hframes, hlast, hnum],
    by rwa [hframes, hlast]⟩

lemma Preempt.Kept.stand {t : Preempt} (h : t.Kept L) (hk : t.place.Of t.table.numTasks t.exec)
    (hw : t.place.pending = none) (hcur : t.table.current = t.exec) : t.Safe L := by
  refine ⟨h, hk, by rw [hw, hcur, Option.getD_none], fun prev cand new hp => ?_, fun cand new e hp => ?_⟩
  · rw [hp] at hw
    cases hw
  · rw [hp] at hw
    cases hw

lemma Preempt.Safe.move (h : s.Safe L) (hk : k.Of s.table.numTasks s.exec) (hw : k.pending = none)
    (hcur : s.table.current = s.exec) : ({ s with place := k } : Preempt).Safe L :=
  (h.toKept.congr (t := { s with place := k }) rfl rfl (fun _ => rfl) rfl rfl rfl).stand hk hw hcur

lemma add_mod_ne {N p off : ℕ} (hp : p < N) (h₁ : 1 ≤ off) (h₂ : off < N) : (p + off) % N ≠ p := by
  intro h
  have hd := dist_add_mod hp h₂
  rw [h, dist_self] at hd
  omega

lemma Preempt.Safe.statement (h : s.Safe L) (he : InStack L s.exec e) : (s.statement e).Safe L := by
  have hplace := h.place
  have hcur := h.current
  have hcount := h.count
  rw [Preempt.statement]
  cases hp : s.place with rw [hp] at hplace hcur
  | code => exact h
  | entered => exact h.move ⟨hcur, le_rfl⟩ rfl hcur
  | scan prev off =>
    obtain ⟨rfl, hoff⟩ := hplace
    dsimp only
    split
    · rename_i hlt
      split
      · exact h.move ⟨rfl, add_mod_ne hcount.1 hoff hlt, Nat.mod_lt _ (by omega)⟩ rfl hcur
      · exact h.move ⟨rfl, by omega⟩ rfl hcur
    · exact h.move rfl rfl hcur
  | check prev =>
    obtain rfl : prev = s.exec := hplace
    dsimp only
    split
    · rename_i hzero
      exact h.move ⟨rfl, hzero.1.symm, by omega⟩ rfl hcur
    · exact h.move trivial rfl hcur
  | claim prev cand =>
    exact ⟨h.toKept.congr rfl rfl (fun _ => rfl) rfl rfl rfl, hplace, rfl, fun _ _ _ hp => (by cases hp),
      fun _ _ _ hp => (by cases hp)⟩
  | call prev cand =>
    obtain ⟨rfl, hne, hcand⟩ := hplace
    refine ⟨h.toKept.congr rfl rfl (fun _ => rfl) rfl rfl rfl, ⟨rfl, hne, hcand⟩, hcur, fun _ _ _ hp => ?_,
      fun _ _ _ hp => (by cases hp)⟩
    cases hp
    exact (h.paused cand hcand hne).esp
  | save prev cand new =>
    obtain ⟨rfl, hne, hcand⟩ := hplace
    obtain ⟨hkept, hsaved⟩ := h.toKept.saved he .code
    refine ⟨hkept.congr rfl rfl (fun _ => rfl) rfl rfl rfl, ⟨hne, hcand⟩, hcur, fun _ _ _ hp => (by cases hp),
      fun _ _ _ hp' => ?_⟩
    cases hp'
    exact ⟨h.save _ _ _ hp, hsaved.esp, hsaved.stack, hsaved.frame⟩
  | load cand new e' =>
    obtain ⟨rfl, hsaved⟩ := h.load _ _ _ hp
    exact (h.toKept.loaded hsaved hcur hplace.2 hplace.1 trivial rfl).1

lemma Tasks.stop_esp (t : Tasks) (i : ℕ) : (t.stop.tasks i).esp = (t.tasks i).esp := by
  simp only [Tasks.stop]
  split <;> rfl

lemma Preempt.Safe.outside (h : s.Safe L) (hw : ¬ s.InWindow) : s.place.pending = none ∧ s.table.current = s.exec := by
  have hpending : s.place.pending = none := not_not.mp hw
  refine ⟨hpending, ?_⟩
  rw [h.current, hpending, Option.getD_none]

lemma Preempt.Safe.inside (h : s.Safe L) (hw : s.InWindow) :
    s.place.pending = some s.table.current ∧ s.table.current ≠ s.exec := by
  obtain ⟨cand, hcand⟩ := Option.ne_none_iff_exists'.mp hw
  have hcur := h.current
  rw [hcand, Option.getD_some] at hcur
  refine ⟨hcur ▸ hcand, ?_⟩
  have hplace := h.place
  rw [hcur]
  cases hp : s.place with rw [hp] at hcand hplace
  | call prev cand' | save prev cand' new =>
    cases hcand
    exact hplace.2.1
  | load cand' new e =>
    cases hcand
    exact hplace.1
  | _ => cases hcand

lemma Preempt.Safe.deadline (h : s.Safe L) (hw : ¬ s.InWindow) (he : InStack L s.exec e) (hen : s.enabled = true)
    (hd : s.deadline ≤ s.tick) : (s.preemptTick e).Safe L ∧ (s.preemptTick e).exec = 0 := by
  obtain ⟨hplace, hcur⟩ := h.outside hw
  rw [Preempt.preemptTick, if_neg (by simp [hen]), if_pos hd]
  dsimp only
  split
  · rename_i hne
    rw [hcur] at hne ⊢
    have hk : ({ s with enabled := false, table := { s.table.stop with current := 0 } } : Preempt).Kept L :=
      h.toKept.congr rfl rfl s.table.stop_esp rfl rfl rfl
    exact hk.switch rfl ((Nat.zero_le _).trans_lt h.count.1) hne.symm he h.place hplace
  · rename_i hzero
    have hexec : s.exec = 0 := hcur ▸ not_not.mp hzero
    have hk : ({ s with enabled := false, table := s.table.stop } : Preempt).Kept L :=
      h.toKept.congr rfl rfl s.table.stop_esp rfl rfl rfl
    exact ⟨hk.stand h.place hplace hcur, hexec⟩

lemma Preempt.Safe.preemptTick (h : s.Safe L) (hw : s.enabled = true → ¬ s.InWindow) (he : InStack L s.exec e) :
    (s.preemptTick e).Safe L := by
  by_cases hen : s.enabled = false
  · rw [Preempt.preemptTick, if_pos hen]
    exact h
  have hon : s.enabled = true := by simpa using hen
  by_cases hd : s.deadline ≤ s.tick
  · exact (h.deadline (hw hon) he hon hd).1
  obtain ⟨hplace, hcur⟩ := h.outside (hw hon)
  rw [Preempt.preemptTick, if_neg hen, if_neg hd]
  rcases taskYield_cases s.table (hcur ▸ h.count.1) with ⟨c, hy, hs⟩ | ⟨-, ⟨hy, hne, -⟩ | ⟨hy, -⟩⟩
  · obtain ⟨hlt, hne, -⟩ := search_some (hcur ▸ h.count.1) hs
    have hk : ({ s with table := { s.table with current := c } } : Preempt).Kept L :=
      h.toKept.congr rfl rfl (fun _ => rfl) rfl rfl rfl
    rw [hy, hcur]
    exact (hk.switch rfl hlt (hcur ▸ hne) he h.place hplace).1
  · have hk : ({ s with table := { s.table with current := 0 } } : Preempt).Kept L :=
      h.toKept.congr rfl rfl (fun _ => rfl) rfl rfl rfl
    rw [hy, hcur]
    exact (hk.switch rfl ((Nat.zero_le _).trans_lt h.count.1) (hcur ▸ hne.symm) he h.place hplace).1
  · rw [hy]
    exact h

lemma Preempt.Safe.ticked (h : s.Safe L) (tick : Word) : ({ s with tick := tick } : Preempt).Safe L := by
  refine ⟨h.toKept.congr rfl rfl (fun _ => rfl) rfl rfl rfl, h.place, h.current, h.save, fun cand new e hp => ?_⟩
  obtain ⟨hnew, hesp, hstack, hframe⟩ := h.load cand new e hp
  exact ⟨hnew, hesp, hstack, hframe⟩

lemma Tasks.retire_esp (t : Tasks) (i : ℕ) : (t.retire.tasks i).esp = (t.tasks i).esp := by
  by_cases hi : i = t.current
  · simp [Tasks.retire, hi]
  · rw [t.retire_other hi]

lemma Preempt.Safe.step {x : Instant} (h : s.Safe L) (hx : x.Possible L s) (ho : x.Outside s) : (s.step x).Safe L := by
  cases hx with
  | call hp =>
    have hcur := h.current
    rw [hp] at hcur
    exact h.move trivial rfl hcur
  | exit hp =>
    have hcur := h.current
    rw [hp] at hcur
    have hk : ({ s with table := s.table.retire, place := .entered } : Preempt).Kept L :=
      h.toKept.congr rfl rfl s.table.retire_esp rfl rfl rfl
    exact hk.stand trivial rfl hcur
  | statement e he => exact h.statement he
  | tick e he => exact (h.ticked (s.tick + 1)).preemptTick ho he

lemma createdEsp_inStack (hi : i < 8) (hi₀ : i ≠ 0) : InStack L i (createdEsp L.stackBase i) := by
  have htop := L.top_toNat hi hi₀
  have hlow := L.low_add hi₀
  have hsub : (createdEsp L.stackBase i).toNat = L.high i - 20 := by
    rw [createdEsp, BitVec.toNat_sub_of_le, htop]
    · rfl
    · rw [BitVec.le_def, htop]
      exact le_trans (by decide) (hlow ▸ Nat.le_add_left 4096 _)
  rw [InStack, hsub]
  omega

lemma start_worker {n : ℕ} (hn : n ≤ 7) (old : ℕ → Task) {i : ℕ} (hi₀ : i ≠ 0) (hi : i ≤ n) :
    ((spawned L.stackBase old n).tasks i).esp = createdEsp L.stackBase i ∧
      Preempt.start.created L.stackBase n (createdEsp L.stackBase i) = (i, .code) := by
  induction n with
  | zero => omega
  | succ n ih =>
    have hnum := (spawned_spec L.stackBase old n).1
    simp only [spawned, taskCreate, hnum, Preempt.start.created]
    by_cases hnew : i = n + 1
    · rw [hnew, Function.update_self, Function.update_self]
      exact ⟨rfl, rfl⟩
    · have hne : createdEsp L.stackBase i ≠ createdEsp L.stackBase (n + 1) :=
        (createdEsp_inStack (by omega) hi₀).ne (createdEsp_inStack (by omega) (by omega)) (by omega) (by omega) hnew
      rw [Function.update_of_ne hnew, Function.update_of_ne hne]
      exact ih (by omega) (by omega)

lemma start_safe {n : ℕ} (hn : n ≤ 7) (old : ℕ → Task) (tick deadline : Word) :
    (Preempt.start L.stackBase old n tick deadline).Safe L := by
  obtain ⟨hnum, hcur, -⟩ := spawned_spec L.stackBase old n
  have hcount : (Preempt.start L.stackBase old n tick deadline).table.numTasks = n + 1 := hnum
  refine Preempt.Kept.stand ⟨⟨hcount ▸ Nat.succ_pos n, by omega⟩, fun i hi hi₀ => ?_, ?_⟩ trivial rfl hcur
  · obtain ⟨hesp, hframe⟩ := start_worker (L := L) hn old hi₀ (by omega)
    have hf : (Preempt.start L.stackBase old n tick deadline).frames (createdEsp L.stackBase i) = (i, .code) := hframe
    refine ⟨hesp, createdEsp_inStack (by omega) hi₀, ?_, ?_, ?_⟩
    all_goals rw [show (Preempt.start L.stackBase old n tick deadline).last i = createdEsp L.stackBase i from rfl, hf]
    · trivial
    · rfl
  · intro x hx
    cases hx

/-- As long as the timer does not fire between an assignment to `current` and the `mov esp` of the `context_switch` that
belongs to it, every switch loads the stack pointer that its target left, on the target's own stack, and the tick at the
deadline leads to task 0; `current` names the running task exactly outside of these windows, and its successor in them. -/
theorem preempted_yield_safe {n : ℕ} (hn : n ≤ 7) {old : ℕ → Task} {tick deadline : Word}
    (h : Preempt.Run L (fun s x => x.Outside s) (Preempt.start L.stackBase old n tick deadline) s) :
    (∀ x ∈ s.log, x.esp = x.left ∧ InStack L x.target x.esp) ∧
    (s.table.current = s.exec ↔ ¬ s.InWindow) ∧
    (s.InWindow → s.place.pending = some s.table.current) ∧
    (∀ e, InStack L s.exec e → s.enabled = true → ¬ s.InWindow → s.deadline ≤ s.tick + 1 →
      (s.timerCallback e).exec = 0) := by
  have hsafe : s.Safe L := by
    induction h with
    | start => exact start_safe hn old tick deadline
    | step x _ hx ho ih => exact ih.step hx ho
  refine ⟨hsafe.log, ⟨fun hcur hw => (hsafe.inside hw).2 hcur, fun hw => (hsafe.outside hw).2⟩,
    fun hw => (hsafe.inside hw).1, fun e he hen hw hd => ?_⟩
  exact ((hsafe.ticked (s.tick + 1)).deadline hw he hen hd).2

def samplePreempt : Preempt := .start 0x2000 (fun _ => ⟨0, false⟩) 3 0 100

def sampleYield : List Instant :=
  [.tick 0x8ff00, .call, .statement 0x3f00, .statement 0x3f00, .statement 0x3f00, .statement 0x3f00, .statement 0x3f00,
    .statement 0x3f00, .tick 0x4f00]

theorem preempted_yield_safe_switch :
    (sampleYield.foldl Preempt.step samplePreempt).log = [⟨1, 0x3fec, 0x3fec⟩, ⟨2, 0x4fec, 0x4fec⟩,
      ⟨3, 0x5fec, 0x5fec⟩] ∧
    (sampleYield.foldl Preempt.step samplePreempt).table.current =
      (sampleYield.foldl Preempt.step samplePreempt).exec := by
  refine ⟨by decide +kernel, ?_⟩
  have h₁ : Preempt.Run sampleTasks (fun s x => x.Outside s) samplePreempt samplePreempt := .start
  have h₂ := h₁.step (.tick 0x8ff00) (.tick _ ⟨by decide, by decide⟩) fun _ h => h rfl
  have h₃ := h₂.step .call (.call rfl) trivial
  have h₄ := h₃.step (.statement 0x3f00) (.statement _ ⟨by decide +kernel, by decide +kernel⟩) trivial
  have h₅ := h₄.step (.statement 0x3f00) (.statement _ ⟨by decide +kernel, by decide +kernel⟩) trivial
  have h₆ := h₅.step (.statement 0x3f00) (.statement _ ⟨by decide +kernel, by decide +kernel⟩) trivial
  have h₇ := h₆.step (.statement 0x3f00) (.statement _ ⟨by decide +kernel, by decide +kernel⟩) trivial
  have h₈ := h₇.step (.statement 0x3f00) (.statement _ ⟨by decide +kernel, by decide +kernel⟩) trivial
  have h₉ := h₈.step (.statement 0x3f00) (.statement _ ⟨by decide +kernel, by decide +kernel⟩) trivial
  have h := h₉.step (.tick 0x4f00) (.tick _ ⟨by decide +kernel, by decide +kernel⟩) fun _ h => h rfl
  exact (preempted_yield_safe (L := sampleTasks) (n := 3) (by decide) h).2.1.mpr fun hw => hw rfl

/-- Worker 1 calls `task_yield` and is interrupted after `current = 2`: its stack pointer goes to the entry of
worker 2. -/
def sampleTicks : List Instant :=
  [.tick 0x8ff00, .call, .statement 0x3f00, .statement 0x3f00, .statement 0x3f00, .tick 0x3f00, .tick 0x5f00]

/-- The next switch to worker 1 takes it back to its first instruction, with the stack pointer that it was created
with. -/
theorem tick_in_yield_restarts_worker :
    Preempt.Run sampleTasks (fun _ _ => True) samplePreempt (sampleTicks.foldl Preempt.step samplePreempt) ∧
    (sampleTicks.foldl Preempt.step samplePreempt).log =
      [⟨1, 0x3fec, 0x3fec⟩, ⟨3, 0x5fec, 0x5fec⟩, ⟨1, 0x3fec, 0x3f00⟩] := by
  refine ⟨?_, by decide +kernel⟩
  have h₁ : Preempt.Run sampleTasks (fun _ _ => True) samplePreempt samplePreempt := .start
  have h₂ := h₁.step (.tick 0x8ff00) (.tick _ ⟨by decide, by decide⟩) trivial
  have h₃ := h₂.step .call (.call rfl) trivial
  have h₄ := h₃.step (.statement 0x3f00) (.statement _ ⟨by decide +kernel, by decide +kernel⟩) trivial
  have h₅ := h₄.step (.statement 0x3f00) (.statement _ ⟨by decide +kernel, by decide +kernel⟩) trivial
  have h₆ := h₅.step (.statement 0x3f00) (.statement _ ⟨by decide +kernel, by decide +kernel⟩) trivial
  have h₇ := h₆.step (.tick 0x3f00) (.tick _ ⟨by decide +kernel, by decide +kernel⟩) trivial
  exact h₇.step (.tick 0x5f00) (.tick _ ⟨by decide +kernel, by decide +kernel⟩) trivial

end PyroOS
