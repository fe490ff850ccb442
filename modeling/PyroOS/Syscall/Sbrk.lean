import PyroOS.Process.Reachable
import PyroOS.Syscall.Confinement

/-! The breaks of processes over whole histories of system calls. -/

namespace PyroOS

open Interaction

/-- What happens while the program in slot `i` lives, which `proc_begin_user` started there: process calls and memory
accesses of the kernel, and complete system calls of whichever process runs. The log has the increments with which the
program itself called `SYS_SBRK`, and what it got. -/
inductive SbrkRun (k : BootDir) (may : Req → Prop) (i : Slot) : List (Word × Word) → KState → Prop
  | start {s : Sys} {name : Option (List Byte)} {st : KState} : (procAlloc s name).2 = some i →
    st.sys = (procBeginUser k s name).1 → SbrkRun k may i [] st
  | op {log : List (Word × Word)} {st : KState} (op : Op) : SbrkRun k may i log st →
    ((op.apply k st.sys).table i).Live → SbrkRun k may i log { st with sys := op.apply k st.sys }
  | call {log : List (Word × Word)} {st st' : KState} {r r' : Frame} {w t : World} : SbrkRun k may i log st →
    Ends may (syscallHandler r st) w (some (r', st')) t →
    SbrkRun k may i (if st.sys.currentIdx = i ∧ r.eax = sysSbrk then log ++ [(r.ebx, r'.eax)] else log) st'

def granted (log : List (Word × Word)) : List (Word × Word) := log.filter fun x => x.1 ≠ 0 ∧ x.2 ≠ -1

def Consecutive : ℕ → List (Word × Word) → ℕ → Prop
  | lo, [], hi => lo = hi
  | lo, (n, a) :: rest, hi => a.toNat = lo ∧ Consecutive (lo + n.toNat) rest hi

variable {k : BootDir} {may : Req → Prop} {i j : Slot} {log rs : List (Word × Word)} {st st' : KState} {r r' : Frame}
  {w t : World} {s : Sys} {lo hi : ℕ} {n a : Word}

lemma Consecutive.le (h : Consecutive lo rs hi) : lo ≤ hi := by
  induction rs generalizing lo with
  | nil => exact h.le
  | cons x rs ih => exact (Nat.le_add_right _ _).trans (ih h.2)

lemma Consecutive.append (h : Consecutive lo rs hi) (ha : a.toNat = hi) :
    Consecutive lo (rs ++ [(n, a)]) (hi + n.toNat) := by
  induction rs generalizing lo with
  | nil => exact ⟨ha.trans h.symm, by rw [show lo = hi from h]; rfl⟩
  | cons x rs ih => exact ⟨h.1, ih h.2⟩

lemma Consecutive.pairwise (h : Consecutive lo rs hi) :
    (∀ x ∈ rs, lo ≤ x.2.toNat ∧ x.2.toNat + x.1.toNat ≤ hi) ∧
      rs.Pairwise fun x y => x.2.toNat + x.1.toNat ≤ y.2.toNat := by
  induction rs generalizing lo with
  | nil => exact ⟨fun x hx => (by cases hx), .nil⟩
  | cons x rs ih =>
    obtain ⟨hx, hrest⟩ := h
    obtain ⟨hin, hpair⟩ := ih hrest
    have hle := hrest.le
    refine ⟨fun y hy => ?_, .cons (fun y hy => ?_) hpair⟩
    · rcases List.mem_cons.mp hy with rfl | hy
      · omega
      · have hy' := hin y hy
        omega
    · have hy' := hin y hy
      omega

/-! ### One call -/

lemma checked_result {α β : Type} {check : Kernel Bool} {body : Kernel α} {f : α → β} {c y : β} {P : β → Prop}
    (hf : ∀ x, P (f x)) (hc : P c)
    (h : Ends may (do
      let ok ← check
      if ok then do
        let x ← body
        pure (f x)
      else pure c) w y t) : P y := by
  obtain ⟨ok, u, -, hok⟩ := Prog.Reaches.of_bind h
  split at hok
  · obtain ⟨x, v, -, hx⟩ := Prog.Reaches.of_bind hok
    cases hx
    exact hf x
  · cases hok
    exact hc

lemma handler_result (h : Ends may (syscallHandler r st) w (some (r', st')) t) :
    (r.eax = sysSbrk ∧ r' = (sysSbrkCall r st).1 ∧ st' = (sysSbrkCall r st).2) ∨
      (r.eax ≠ sysSbrk ∧ st'.sys = st.sys) := by
  by_cases h₉ : r.eax = sysSbrk
  · rw [syscallHandler_sbrk h₉] at h
    cases h
    exact .inl ⟨h₉, rfl, rfl⟩
  refine .inr ⟨h₉, ?_⟩
  -- the calls that check their arguments first
  have hcall : ∀ {q : Kernel (Frame × KState)}, Ends may (q >>= fun x => pure (some x)) w (some (r', st')) t →
      ∃ u, Ends may q w (r', st') u := by
    intro q hq
    obtain ⟨x, u, hx, hy⟩ := Prog.Reaches.of_bind hq
    cases hy
    exact ⟨_, hx⟩
  by_cases h₀ : r.eax = sysWrite
  · obtain ⟨u, hx⟩ := hcall (syscallHandler_write h₀ ▸ h)
    exact checked_result (P := fun y => y.2.sys = st.sys) (fun _ => rfl) rfl hx
  by_cases h₆ : r.eax = sysFwrite
  · obtain ⟨u, hx⟩ := hcall (syscallHandler_fwrite h₆ ▸ h)
    exact checked_result (P := fun y => y.2.sys = st.sys) (fun _ => rfl) rfl hx
  by_cases h₇ : r.eax = sysFread
  · obtain ⟨u, hx⟩ := hcall (syscallHandler_fread h₇ ▸ h)
    exact checked_result (P := fun y => y.2.sys = st.sys) (fun _ => rfl) rfl hx
  · exact (meets_syscallHandler_other h₀ h₆ h₇ h₉).result h (r', st') rfl

lemma sysSbrkCall_other (hj : j ≠ st.sys.currentIdx) : (sysSbrkCall r st).2.sys.table j = st.sys.table j :=
  Function.update_of_ne hj ..

lemma sysSbrkCall_brk : ((sysSbrkCall r st).2.sys.table st.sys.currentIdx).brk =
    (sbrk (procCurrent st.sys).brk r.ebx).2 := by
  simp only [sysSbrkCall, Sys.set, Function.update_self]

lemma sysSbrkCall_same (h : (sbrk (procCurrent st.sys).brk r.ebx).2 = (procCurrent st.sys).brk) :
    (sysSbrkCall r st).2 = st := by
  have hset : st.sys.set st.sys.currentIdx (procCurrent st.sys) = st.sys := by
    rw [Sys.set, procCurrent, Function.update_eq_self]
  simp only [sysSbrkCall, h]
  exact congrArg (fun s => { st with sys := s }) hset

/-! ### Process calls -/

lemma set_brk {p : Proc} (h : p.brk = (s.table j).brk) (i : Slot) : ((s.set j p).table i).brk = (s.table i).brk := by
  by_cases hij : i = j
  · rw [hij, set_table, Function.update_self, h]
  · rw [set_table, Function.update_of_ne hij]

lemma set_unused_brk {p : Proc} (hu : (s.table j).state = .unused) (hl : (s.table i).Live) :
    ((s.set j p).table i).brk = (s.table i).brk := by
  have hij : i ≠ j := by
    rintro rfl
    exact hl hu
  rw [set_table, Function.update_of_ne hij]

lemma procFree_brk (hl : ((procFree k s j).table i).Live) : ((procFree k s j).table i).brk = (s.table i).brk := by
  rw [procFree] at hl ⊢
  split at hl
  · rename_i hp
    rw [if_pos hp]
  · rename_i hp
    rw [if_neg hp]
    dsimp only [Sys.set] at hl ⊢
    by_cases hij : i = j
    · rw [hij, Function.update_self] at hl
      exact (hl rfl).elim
    · rw [Function.update_of_ne hij]
      split <;> rfl

lemma procSwitchTo_brk (s : Sys) (pid : ℤ) (i : Slot) : ((procSwitchTo s pid).1.table i).brk = (s.table i).brk := by
  rw [procSwitchTo]
  split
  · rfl
  split
  · rfl
  · dsimp only
    refine (set_brk ?_ i).trans ?_
    · rfl
    · split
      · exact set_brk (by rfl) i
      · rfl

lemma procSwitchTo_live {pid : ℤ} (hl : (s.table i).Live) : ((procSwitchTo s pid).1.table i).Live := by
  have hset : ∀ (u : Sys) (j : Slot) (p : Proc), p.state ≠ .unused → (u.table i).Live → ((u.set j p).table i).Live := by
    intro u j p hp hu
    by_cases hij : i = j
    · rwa [hij, set_table, Function.update_self]
    · rwa [set_table, Function.update_of_ne hij]
  rw [procSwitchTo]
  split
  · exact hl
  split
  · exact hl
  · dsimp only
    refine hset _ _ _ (by simp) ?_
    split
    · exact hset _ _ _ (by simp) hl
    · exact hl

lemma procExit_brk (s : Sys) (code : ℤ) (i : Slot) : ((procExit k s code).table i).brk = (s.table i).brk := by
  have hparent : ∀ (pid : ℤ) (t : Slot → Proc), (reparent pid t i).brk = (t i).brk := by
    intro pid t
    rw [reparent]
    split <;> rfl
  rw [procExit]
  dsimp only
  split
  · rfl
  rw [hparent]
  split
  · exact (set_brk (by rfl) i).trans ((set_brk (by rfl) i).trans (set_brk (by rfl) i))
  · exact (set_brk (by rfl) i).trans (set_brk (by rfl) i)

lemma Op.brk (op : Op) (hl : (s.table i).Live) (hl' : ((op.apply k s).table i).Live) :
    ((op.apply k s).table i).brk = (s.table i).brk := by
  cases op with
  | alloc name =>
    rcases procAlloc_cases s name with ⟨ha, -⟩ | ⟨j, -, hu, -, ha⟩
    · rw [Op.apply, ha]
    · rw [Op.apply, ha]
      exact set_unused_brk hu hl
  | assign j => exact set_brk (by rfl) i
  | fork =>
    rcases procForkWith_cases (vmmCloneCow k) s with ⟨hf, -⟩ | ⟨j, -, hu, -, hf⟩
    · rw [Op.apply, procFork, hf]
    · obtain ⟨vm, dir, hclone⟩ : ∃ vm dir, vmmCloneCow k s.mmu.vm (procCurrent s).dir = (vm, dir) := ⟨_, _, rfl⟩
      rw [Op.apply, procFork, hf vm dir hclone]
      split
      · exact set_unused_brk (s := s.withVm vm) hu hl
      · exact set_unused_brk (s := (s.withVm vm).load _) hu hl
  | exit code => exact procExit_brk s code i
  | wait =>
    rw [Op.apply, procWait] at hl' ⊢
    split at hl'
    · rfl
    · exact procFree_brk hl'
  | switch pid => exact procSwitchTo_brk s pid i
  | beginUser name =>
    rcases procBeginUser_cases k s name with ⟨hb, -⟩ | ⟨j, -, hu, -, hb⟩
    · rw [Op.apply, hb]
    · rw [Op.apply, hb]
      exact (procSwitchTo_brk _ _ i).trans (set_unused_brk hu hl)
  | endUser pid =>
    rw [Op.apply, procEndUser] at hl' ⊢
    split at hl'
    · exact procSwitchTo_brk s 0 i
    · exact (procFree_brk hl').trans (procSwitchTo_brk s 0 i)
  | map _ _ _ | unmap _ _ | promise _ _ _ _ | unpromise | load _ _ | store _ _ _ => rfl

/-! ### Histories -/

lemma beginUser_brk {name : Option (List Byte)} (h : (procAlloc s name).2 = some i) :
    ((procBeginUser k s name).1.table i).Live ∧ ((procBeginUser k s name).1.table i).brk = userHeapBase := by
  rcases procAlloc_cases s name with ⟨ha, -⟩ | ⟨j, -, -, hj, ha⟩
  · rw [ha] at h
    cases h
  obtain rfl : j = i := by
    rw [ha] at h
    exact Option.some.inj h
  rcases procBeginUser_cases k s name with ⟨-, hnone⟩ | ⟨j', -, -, hj', hb⟩
  · rw [hj] at hnone
    cases hnone
  obtain rfl : j = j' := Option.some.inj (hj.symm.trans hj')
  rw [hb]
  refine ⟨procSwitchTo_live ?_, (procSwitchTo_brk _ _ _).trans ?_⟩
  · simp [Proc.Live, userProc, newProc]
  · simp [userProc]

structure HeapOf (i : Slot) (log : List (Word × Word)) (st : KState) : Prop where
  live : (st.sys.table i).Live
  chain : Consecutive userHeapBase.toNat (granted log) (st.sys.table i).brk.toNat
  le : (st.sys.table i).brk.toNat ≤ userHeapEnd.toNat

lemma HeapOf.same (h : HeapOf i log st) (heq : st'.sys.table i = st.sys.table i) : HeapOf i log st' :=
  ⟨heq ▸ h.live, heq ▸ h.chain, heq ▸ h.le⟩

lemma HeapOf.low (h : HeapOf i log st) : 0x90000 ≤ (st.sys.table i).brk.toNat := h.chain.le

lemma HeapOf.sbrk (h : HeapOf i log st) (hi : st.sys.currentIdx = i) :
    (r.ebx = 0 ∧ sbrk (procCurrent st.sys).brk r.ebx = ((st.sys.table i).brk, (st.sys.table i).brk)) ∨
    (r.ebx ≠ 0 ∧ 0x9f000 < (st.sys.table i).brk.toNat + r.ebx.toNat ∧
      PyroOS.sbrk (procCurrent st.sys).brk r.ebx = (-1, (st.sys.table i).brk)) ∨
    (r.ebx ≠ 0 ∧ (st.sys.table i).brk.toNat + r.ebx.toNat ≤ 0x9f000 ∧
      PyroOS.sbrk (procCurrent st.sys).brk r.ebx = ((st.sys.table i).brk, (st.sys.table i).brk + r.ebx) ∧
      ((st.sys.table i).brk + r.ebx).toNat = (st.sys.table i).brk.toNat + r.ebx.toNat) := by
  have hlow := h.low
  have hhigh : (st.sys.table i).brk.toNat ≤ 0x9f000 := h.le
  rw [procCurrent, hi]
  generalize (st.sys.table i).brk = brk at hlow hhigh ⊢
  by_cases hz : r.ebx = 0
  · refine .inl ⟨hz, ?_⟩
    have hbrk : brk ≠ 0 := by
      rintro rfl
      cases hlow
    rw [PyroOS.sbrk, if_pos hbrk, if_pos hz]
  · rcases sbrk_cases hlow hhigh hz with ⟨hs, hbig⟩ | ⟨hs, hsum, hfit⟩
    · exact .inr (.inl ⟨hz, hbig, hs⟩)
    · exact .inr (.inr ⟨hz, hfit, hs, hsum⟩)

lemma granted_append (log : List (Word × Word)) (x : Word × Word) :
    granted (log ++ [x]) = granted log ++ if x.1 ≠ 0 ∧ x.2 ≠ -1 then [x] else [] := by
  rw [granted, List.filter_append, granted, List.filter_singleton]
  simp

lemma HeapOf.call (h : HeapOf i log st) (hi : st.sys.currentIdx = i) :
    HeapOf i (log ++ [(r.ebx, (sysSbrkCall r st).1.eax)]) (sysSbrkCall r st).2 := by
  have hhigh : (st.sys.table i).brk.toNat ≤ 0x9f000 := h.le
  have hend : userHeapEnd.toNat = 0x9f000 := rfl
  have hbrk : ((sysSbrkCall r st).2.sys.table i).brk = (PyroOS.sbrk (procCurrent st.sys).brk r.ebx).2 := by
    rw [← hi]
    exact sysSbrkCall_brk
  have heax : (sysSbrkCall r st).1.eax = (PyroOS.sbrk (procCurrent st.sys).brk r.ebx).1 := rfl
  have hlive : ((sysSbrkCall r st).2.sys.table i).Live := by
    have hl := h.live
    rw [← hi] at hl ⊢
    simpa [sysSbrkCall, Proc.Live, procCurrent] using hl
  have hchain := h.chain
  rw [heax]
  rcases h.sbrk (r := r) hi with ⟨hz, hs⟩ | ⟨hz, -, hs⟩ | ⟨hz, hfit, hs, hsum⟩
  · rw [hs] at hbrk ⊢
    refine ⟨hlive, ?_, by rw [hbrk]; exact h.le⟩
    rw [hbrk, granted_append, if_neg (fun hx => hx.1 hz), List.append_nil]
    exact hchain
  · rw [hs] at hbrk ⊢
    refine ⟨hlive, ?_, by rw [hbrk]; exact h.le⟩
    rw [hbrk, granted_append, if_neg (fun hx => hx.2 rfl), List.append_nil]
    exact hchain
  · rw [hs] at hbrk ⊢
    have hne : (st.sys.table i).brk ≠ -1 := fun heq => by
      rw [heq] at hhigh
      exact absurd hhigh (by decide)
    refine ⟨hlive, ?_, by rw [hbrk, hsum, hend]; exact hfit⟩
    rw [hbrk, hsum, granted_append, if_pos ⟨hz, hne⟩]
    exact hchain.append rfl

lemma SbrkRun.heapOf (h : SbrkRun k may i log st) : HeapOf i log st := by
  induction h with
  | start halloc hst =>
    obtain ⟨hl, hbrk⟩ := beginUser_brk (k := k) halloc
    rw [← hst] at hl hbrk
    exact ⟨hl, by rw [hbrk]; rfl, by rw [hbrk]; decide⟩
  | op op _ hl ih =>
    have hbrk := op.brk (k := k) ih.live hl
    exact ⟨hl, by rw [hbrk]; exact ih.chain, by rw [hbrk]; exact ih.le⟩
  | @call log st st' r r' w t _ hcall ih =>
    rcases handler_result hcall with ⟨hr, rfl, hst⟩ | ⟨hr, hsys⟩
    · by_cases hi : st.sys.currentIdx = i
      · rw [if_pos ⟨hi, hr⟩, hst]
        exact ih.call hi
      · rw [if_neg (fun hx => hi hx.1), hst]
        exact ih.same (sysSbrkCall_other (Ne.symm hi))
    · rw [if_neg (fun hx => hr hx.2)]
      exact ih.same (by rw [hsys])

/-- The break of a program stays in its window; what it was granted lies in a row from the base up to the break, and a call
of `SYS_SBRK` moves it exactly if the sum of the integers fits, or else changes nothing. -/
theorem sbrk_history (h : SbrkRun k may i log st) :
    (userHeapBase.toNat ≤ (st.sys.table i).brk.toNat ∧ (st.sys.table i).brk.toNat ≤ userHeapEnd.toNat) ∧
    Consecutive userHeapBase.toNat (granted log) (st.sys.table i).brk.toNat ∧
    (granted log).Pairwise (fun x y => x.2.toNat + x.1.toNat ≤ y.2.toNat) ∧
    ∀ (r : Frame) (w : World), r.eax = sysSbrk → ∃ r' st', exec (syscallHandler r st) w = some (some (r', st'), w) ∧
      (∀ j ≠ st.sys.currentIdx, (st'.sys.table j).brk = (st.sys.table j).brk) ∧
      (st.sys.currentIdx = i →
        (st.sys.table i).brk.toNat ≤ (st'.sys.table i).brk.toNat ∧
        (r.ebx = 0 → r'.eax = (st.sys.table i).brk ∧ st' = st) ∧
        (r.ebx ≠ 0 →
          (r'.eax ≠ 0xFFFFFFFF ↔ (st.sys.table i).brk.toNat + r.ebx.toNat ≤ userHeapEnd.toNat) ∧
          (r'.eax ≠ 0xFFFFFFFF → r'.eax = (st.sys.table i).brk ∧
            (st'.sys.table i).brk.toNat = (st.sys.table i).brk.toNat + r.ebx.toNat) ∧
          (r'.eax = 0xFFFFFFFF → st' = st))) := by
  have hheap := h.heapOf
  have hhigh : (st.sys.table i).brk.toNat ≤ 0x9f000 := hheap.le
  have hend : userHeapEnd.toNat = 0x9f000 := rfl
  refine ⟨⟨hheap.low, hheap.le⟩, hheap.chain, hheap.chain.pairwise.2, fun r w hr => ?_⟩
  refine ⟨(sysSbrkCall r st).1, (sysSbrkCall r st).2, ?_, fun j hj => ?_, fun hi => ?_⟩
  · rw [syscallHandler_sbrk hr]
    rfl
  · rw [sysSbrkCall_other hj]
  have hbrk : ((sysSbrkCall r st).2.sys.table i).brk = (sbrk (procCurrent st.sys).brk r.ebx).2 := by
    rw [← hi]
    exact sysSbrkCall_brk
  have heax : (sysSbrkCall r st).1.eax = (sbrk (procCurrent st.sys).brk r.ebx).1 := rfl
  have hcur : (procCurrent st.sys).brk = (st.sys.table i).brk := by rw [procCurrent, hi]
  rw [hbrk, heax]
  rcases hheap.sbrk (r := r) hi with ⟨hz, hs⟩ | ⟨hz, hbig, hs⟩ | ⟨hz, hfit, hs, hsum⟩
  · have hsame : (sysSbrkCall r st).2 = st := sysSbrkCall_same (by rw [hs, hcur])
    rw [hs]
    exact ⟨le_rfl, fun _ => ⟨rfl, hsame⟩, fun hne => absurd hz hne⟩
  · have hsame : (sysSbrkCall r st).2 = st := sysSbrkCall_same (by rw [hs, hcur])
    rw [hs, hend]
    exact ⟨le_rfl, fun h₀ => absurd h₀ hz, fun _ => ⟨⟨fun hne => absurd rfl hne, fun hle => by omega⟩,
      fun hne => absurd rfl hne, fun _ => hsame⟩⟩
  · have hne : (st.sys.table i).brk ≠ 0xFFFFFFFF := fun heq => by
      rw [heq] at hhigh
      exact absurd hhigh (by decide)
    rw [hs, hend]
    exact ⟨by simp only [hsum]; omega, fun h₀ => absurd h₀ hz, fun _ => ⟨⟨fun _ => hfit, fun _ => hne⟩,
      fun _ => ⟨rfl, hsum⟩, fun heq => absurd heq hne⟩⟩

def sampleBegun : KState := { sampleState with sys := (procBeginUser sampleDir sampleSys none).1 }

lemma SbrkRun.grow (h : SbrkRun k may i log st) (hi : st.sys.currentIdx = i) (n : Word) :
    SbrkRun k may i (log ++ [(n, (sysSbrkCall ⟨sysSbrk, n, 0, 0, 0x1B⟩ st).1.eax)])
      (sysSbrkCall ⟨sysSbrk, n, 0, 0, 0x1B⟩ st).2 := by
  have hcall : Ends may (syscallHandler ⟨sysSbrk, n, 0, 0, 0x1B⟩ st) (litWorld 0xB7FFF 1)
      (some (sysSbrkCall ⟨sysSbrk, n, 0, 0, 0x1B⟩ st)) (litWorld 0xB7FFF 1) := .here
  have hrun := h.call hcall
  rw [if_pos ⟨hi, rfl⟩] at hrun
  exact hrun

theorem sbrk_history_refused : ∃ st,
    SbrkRun sampleDir (fun _ => True) 1 [(16, 0x90000), (0xF000, 0xFFFFFFFF), (32, 0x90010)] st ∧
    (st.sys.table 1).brk = 0x90030 ∧ Consecutive userHeapBase.toNat
      (granted [(16, 0x90000), (0xF000, 0xFFFFFFFF), (32, 0x90010)]) (st.sys.table 1).brk.toNat := by
  have hstart : SbrkRun sampleDir (fun _ => True) 1 [] sampleBegun :=
    .start (s := sampleSys) (by decide : (procAlloc sampleSys none).2 = some 1) rfl
  have h := ((hstart.grow rfl 16).grow rfl 0xF000).grow rfl 32
  exact ⟨_, h, by decide, (sbrk_history h).2.1⟩

end PyroOS
