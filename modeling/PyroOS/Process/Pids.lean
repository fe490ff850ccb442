import PyroOS.Process.Reachable

/-! Process identities: pids are handed out once, and the table stays consistent. -/

namespace PyroOS

variable {k : BootDir} {s s' s₀ : Sys} {t t' : Slot → Proc} {i : Slot} {p : Proc} {n : ℕ} {b : ℤ}

structure Pids (t : Slot → Proc) (b : ℤ) : Prop where
  user : ∀ i, i ≠ 0 → (t i).Live → 0 < (t i).pid ∧ (t i).pid < b
  distinct : ∀ i j, i ≠ 0 → j ≠ 0 → (t i).Live → (t j).Live → (t i).pid = (t j).pid → i = j

def Keeps (t t' : Slot → Proc) : Prop := ∀ i, (t' i).Live → (t i).Live ∧ (t' i).pid = (t i).pid

namespace Keeps

lemma refl (t : Slot → Proc) : Keeps t t := fun _ h => ⟨h, rfl⟩

lemma trans {t'' : Slot → Proc} (h : Keeps t t') (h' : Keeps t' t'') : Keeps t t'' := fun i hl =>
  ⟨(h i (h' i hl).1).1, (h' i hl).2.trans (h i (h' i hl).1).2⟩

lemma update (hl : p.Live → (t i).Live) (hp : p.pid = (t i).pid) : Keeps t (Function.update t i p) := by
  intro j hj
  by_cases hji : j = i
  · subst hji
    rw [Function.update_self] at hj ⊢
    exact ⟨hl hj, hp⟩
  · rw [Function.update_of_ne hji] at hj ⊢
    exact ⟨hj, rfl⟩

lemma clear (hl : ¬ p.Live) : Keeps t (Function.update t i p) := by
  intro j hj
  by_cases hji : j = i
  · subst hji
    rw [Function.update_self] at hj
    exact (hl hj).elim
  · rw [Function.update_of_ne hji] at hj ⊢
    exact ⟨hj, rfl⟩

end Keeps

lemma Pids.keeps (h : Pids t b) (hk : Keeps t t') : Pids t' b := by
  refine ⟨fun i hi hl => ?_, fun i j hi hj hli hlj he => ?_⟩
  · obtain ⟨hl', hp⟩ := hk i hl
    rw [hp]
    exact h.user i hi hl'
  · obtain ⟨hli', hpi⟩ := hk i hli
    obtain ⟨hlj', hpj⟩ := hk j hlj
    exact h.distinct i j hi hj hli' hlj' (by rw [← hpi, ← hpj, he])

lemma Pids.create (h : Pids t b) (hb : 0 < b) (hp : p.pid = b) :
    Pids (Function.update t i p) (b + 1) := by
  have hself : Function.update t i p i = p := Function.update_self ..
  have hother : ∀ j, j ≠ i → Function.update t i p j = t j := fun j hj => Function.update_of_ne hj ..
  have hne : ∀ j, j ≠ 0 → (t j).Live → (t j).pid ≠ b := fun j hj hl => (h.user j hj hl).2.ne
  refine ⟨fun j hj hl => ?_, fun j j' hj hj' hl hl' he => ?_⟩
  · by_cases hji : j = i
    · rw [hji, hself, hp]
      omega
    · rw [hother j hji] at hl ⊢
      have hh := h.user j hj hl
      omega
  · by_cases hji : j = i <;> by_cases hji' : j' = i
    · exact hji.trans hji'.symm
    · rw [hji, hself, hother j' hji', hp] at he
      rw [hother j' hji'] at hl'
      exact (hne j' hj' hl' he.symm).elim
    · rw [hji', hself, hother j hji, hp] at he
      rw [hother j hji] at hl
      exact (hne j hj hl he).elim
    · rw [hother j hji, hother j' hji'] at he
      rw [hother j hji] at hl
      rw [hother j' hji'] at hl'
      exact h.distinct j j' hj hj' hl hl' he

/-! ### What the calls do to identities -/

lemma keeps_free (s : Sys) (i : Slot) : Keeps s.table (procFree k s i).table := by
  have hclear : Keeps s.table (Function.update s.table i Proc.zero) := Keeps.clear fun hl => hl rfl
  rw [procFree]
  split
  · exact Keeps.refl _
  dsimp only
  split <;> exact hclear

lemma keeps_reparent (pid : ℤ) (t : Slot → Proc) : Keeps t (reparent pid t) := fun i hl =>
  ⟨by rwa [Proc.Live, (reparent_spec pid t i).2.2] at hl, (reparent_spec pid t i).1⟩

lemma Inv.live_current (h : Inv k s) : (s.table s.currentIdx).Live := by
  have hr := h.current_live
  rw [procCurrent] at hr
  simp [Proc.Live, hr]

lemma Inv.keeps_exit (h : Inv k s) (code : ℤ) : Keeps s.table (procExit k s code).table := by
  by_cases hpid : (procCurrent s).pid = 0
  · rw [procExit]
    simp only [if_pos hpid]
    exact Keeps.refl _
  have hcur := h.current_pid hpid
  rw [procExit_eq k hcur code hpid]
  have hzombie : Keeps s.table
      (Function.update s.table s.currentIdx (zombieProc k (procCurrent s) code)) :=
    Keeps.update (fun _ => h.live_current) rfl
  refine hzombie.trans ((Keeps.update ?_ ?_).trans (keeps_reparent _ _))
  · rw [Function.update_of_ne (Ne.symm hcur)]
    exact fun _ => h.slots.live_zero
  · rw [Function.update_of_ne (Ne.symm hcur)]

lemma Inv.keeps_switch (h : Inv k s) (pid : ℤ) : Keeps s.table (procSwitchTo s pid).1.table := by
  rcases procSwitchTo_cases h.current_live pid with hs | ⟨i, hl, _, _, _, hs⟩
  · rw [hs]
    exact Keeps.refl _
  · rw [hs]
    refine (Keeps.update (p := (procCurrent s).withState .ready) (fun _ => h.live_current) rfl).trans
      (Keeps.update (fun _ => ?_) ?_)
    · by_cases hi : i = s.currentIdx
      · rw [hi, Function.update_self]
        simp [Proc.Live, Proc.withState]
      · rwa [Function.update_of_ne hi]
    · by_cases hi : i = s.currentIdx
      · rw [hi, Function.update_self]
        rfl
      · rw [Function.update_of_ne hi]
        rfl

lemma keeps_wait (s : Sys) : Keeps s.table (procWait k s).1.table := by
  rw [procWait]
  split
  · exact Keeps.refl _
  · exact keeps_free _ _

lemma Inv.keeps_endUser (h : Inv k s) (pid : ℤ) : Keeps s.table (procEndUser k s pid).table := by
  rw [procEndUser]
  split
  · exact h.keeps_switch 0
  · exact (h.keeps_switch 0).trans (keeps_free _ _)

structure Numbered (n : ℕ) (s : Sys) : Prop where
  next : s.nextPid = n + 1
  pids : Pids s.table s.nextPid

lemma Numbered.keeps (h : Numbered n s) (hn : s'.nextPid = s.nextPid) (hk : Keeps s.table s'.table) :
    Numbered n s' :=
  ⟨hn.trans h.next, by rw [hn]; exact h.pids.keeps hk⟩

lemma incInt_eq (h₀ : 0 ≤ b) (h : b < 2 ^ 31 - 1) : incInt b = b + 1 := by
  rw [incInt, Int.bmod_def]
  split <;> omega

lemma Numbered.create (h : Numbered n s) (hn : (n : ℤ) + 1 < 2 ^ 31 - 1) (i : Slot)
    (hp : p.pid = s.nextPid) :
    Numbered (n + 1) { s.set i p with nextPid := incInt s.nextPid } := by
  have hnext : incInt s.nextPid = s.nextPid + 1 := by
    apply incInt_eq <;> rw [h.next] <;> omega
  refine ⟨?_, ?_⟩
  · change incInt s.nextPid = _
    rw [hnext, h.next]
    push_cast
    ring
  · change Pids (Function.update s.table i p) (incInt s.nextPid)
    rw [hnext]
    exact h.pids.create (by rw [h.next]; omega) hp

lemma procFree_nextPid (s : Sys) (i : Slot) : (procFree k s i).nextPid = s.nextPid := by
  rw [procFree]
  split
  · rfl
  dsimp only
  split <;> rfl

lemma procSwitchTo_nextPid (s : Sys) (pid : ℤ) : (procSwitchTo s pid).1.nextPid = s.nextPid := by
  rw [procSwitchTo]
  split
  · rfl
  split
  · rfl
  dsimp only
  split <;> rfl

lemma Numbered.fork (h : Numbered n s) (hn : ((n + Op.fork.creates s : ℕ) : ℤ) < 2 ^ 31 - 1)
    {clone : Vm → Word → Vm × Word} : Numbered (n + Op.fork.creates s) (procForkWith clone s).1 := by
  rcases procForkWith_cases clone s with ⟨hf, hnone⟩ | ⟨i, _, _, hsome, hf⟩
  · simpa [Op.creates, hnone, hf] using h
  · rw [show Op.fork.creates s = 1 by simp [Op.creates, hsome]] at hn ⊢
    have hlt : (n : ℤ) + 1 < 2 ^ 31 - 1 := by
      push_cast at hn
      omega
    rw [hf _ _ rfl]
    split
    · exact (h.create hlt i (p := stillborn s) rfl).keeps rfl (Keeps.refl _)
    · exact (h.create hlt i (p := childProc s _) rfl).keeps rfl (Keeps.refl _)

lemma Numbered.beginUser (h : Numbered n s) (hi : Inv k s) {name : Option (List Byte)}
    (hn : ((n + (Op.beginUser name).creates s : ℕ) : ℤ) < 2 ^ 31 - 1) :
    Numbered (n + (Op.beginUser name).creates s) (procBeginUser k s name).1 := by
  rcases procBeginUser_cases k s name with ⟨hb, hnone⟩ | ⟨i, hi₀, hu, hsome, hb⟩
  · simpa [Op.creates, hnone, hb] using h
  · rw [show (Op.beginUser name).creates s = 1 by simp [Op.creates, hsome]] at hn ⊢
    rw [hb]
    have hnew := h.create (i := i) (p := userProc k s name) (by push_cast at hn; omega) rfl
    exact hnew.keeps (procSwitchTo_nextPid _ _) ((hi.enlist hi₀ hu name).keeps_switch _)

lemma Numbered.step (h : Numbered n s) (hi : Inv k s) {op : Op} (hop : op.Enabled s)
    (hn : ((n + op.creates s : ℕ) : ℤ) < 2 ^ 31 - 1) : Numbered (n + op.creates s) (op.apply k s) := by
  cases op with
  | alloc name =>
    rcases procAlloc_cases s name with ⟨ha, hnone⟩ | ⟨i, _, _, hsome, ha⟩
    · simpa [Op.apply, ha, Op.creates, hnone] using h
    · rw [show (Op.alloc name).creates s = 1 by simp [Op.creates, hsome]] at hn ⊢
      simpa only [Op.apply, ha] using h.create (by push_cast at hn; omega) i (p := newProc s name) rfl
  | assign i =>
    exact h.keeps rfl (Keeps.update (fun _ => by simp [hop.1]) rfl)
  | fork => exact h.fork hn
  | exit code =>
    refine h.keeps ?_ (hi.keeps_exit code)
    rw [Op.apply, procExit]
    split
    · rfl
    dsimp only
    split <;> rfl
  | wait =>
    refine h.keeps ?_ (keeps_wait s)
    rw [Op.apply, procWait]
    split
    · rfl
    · exact procFree_nextPid _ _
  | switch pid => exact h.keeps (procSwitchTo_nextPid s pid) (hi.keeps_switch pid)
  | beginUser name => exact h.beginUser hi hn
  | endUser pid =>
    refine h.keeps ?_ (hi.keeps_endUser pid)
    rw [Op.apply, procEndUser]
    split
    · exact procSwitchTo_nextPid s 0
    · exact (procFree_nextPid _ _).trans (procSwitchTo_nextPid s 0)
  | map dir virt flags => exact h.keeps rfl (Keeps.refl _)
  | unmap dir virt => exact h.keeps rfl (Keeps.refl _)
  | promise dir start stop flags => exact h.keeps rfl (Keeps.refl _)
  | unpromise => exact h.keeps rfl (Keeps.refl _)
  | load va user => exact h.keeps rfl (Keeps.refl _)
  | store va b user => exact h.keeps rfl (Keeps.refl _)

lemma boot_numbered {first second memBytes : Word} {m : PhysMem} :
    Numbered 0 (bootWith k first second memBytes m) := by
  have hdead : ∀ i, i ≠ 0 → ¬ ((bootWith k first second memBytes m).table i).Live := by
    intro i hi
    simp [bootWith, procInstall, hi, Proc.zero]
  exact ⟨rfl, fun i hi hl => (hdead i hi hl).elim, fun i _ hi _ hl => (hdead i hi hl).elim⟩

lemma Run.numbered (h : Run k Op.Enabled s₀ n s) (h₀ : Inv k s₀) (hz : Numbered 0 s₀)
    (hn : (n : ℤ) < 2 ^ 31 - 1) : Numbered n s := by
  induction h with
  | boot => exact hz
  | step op hr hop ih =>
    have hlt := hn
    push_cast at hlt
    exact (ih (by omega)).step (hr.inv h₀) hop hn

/-- The process table is consistent in every state reached before pids run out. -/
theorem table_invariant {first second : Word} {m : PhysMem}
    (h : Run k Op.Enabled (boot k first second m) n s) (hn : (n : ℤ) < 2 ^ 31 - 1) :
    ((s.table 0).pid = 0 ∧ (s.table 0).dir = k.dir ∧
      ((s.table 0).state = .ready ∨ (s.table 0).state = .running)) ∧
    (∀ i, (s.table i).state = .running ↔ i = s.currentIdx) ∧
    (s.mmu.cr3 = (s.table s.currentIdx).dir ∧ (s.table s.currentIdx).dir ≠ 0 ∧
      ((s.table s.currentIdx).dir = k.dir ∨ (s.table s.currentIdx).dir ∈ s.mmu.vm.dirs)) ∧
    (∀ i, (s.table i).Live → 0 ≤ (s.table i).pid ∧ (s.table i).pid < s.nextPid) ∧
    (∀ i j, (s.table i).Live → (s.table j).Live → (s.table i).pid = (s.table j).pid → i = j) ∧
    (∀ i, (s.table i).state = .zombie → (s.table i).dir = 0 ∨ (s.table i).dir = k.dir) ∧
    ∀ i j, (s.table i).Live → (s.table j).Live → (s.table i).dir = (s.table j).dir →
      (s.table i).dir ≠ 0 → (s.table i).dir ≠ k.dir → i = j := by
  have hi := h.inv boot_inv
  have hp := h.numbered boot_inv boot_numbered hn
  have hpos : 0 < s.nextPid := by
    rw [hp.next]
    omega
  refine ⟨⟨hi.slots.kernelPid, hi.slots.kernelDir, hi.slots.kernelState⟩, hi.runs.running,
    ⟨hi.runs.loaded, hi.runs.dir_ne, ?_⟩, ?_, ?_, hi.slots.zombie, ?_⟩
  · simpa [spaces, procCurrent] using hi.current_space
  · intro i hl
    by_cases h₀ : i = 0
    · rw [h₀, hi.slots.kernelPid]
      omega
    · have hu := hp.pids.user i h₀ hl
      omega
  · intro i j hli hlj he
    by_cases h₀ : i = 0 <;> by_cases h₁ : j = 0
    · rw [h₀, h₁]
    · rw [h₀, hi.slots.kernelPid] at he
      have hu := hp.pids.user j h₁ hlj
      omega
    · rw [h₁, hi.slots.kernelPid] at he
      have hu := hp.pids.user i h₀ hli
      omega
    · exact hp.pids.distinct i j h₀ h₁ hli hlj he
  · intro i j hli hlj he hz hk
    exact hi.owns.unique hi.dirs_nodup (holds_eq_some.mpr ⟨hli, hz, hk, rfl⟩)
      (holds_eq_some.mpr ⟨hlj, hz, hk, he.symm⟩)

theorem table_invariant_forked : ∃ n : ℕ, n ≤ 2 ∧ Run sampleDir Op.Enabled sampleBoot n sampleFork ∧
    ∀ i, (sampleFork.table i).state = .running ↔ i = sampleFork.currentIdx := by
  obtain ⟨n, hn, h⟩ := sample_run
  exact ⟨n, hn, h, (table_invariant h (by omega)).2.1⟩

end PyroOS
