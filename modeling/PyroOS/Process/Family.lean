import PyroOS.Process.Pids

/-! Parents and children: who may reap whom, and what `proc_end_user` leaves behind. -/

namespace PyroOS

variable {k : BootDir} {s s' s₀ : Sys} {t t' t'' : Slot → Proc} {i : Slot} {p q : Proc} {n : ℕ}

structure Proc.Kin (p q : Proc) : Prop where
  live : q.Live ↔ p.Live
  zombie : q.state = .zombie ↔ p.state = .zombie
  same : q.Live → q.pid = p.pid ∧ q.ppid = p.ppid ∧ q.exitCode = p.exitCode

def Kin (t t' : Slot → Proc) : Prop := ∀ i, (t i).Kin (t' i)

lemma Proc.Kin.refl (p : Proc) : p.Kin p := ⟨Iff.rfl, Iff.rfl, fun _ => ⟨rfl, rfl, rfl⟩⟩

lemma Proc.Kin.dead (hp : p.state = .unused) (hq : q.state = .unused) : p.Kin q :=
  ⟨by simp [hp, hq], by simp [hp, hq], fun h => (h hq).elim⟩

lemma Proc.Kin.withState {st : ProcState} (hl : p.Live) (hz : p.state ≠ .zombie) (h₁ : st ≠ .unused)
    (h₂ : st ≠ .zombie) : p.Kin (p.withState st) :=
  ⟨iff_of_true h₁ hl, iff_of_false h₂ hz, fun _ => ⟨rfl, rfl, rfl⟩⟩

namespace Kin

lemma refl (t : Slot → Proc) : Kin t t := fun i => Proc.Kin.refl (t i)

lemma trans (h : Kin t t') (h' : Kin t' t'') : Kin t t'' := fun i =>
  ⟨(h' i).live.trans (h i).live, (h' i).zombie.trans (h i).zombie, fun hl => by
    obtain ⟨h₁, h₂, h₃⟩ := (h' i).same hl
    obtain ⟨g₁, g₂, g₃⟩ := (h i).same ((h' i).live.mp hl)
    exact ⟨h₁.trans g₁, h₂.trans g₂, h₃.trans g₃⟩⟩

lemma update (h : (t i).Kin p) : Kin t (Function.update t i p) := by
  intro j
  by_cases hj : j = i
  · subst hj
    rwa [Function.update_self]
  · rw [Function.update_of_ne hj]
    exact Proc.Kin.refl _

end Kin

lemma Inv.kin_switch (h : Inv k s) (pid : ℤ) : Kin s.table (procSwitchTo s pid).1.table := by
  rcases procSwitchTo_cases h.current_live pid with hs | ⟨i, hl, _, hz, _, hs⟩
  · rw [hs]
    exact Kin.refl _
  · rw [hs]
    have hcz : (s.table s.currentIdx).state ≠ .zombie := by
      have hr := h.current_live
      rw [procCurrent] at hr
      simp [hr]
    refine (Kin.update (p := (procCurrent s).withState .ready)
      (Proc.Kin.withState h.live_current hcz (by decide) (by decide))).trans (Kin.update ?_)
    by_cases hi : i = s.currentIdx
    · rw [hi, Function.update_self]
      exact ⟨by simp [Proc.withState], by simp [Proc.withState], fun _ => ⟨rfl, rfl, rfl⟩⟩
    · rw [Function.update_of_ne hi]
      exact Proc.Kin.withState hl hz (by decide) (by decide)

lemma procFree_table (s : Sys) (i : Slot) : (procFree k s i).table =
    if (s.table i).pid = 0 then s.table else Function.update s.table i Proc.zero := by
  rw [procFree]
  split
  · rfl
  dsimp only
  split <;> rfl

/-! ### Nobody's child -/

structure Fostered (t : Slot → Proc) : Prop where
  kernel : (t 0).ppid = 0
  parent : ∀ i, (t i).Live → ∃ j, (t j).Live ∧ (t j).state ≠ .zombie ∧ (t j).pid = (t i).ppid

namespace Fostered

lemma kin (h : Fostered t) (hk : Kin t t') (h₀ : (t 0).Live) : Fostered t' := by
  refine ⟨?_, ?_⟩
  · rw [((hk 0).same ((hk 0).live.mpr h₀)).2.1, h.kernel]
  · intro i hl
    obtain ⟨j, hj, hz, hp⟩ := h.parent i ((hk i).live.mp hl)
    have hj' := (hk j).live.mpr hj
    refine ⟨j, hj', fun hh => hz ((hk j).zombie.mp hh), ?_⟩
    rw [((hk j).same hj').1, hp, ((hk i).same hl).2.1]

lemma create (h : Fostered t) (hi : i ≠ 0) (hu : (t i).state = .unused) {c : Slot}
    (hc : (t c).state = .running) (hp : p.ppid = (t c).pid) : Fostered (Function.update t i p) := by
  have hother : ∀ j, (t j).Live → Function.update t i p j = t j := fun j hj =>
    Function.update_of_ne (fun hh => hj (by rw [hh, hu])) ..
  refine ⟨by rw [Function.update_of_ne (Ne.symm hi), h.kernel], ?_⟩
  intro j hl
  by_cases hj : j = i
  · have hcl : (t c).Live := by simp [Proc.Live, hc]
    refine ⟨c, ?_⟩
    rw [hother c hcl, hj, Function.update_self]
    exact ⟨hcl, by simp [hc], hp.symm⟩
  · rw [Function.update_of_ne hj] at hl ⊢
    obtain ⟨j', hl', hz', hp'⟩ := h.parent j hl
    exact ⟨j', by rw [hother j' hl']; exact ⟨hl', hz', hp'⟩⟩

lemma remove (h : Fostered t) (hi : i ≠ 0)
    (hsafe : (t i).state = .zombie ∨ ∀ j, (t j).Live → (t j).ppid ≠ (t i).pid) :
    Fostered (Function.update t i Proc.zero) := by
  refine ⟨by rw [Function.update_of_ne (Ne.symm hi), h.kernel], ?_⟩
  intro j hl
  by_cases hj : j = i
  · rw [hj, Function.update_self] at hl
    exact (hl rfl).elim
  · rw [Function.update_of_ne hj] at hl ⊢
    obtain ⟨j', hl', hz', hp'⟩ := h.parent j hl
    have hne : j' ≠ i := by
      rintro rfl
      rcases hsafe with hz | hc
      · exact hz' hz
      · exact hc j hl hp'.symm
    exact ⟨j', by rw [Function.update_of_ne hne]; exact ⟨hl', hz', hp'⟩⟩

end Fostered

structure ExitSlot (x : ℤ) (code : ℤ) (current i : Slot) (p q : Proc) : Prop where
  pid : q.pid = p.pid
  live : q.Live ↔ p.Live
  zombie : q.state = .zombie ↔ i = current ∨ p.state = .zombie
  ppid : q.ppid = if i ≠ 0 ∧ p.Live ∧ p.ppid = x then 0 else p.ppid
  exitCode : q.exitCode = if i = current then code else p.exitCode

lemma Inv.exit_slot (h : Inv k s) (hpid : (procCurrent s).pid ≠ 0) (code : ℤ) (i : Slot) :
    ExitSlot (procCurrent s).pid code s.currentIdx i (s.table i) ((procExit k s code).table i) := by
  have hcur := h.current_pid hpid
  have hlive := h.live_current
  have hk := h.slots.live_zero
  have hkz : (s.table 0).state ≠ .zombie := by
    rcases h.slots.kernelState with hs | hs <;> simp [hs]
  rw [procExit_eq k hcur code hpid]
  dsimp only
  by_cases h₀ : i = 0
  · subst h₀
    simp only [reparent, Function.update_self, ne_eq, not_true_eq_false, false_and, if_false]
    exact ⟨rfl, iff_of_true (by simp) hk, iff_of_false (by simp) (by tauto), rfl,
      (if_neg (Ne.symm hcur)).symm⟩
  · by_cases hc : i = s.currentIdx
    · subst hc
      simp only [reparent, Function.update_of_ne h₀, Function.update_self]
      by_cases hp : (zombieProc k (procCurrent s) code).Live ∧
          (zombieProc k (procCurrent s) code).ppid = (procCurrent s).pid
      · rw [if_pos ⟨h₀, hp⟩]
        exact ⟨rfl, iff_of_true hp.1 hlive, by simp [zombieProc], (if_pos ⟨h₀, hlive, hp.2⟩).symm,
          (if_pos rfl).symm⟩
      · rw [if_neg (fun hh => hp hh.2)]
        refine ⟨rfl, iff_of_true (by simp [zombieProc]) hlive, by simp [zombieProc], ?_, (if_pos rfl).symm⟩
        exact (if_neg fun hh => hp ⟨by simp [zombieProc], hh.2.2⟩).symm
    · simp only [reparent, Function.update_of_ne h₀, Function.update_of_ne hc]
      by_cases hp : (s.table i).Live ∧ (s.table i).ppid = (procCurrent s).pid
      · rw [if_pos ⟨h₀, hp⟩]
        exact ⟨rfl, Iff.rfl, by simp [hc], (if_pos ⟨h₀, hp⟩).symm, (if_neg hc).symm⟩
      · rw [if_neg (fun hh => hp hh.2)]
        exact ⟨rfl, Iff.rfl, by simp [hc], (if_neg fun hh => hp hh.2).symm, (if_neg hc).symm⟩

lemma procExit_kernel (hpid : (procCurrent s).pid = 0) (code : ℤ) : procExit k s code = s := by
  rw [procExit]
  simp only [if_pos hpid]

lemma Inv.fostered_exit (hi : Inv k s) (h : Fostered s.table) (code : ℤ) :
    Fostered (procExit k s code).table := by
  by_cases hpid : (procCurrent s).pid = 0
  · rw [procExit_kernel hpid]
    exact h
  have hslot := hi.exit_slot hpid code
  have hcur := hi.current_pid hpid
  have hk : ((procExit k s code).table 0).Live ∧ ((procExit k s code).table 0).state ≠ .zombie ∧
      ((procExit k s code).table 0).pid = 0 := by
    refine ⟨(hslot 0).live.mpr hi.slots.live_zero, ?_, (hslot 0).pid.trans hi.slots.kernelPid⟩
    rw [ne_eq, (hslot 0).zombie]
    rcases hi.slots.kernelState with hs | hs <;> simp [hs, Ne.symm hcur]
  refine ⟨by simpa [(hslot 0).ppid] using h.kernel, ?_⟩
  intro i hl
  have hl' := (hslot i).live.mp hl
  rw [(hslot i).ppid]
  split
  · exact ⟨0, hk⟩
  · rename_i hne
    obtain ⟨j, hj, hz, hp⟩ := h.parent i hl'
    have hjc : j ≠ s.currentIdx := by
      rintro rfl
      by_cases h₀ : i = 0
      · rw [h₀, h.kernel] at hp
        exact hpid hp
      · exact hne ⟨h₀, hl', hp.symm⟩
    refine ⟨j, (hslot j).live.mpr hj, ?_, (hslot j).pid.trans hp⟩
    rw [ne_eq, (hslot j).zombie]
    tauto

def Op.Childless : Op → Sys → Prop
  | .endUser pid, s => pid ≠ 0 → ∀ i, (s.table i).Live → (s.table i).ppid ≠ pid
  | _, _ => True

lemma Fostered.free (h : Fostered s.table) (hk : (s.table 0).pid = 0)
    (hsafe : (s.table i).pid ≠ 0 → (s.table i).state = .zombie ∨
      ∀ j, (s.table j).Live → (s.table j).ppid ≠ (s.table i).pid) :
    Fostered (procFree k s i).table := by
  rw [procFree_table]
  split
  · exact h
  · rename_i hp
    exact h.remove (by rintro rfl; exact hp hk) (hsafe hp)

lemma Inv.fostered_endUser (hi : Inv k s) (h : Fostered s.table) {pid : ℤ}
    (hc : pid ≠ 0 → ∀ i, (s.table i).Live → (s.table i).ppid ≠ pid) :
    Fostered (procEndUser k s pid).table := by
  have hkin := hi.kin_switch 0
  have hs := h.kin hkin hi.slots.live_zero
  rw [procEndUser]
  cases hg : procGet (procSwitchTo s 0).1 pid with
  | none => exact hs
  | some i =>
    refine hs.free (hi.switch 0).slots.kernelPid ?_
    rw [(procGet_some hg).2]
    intro hz
    right
    intro j hj
    rw [((hkin j).same hj).2.1]
    exact hc hz j ((hkin j).live.mp hj)

lemma Inv.fostered_step (hi : Inv k s) (h : Fostered s.table) {op : Op} (hop : op.Enabled s)
    (hc : op.Childless s) : Fostered (op.apply k s).table := by
  have hrun : (s.table s.currentIdx).state = .running := hi.current_live
  cases op with
  | alloc name =>
    rcases procAlloc_cases s name with ⟨ha, _⟩ | ⟨i, h₀, hu, _, ha⟩
    · simpa only [Op.apply, ha] using h
    · simp only [Op.apply, ha]
      exact h.create h₀ hu hrun rfl
  | assign i =>
    exact h.kin (Kin.update ⟨Iff.rfl, Iff.rfl, fun _ => ⟨rfl, rfl, rfl⟩⟩) hi.slots.live_zero
  | fork =>
    simp only [Op.apply, procFork]
    rcases procForkWith_cases (vmmCloneCow k) s with ⟨hf, _⟩ | ⟨i, h₀, hu, _, hf⟩
    · rw [hf]
      exact h
    · rcases hc : vmmCloneCow k s.mmu.vm (procCurrent s).dir with ⟨vm, dir⟩
      rw [hf vm dir hc]
      split
      · exact h.kin (Kin.update (Proc.Kin.dead hu rfl)) hi.slots.live_zero
      · exact h.create h₀ hu hrun rfl
  | exit code => exact hi.fostered_exit h code
  | wait =>
    simp only [Op.apply]
    rcases procWait_cases k s with ⟨hw, _⟩ | ⟨i, _, hz, _, hw⟩
    · rw [hw]
      exact h
    · rw [hw]
      exact h.free hi.slots.kernelPid (fun _ => Or.inl hz)
  | switch pid => exact h.kin (hi.kin_switch pid) hi.slots.live_zero
  | beginUser name =>
    simp only [Op.apply]
    rcases procBeginUser_cases k s name with ⟨hb, _⟩ | ⟨i, h₀, hu, _, hb⟩
    · rw [hb]
      exact h
    · rw [hb]
      have hnew := hi.enlist h₀ hu name
      exact (h.create h₀ hu hrun rfl).kin (hnew.kin_switch _) hnew.slots.live_zero
  | endUser pid => exact hi.fostered_endUser h hc
  | map dir virt flags => exact h
  | unmap dir virt => exact h
  | promise dir start stop flags => exact h
  | unpromise => exact h
  | load va user => exact h
  | store va b user => exact h

lemma boot_fostered {first second memBytes : Word} {m : PhysMem} :
    Fostered (bootWith k first second memBytes m).table := by
  refine ⟨rfl, fun i _ => ⟨0, (fun hh => by cases hh), (fun hh => by cases hh), ?_⟩⟩
  by_cases hi : i = 0
  · rw [hi]
    rfl
  · simp only [bootWith, procInstall, Function.update_of_ne hi]
    rfl

lemma Run.fostered (h : Run k (fun op s => op.Enabled s ∧ op.Childless s) s₀ n s) (h₀ : Inv k s₀)
    (hf : Fostered s₀.table) : Fostered s.table := by
  induction h with
  | boot => exact hf
  | step op hr hop ih =>
    exact ((hr.mono fun _ _ hh => hh.1).inv h₀).fostered_step ih hop.1 hop.2

/-- As long as no program is ended while it has a child in the table, every process keeps a parent
that can reap it. -/
theorem no_stranded_children {first second : Word} {m : PhysMem}
    (h : Run k (fun op s => op.Enabled s ∧ op.Childless s) (boot k first second m) n s) (i : Slot)
    (hl : (s.table i).Live) :
    ∃ j, (s.table j).Live ∧ (s.table j).state ≠ .zombie ∧ (s.table j).pid = (s.table i).ppid :=
  (h.fostered boot_inv boot_fostered).parent i hl

def sampleGuests : Sys :=
  Op.apply sampleDir (.beginUser none) (Op.apply sampleDir (.exit 0)
    (Op.fork.apply sampleDir (Op.apply sampleDir (.beginUser none) sampleBoot)))

def sampleOrphan : Sys := Op.apply sampleDir (.endUser 3) sampleGuests

lemma sampleGuests_childless : Op.Childless (.endUser 3) sampleGuests := by
  have h : ∀ i, (sampleGuests.table i).Live → (sampleGuests.table i).ppid ≠ 3 := by decide +kernel
  exact fun _ => h

theorem no_stranded_children_exit : (sampleGuests.table 3).pid = 3 ∧ (sampleOrphan.table 3).state = .unused ∧
    (sampleOrphan.table 2).ppid = 0 ∧ ∃ j, (sampleOrphan.table j).Live ∧ (sampleOrphan.table j).state ≠ .zombie ∧
      (sampleOrphan.table j).pid = (sampleOrphan.table 2).ppid := by
  have h : ∃ n, Run sampleDir (fun op s => op.Enabled s ∧ op.Childless s) sampleBoot n sampleGuests :=
    ⟨_, .step (.beginUser none) (.step (.exit 0) (.step .fork (.step (.beginUser none) .boot ⟨trivial, trivial⟩)
      ⟨trivial, trivial⟩) ⟨trivial, trivial⟩) ⟨trivial, trivial⟩⟩
  obtain ⟨n, hn⟩ := h
  have hend : ∃ n, Run sampleDir (fun op s => op.Enabled s ∧ op.Childless s) sampleBoot n sampleOrphan :=
    ⟨_, .step (.endUser 3) hn ⟨trivial, sampleGuests_childless⟩⟩
  obtain ⟨n, hend⟩ := hend
  exact ⟨by decide +kernel, by decide +kernel, by decide +kernel, no_stranded_children hend 2 (by decide +kernel)⟩

def sampleStranded : Sys :=
  Op.apply sampleDir (.endUser 1) (Op.fork.apply sampleDir (Op.apply sampleDir (.beginUser none) sampleBoot))

/-- `proc_end_user` releases the parent's slot without looking for children. -/
theorem end_user_strands_child : (∃ n, Run sampleDir Op.Enabled sampleBoot n sampleStranded) ∧
    (procBeginUser sampleDir sampleBoot none).2 = 1 ∧ (sampleStranded.table 2).Live ∧
    ∀ j, (sampleStranded.table j).Live → (sampleStranded.table j).pid ≠ (sampleStranded.table 2).ppid :=
  ⟨⟨_, .step (.endUser 1) (.step .fork (.step (.beginUser none) .boot trivial) trivial) trivial⟩,
    by decide +kernel, by decide +kernel, by decide +kernel⟩

end PyroOS
