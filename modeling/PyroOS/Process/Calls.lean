import PyroOS.Process.System

/-! Every process call keeps the invariant of the table. -/

namespace PyroOS

open Sharing

variable {k : BootDir} {s : Sys} {i : Slot} {p : Proc} {B : Vm → Prop}

@[simp] lemma set_table (s : Sys) (i : Slot) (p : Proc) : (s.set i p).table = Function.update s.table i p :=
  rfl
@[simp] lemma set_mmu (s : Sys) (i : Slot) (p : Proc) : (s.set i p).mmu = s.mmu := rfl

structure Books (k : BootDir) (B : Vm → Prop) : Prop where
  nodup : ∀ vm, B vm → (spaces k vm.dirs).Nodup
  create : ∀ vm, B vm → vmmCreateDir k vm = (vm, 0) ∨
    ∃ vm' a, vmmCreateDir k vm = (vm', a) ∧ a ≠ 0 ∧ vm'.dirs = a :: vm.dirs ∧ B vm'
  destroy : ∀ vm d, B vm → d ∈ vm.dirs → (vmmDestroyDir k vm d).dirs = vm.dirs.erase d ∧ B (vmmDestroyDir k vm d)

lemma Books.head_private (hB : Books k B) {vm : Vm} {d : Word} {dirs : List Word} (h : B vm)
    (hd : vm.dirs = d :: dirs) : d ≠ k.dir := by
  have hn := (List.nodup_cons.mp (hB.nodup vm h)).1
  rw [hd] at hn
  exact fun he => hn (he ▸ List.mem_cons_self)

lemma sound_books (k : BootDir) : Books k (Sound k) := by
  refine ⟨fun vm h => h.layout.nodup, fun vm h => ?_, fun vm d h hd => ⟨(h.destroy hd).dirs, (h.destroy hd).sound⟩⟩
  rcases h.create with ⟨hc, _⟩ | ⟨vm', a, hc, hcr⟩
  · exact .inl hc
  · exact .inr ⟨vm', a, hc, hcr.ne_zero, hcr.dirs, hcr.sound⟩

lemma Sound.head_private {vm : Vm} {d : Word} {dirs : List Word} (h : Sound k vm) (hd : vm.dirs = d :: dirs) :
    d ≠ k.dir := (sound_books k).head_private h hd

namespace Holding

lemma dirs_nodup (hB : Books k B) (h : Holding B k s) : s.mmu.vm.dirs.Nodup :=
  (List.nodup_cons.mp (hB.nodup _ h.books)).2

lemma length_le (h : Holding B k s) : s.mmu.vm.dirs.length ≤ 15 := h.owns.length_le h.slots.kernelDir

lemma set (h : Holding B k s) (hi : i ≠ s.currentIdx) (hrun : p.state ≠ .running)
    (hslots : Slots k (Function.update s.table i p)) (hp : holds k p = holds k (s.table i)) :
    Holding B k (s.set i p) :=
  ⟨h.books, h.owns.same hp, hslots, h.runs.update hi hrun⟩

lemma give (hB : Books k B) (h : Holding B k s) {vm : Vm} {a : Word} (hs : B vm) (hd : vm.dirs = a :: s.mmu.vm.dirs)
    (ha : a ≠ 0) (hi : i ≠ s.currentIdx) (hrun : p.state ≠ .running) (hlive : p.Live) (hpd : p.dir = a)
    (hslots : Slots k (Function.update s.table i p)) (hp : holds k (s.table i) = none) :
    Holding B k ((s.withVm vm).set i p) := by
  have hak : a ≠ k.dir := hB.head_private hs hd
  refine ⟨hs, ?_, hslots, h.runs.update hi hrun⟩
  rw [show ((s.withVm vm).set i p).mmu.vm.dirs = a :: s.mmu.vm.dirs from hd]
  exact h.owns.add hp (holds_eq_some.mpr ⟨hlive, ha, hak, hpd⟩)

lemma assign (hB : Books k B) (h : Holding B k s) (hr : (s.table i).state = .ready) (hd : (s.table i).dir = 0) :
    Holding B k (assignDir k s i) := by
  have hi : i ≠ 0 := by
    rintro rfl
    exact k.ne_zero (h.slots.kernelDir.symm.trans hd)
  have hcur : i ≠ s.currentIdx := h.ne_current (by simp [hr])
  have hslots : ∀ a, Slots k (Function.update s.table i { s.table i with dir := a }) := by
    intro a
    exact h.slots.update i _ (fun hh => (hi hh).elim) (fun hz => by simp [hr] at hz)
  rw [assignDir]
  rcases hB.create _ h.books with hc | ⟨vm', a, hc, hne, hdirs, hs⟩
  · rw [hc]
    refine h.set hcur (by simp [hr]) (hslots 0) ?_
    simp only [holds, hd]
  · rw [hc]
    exact h.give hB hs hdirs hne hcur (by simp [hr]) (by simp [Proc.Live, hr]) rfl
      (hslots a) (holds_eq_none.mpr fun _ => Or.inl hd)

end Holding

/-! ### Fork -/

def CloneSpec (k : BootDir) (clone : Vm → Word → Vm × Word) : Prop :=
  ∀ vm src, Sound k vm → src ∈ spaces k vm.dirs → vm.dirs.length ≤ 15 →
    (∃ vm' dst, clone vm src = (vm', dst) ∧ dst ≠ 0 ∧ Cloned k vm vm' src dst) ∨
      ∃ vm', clone vm src = (vm', 0) ∧ Invisible k vm vm'

lemma cloneSpec_cow (k : BootDir) : CloneSpec k (vmmCloneCow k) := by
  intro vm src h hsrc hlen
  exact h.cloneCow hsrc hlen

lemma cloneSpec_dir (k : BootDir) : CloneSpec k (vmmCloneDir k) := by
  intro vm src h hsrc _
  rcases h.cloneDir hsrc with ⟨vm', dst, hc⟩ | ⟨vm', hc, hinv, _⟩
  · exact Or.inl ⟨vm', dst, hc⟩
  · exact Or.inr ⟨vm', hc, hinv⟩

def CloneKeeps (k : BootDir) (B : Vm → Prop) (clone : Vm → Word → Vm × Word) : Prop :=
  ∀ vm src, B vm → src ∈ spaces k vm.dirs → vm.dirs.length ≤ 15 →
    (∃ vm' dst, clone vm src = (vm', dst) ∧ dst ≠ 0 ∧ vm'.dirs = dst :: vm.dirs ∧ B vm') ∨
      ∃ vm', clone vm src = (vm', 0) ∧ vm'.dirs = vm.dirs ∧ B vm'

lemma CloneSpec.keeps {clone : Vm → Word → Vm × Word} (h : CloneSpec k clone) : CloneKeeps k (Sound k) clone := by
  intro vm src hs hsrc hlen
  rcases h vm src hs hsrc hlen with ⟨vm', dst, hc, hz, hd⟩ | ⟨vm', hc, hinv⟩
  · exact .inl ⟨vm', dst, hc, hz, hd.dirs, hd.sound⟩
  · exact .inr ⟨vm', hc, hinv.dirs, hinv.sound⟩

def childProc (s : Sys) (dir : Word) : Proc :=
  { newProc s (some (procCurrent s).name) with
    dir := dir
    entry := (procCurrent s).entry
    brk := (procCurrent s).brk }

def stillborn (s : Sys) : Proc := { newProc s (some (procCurrent s).name) with state := .unused }

lemma procForkWith_cases (clone : Vm → Word → Vm × Word) (s : Sys) :
    (procForkWith clone s = (s, -1) ∧ (procAlloc s none).2 = none) ∨
      ∃ i, i ≠ 0 ∧ (s.table i).state = .unused ∧ (procAlloc s none).2 = some i ∧
        ∀ vm dir, clone s.mmu.vm (procCurrent s).dir = (vm, dir) → procForkWith clone s =
          if dir = 0 then
            ({ (s.withVm vm).set i (stillborn s) with nextPid := incInt s.nextPid }, -1)
          else
            ({ ((s.withVm vm).load (procCurrent s).dir).set i (childProc s dir) with
              nextPid := incInt s.nextPid }, s.nextPid) := by
  rcases procAlloc_cases s (some (procCurrent s).name) with ⟨ha, hn⟩ | ⟨i, hi, hu, hsome, ha⟩
  · exact Or.inl ⟨by simp only [procForkWith, ha], hn⟩
  · refine Or.inr ⟨i, hi, hu, hsome, ?_⟩
    intro vm dir hc
    simp only [procForkWith, ha, set_mmu, hc]
    split
    · rename_i hz
      simp [Sys.withVm, Sys.set, stillborn, newProc, Proc.zero]
    · simp [Sys.withVm, Sys.set, Sys.load, childProc, newProc, Proc.zero]

lemma Holding.forkWith (hB : Books k B) (h : Holding B k s) {clone : Vm → Word → Vm × Word}
    (hclone : CloneKeeps k B clone) : Holding B k (procForkWith clone s).1 := by
  rcases procForkWith_cases clone s with ⟨hf, _⟩ | ⟨i, hi, hu, _, hf⟩
  · rw [hf]
    exact h
  · have hfresh := h.fresh hi hu (some (procCurrent s).name)
    have hcur : i ≠ s.currentIdx := h.ne_current (by simp [hu])
    have hself : (Function.update s.table i (newProc s (some (procCurrent s).name))) i =
        newProc s (some (procCurrent s).name) := Function.update_self ..
    have hcr3 : (procCurrent s).dir = s.mmu.cr3 := h.runs.loaded.symm
    set s₁ : Sys := { s.set i (newProc s (some (procCurrent s).name)) with
      nextPid := incInt s.nextPid } with hs₁
    have hnone : holds k (s₁.table i) = none := by
      rw [hs₁, set_table, hself]
      exact holds_eq_none.mpr fun _ => Or.inl rfl
    have hslots : ∀ p : Proc, p.state ≠ .zombie → Slots k (Function.update s₁.table i p) := fun p hz =>
      hfresh.slots.update i p (fun hh => (hi hh).elim) (fun hh => (hz hh).elim)
    rcases hclone _ _ h.books h.current_space h.length_le with ⟨vm, dst, hcl, hz, hd, hs⟩ | ⟨vm, hcl, hd, hs⟩
    · rw [hf vm dst hcl, if_neg hz]
      have hgive := hfresh.give hB (i := i) (p := childProc s dst) hs hd hz hcur
        (by simp [childProc, newProc]) (by simp [Proc.Live, childProc, newProc]) rfl
        (hslots _ (by simp [childProc, newProc])) hnone
      have heq : ({ ((s.withVm vm).load (procCurrent s).dir).set i (childProc s dst) with
          nextPid := incInt s.nextPid } : Sys) = (s₁.withVm vm).set i (childProc s dst) := by
        simp [hs₁, Sys.withVm, Sys.set, Sys.load, hcr3]
      rw [heq]
      exact hgive
    · rw [hf vm 0 hcl, if_pos rfl]
      have hvm := hfresh.withVm hs hd
      have hset := hvm.set (i := i) (p := stillborn s) hcur (by simp [stillborn])
        (hslots _ (by simp [stillborn]))
        ((holds_eq_none.mpr fun hl => (hl rfl).elim).trans hnone.symm)
      have heq : ({ (s.withVm vm).set i (stillborn s) with nextPid := incInt s.nextPid } : Sys) =
          (s₁.withVm vm).set i (stillborn s) := by
        simp [hs₁, Sys.withVm, Sys.set]
      rw [heq]
      exact hset

/-! ### Release, exit, wait -/

lemma Holding.free (hB : Books k B) (h : Holding B k s) (hcur : i ≠ s.currentIdx) (hi : i ≠ 0)
    (hlive : (s.table i).Live) : Holding B k (procFree k s i) := by
  have hzero : holds k Proc.zero = none := holds_eq_none.mpr fun hl => (hl rfl).elim
  simp only [procFree]
  split
  · exact h
  split
  · rename_i hd
    have hheld : holds k (s.table i) = some (s.table i).dir :=
      holds_eq_some.mpr ⟨hlive, hd.1, hd.2, rfl⟩
    have hdes := hB.destroy _ _ h.books (h.owns.mem_iff.mpr ⟨i, hheld⟩)
    refine ⟨hdes.2, ?_, h.slots.clear hi, h.runs.update hcur (by simp [Proc.zero])⟩
    rw [show ((s.withVm (vmmDestroyDir k s.mmu.vm (s.table i).dir)).set i Proc.zero).mmu.vm.dirs = _
      from hdes.1]
    exact h.owns.drop hheld hzero
  · rename_i hd
    refine h.set hcur (by simp [Proc.zero]) (h.slots.clear hi) (hzero.trans ?_)
    exact (holds_eq_none.mpr fun _ => by tauto).symm

lemma Holding.wait (hB : Books k B) (h : Holding B k s) : Holding B k (procWait k s).1 := by
  rcases procWait_cases k s with ⟨hw, -⟩ | ⟨i, hi, hz, -, hw⟩
  · rw [hw]
    exact h
  · rw [hw]
    exact h.free hB (h.ne_current (by simp [hz])) hi (by simp [Proc.Live, hz])

def zombieProc (k : BootDir) (p : Proc) (code : ℤ) : Proc :=
  { p with exitCode := code, state := .zombie, dir := if p.dir = k.dir then k.dir else 0 }

lemma procExit_eq (k : BootDir) (h : s.currentIdx ≠ 0) (code : ℤ) (hpid : (procCurrent s).pid ≠ 0) :
    procExit k s code =
      { mmu := { s.mmu with
          cr3 := k.dir
          vm := if (procCurrent s).dir ≠ 0 ∧ (procCurrent s).dir ≠ k.dir
            then vmmDestroyDir k s.mmu.vm (procCurrent s).dir else s.mmu.vm }
        table := reparent (procCurrent s).pid (Function.update
          (Function.update s.table s.currentIdx (zombieProc k (procCurrent s) code)) 0
            { s.table 0 with state := .running })
        nextPid := s.nextPid
        currentIdx := 0 } := by
  have h₀ : ∀ q, Function.update s.table s.currentIdx q 0 = s.table 0 := fun q =>
    Function.update_of_ne (Ne.symm h) ..
  have h₁ : ∀ q r, Function.update (Function.update s.table s.currentIdx q) 0 r s.currentIdx = q := by
    intro q r
    rw [Function.update_of_ne h, Function.update_self]
  have h₂ : ∀ q r q', Function.update (Function.update (Function.update s.table s.currentIdx q) 0 r)
      s.currentIdx q' = Function.update (Function.update s.table s.currentIdx q') 0 r := by
    intro q r q'
    rw [Function.update_comm h, Function.update_idem, Function.update_comm (Ne.symm h)]
  rw [procExit]
  simp only [if_neg hpid]
  by_cases hd : (procCurrent s).dir ≠ 0 ∧ (procCurrent s).dir ≠ k.dir
  · simp only [if_pos hd, Sys.set, Sys.load, Sys.withVm, h₀, h₁, h₂, zombieProc, if_neg hd.2]
  · have hz : (if (procCurrent s).dir = k.dir then k.dir else 0) = (procCurrent s).dir := by
      split <;> tauto
    simp only [if_neg hd, Sys.set, Sys.load, h₀, zombieProc, hz]

lemma reparent_spec (pid : ℤ) (t : Slot → Proc) (i : Slot) : (reparent pid t i).pid = (t i).pid ∧
    (reparent pid t i).dir = (t i).dir ∧ (reparent pid t i).state = (t i).state := by
  rw [reparent]
  split <;> exact ⟨rfl, rfl, rfl⟩

lemma Runs.reparent {t : Slot → Proc} {current : Slot} {cr3 : Word} (h : Runs t current cr3) (pid : ℤ) :
    Runs (reparent pid t) current cr3 := by
  refine ⟨fun i => ?_, ?_, ?_⟩
  · rw [(reparent_spec pid t i).2.2]
    exact h.running i
  · rw [(reparent_spec pid t current).2.1]
    exact h.loaded
  · rw [(reparent_spec pid t current).2.1]
    exact h.dir_ne

lemma Holding.current_pid (h : Holding B k s) (hpid : (procCurrent s).pid ≠ 0) : s.currentIdx ≠ 0 := by
  intro he
  rw [procCurrent, he, h.slots.kernelPid] at hpid
  exact hpid rfl

lemma Runs.kernel {t : Slot → Proc} {cr3 : Word} {current : Slot} (h : Runs t current cr3)
    (hcur : current ≠ 0) (hp : p.state ≠ .running) (hd : (t 0).dir = k.dir) :
    Runs (Function.update (Function.update t current p) 0 { t 0 with state := .running }) 0 k.dir := by
  refine ⟨?_, ?_, ?_⟩
  · intro j
    by_cases hj : j = 0
    · simp [hj]
    · rw [Function.update_of_ne hj]
      by_cases hjc : j = current
      · rw [hjc, Function.update_self]
        exact ⟨fun hh => (hp hh).elim, fun hh => (hcur hh).elim⟩
      · rw [Function.update_of_ne hjc, h.running j]
        exact ⟨fun hh => (hjc hh).elim, fun hh => (hj hh).elim⟩
  · rw [Function.update_self]
    exact hd.symm
  · rw [Function.update_self]
    exact fun hh => k.ne_zero (hd.symm.trans hh)

lemma Holding.exit (hB : Books k B) (h : Holding B k s) (code : ℤ) : Holding B k (procExit k s code) := by
  by_cases hpid : (procCurrent s).pid = 0
  · rw [procExit]
    simp only [if_pos hpid]
    exact h
  have hcur := h.current_pid hpid
  have hlive : (s.table s.currentIdx).Live := by
    have hr := h.current_live
    rw [procCurrent] at hr
    simp [Proc.Live, hr]
  rw [procExit_eq k hcur code hpid]
  have hslots : Slots k (Function.update (Function.update s.table s.currentIdx
      (zombieProc k (procCurrent s) code)) 0 { s.table 0 with state := .running }) := by
    have h₁ := h.slots.update s.currentIdx (zombieProc k (procCurrent s) code)
      (fun hh => (hcur hh).elim) (fun _ => by simp only [zombieProc]; split <;> simp)
    exact h₁.update 0 _ (fun _ => ⟨h.slots.kernelPid, h.slots.kernelDir, Or.inr rfl⟩)
      (fun hh => by cases hh)
  have hzero : holds k ({ s.table 0 with state := .running } : Proc) =
      holds k (Function.update s.table s.currentIdx (zombieProc k (procCurrent s) code) 0) := by
    rw [Function.update_of_ne (Ne.symm hcur)]
    trans none
    · exact holds_eq_none.mpr fun _ => Or.inr h.slots.kernelDir
    · exact (holds_eq_none.mpr fun _ => Or.inr h.slots.kernelDir).symm
  have hzom : holds k (zombieProc k (procCurrent s) code) = none := by
    apply holds_eq_none.mpr
    intro _
    simp only [zombieProc]
    split <;> simp
  have hruns := (h.runs.kernel (p := zombieProc k (procCurrent s) code) hcur
    (by simp [zombieProc]) h.slots.kernelDir).reparent (procCurrent s).pid
  by_cases hd : (procCurrent s).dir ≠ 0 ∧ (procCurrent s).dir ≠ k.dir
  · have hheld : holds k (s.table s.currentIdx) = some (procCurrent s).dir :=
      holds_eq_some.mpr ⟨hlive, hd.1, hd.2, rfl⟩
    have hdes := hB.destroy _ _ h.books (h.owns.mem_iff.mpr ⟨_, hheld⟩)
    simp only [if_pos hd]
    refine ⟨hdes.2, ?_, hslots.congr (reparent_spec _ _), hruns⟩
    apply Owns.congr _ (fun i => (reparent_spec _ _ i).2)
    apply Owns.same _ hzero
    rw [hdes.1]
    exact h.owns.drop hheld hzom
  · simp only [if_neg hd]
    refine ⟨h.books, ?_, hslots.congr (reparent_spec _ _), hruns⟩
    apply Owns.congr _ (fun i => (reparent_spec _ _ i).2)
    apply Owns.same _ hzero
    refine h.owns.same (hzom.trans ?_)
    exact (holds_eq_none.mpr fun _ => by rw [procCurrent] at hd; tauto).symm

/-! ### Switching -/

def Proc.withState (p : Proc) (st : ProcState) : Proc := { p with state := st }

def switched (s : Sys) (i : Slot) : Sys where
  mmu := { s.mmu with cr3 := (s.table i).dir }
  table := Function.update (Function.update s.table s.currentIdx ((procCurrent s).withState .ready)) i
    ((s.table i).withState .running)
  nextPid := s.nextPid
  currentIdx := i

lemma holds_withState {st : ProcState} (hl : p.Live) (hst : st ≠ .unused) :
    holds k (p.withState st) = holds k p := by
  simp only [holds, Proc.Live, Proc.withState, hst, ne_eq, not_false_eq_true, true_and,
    show p.state ≠ .unused from hl]

lemma procSwitchTo_eq (h : (procCurrent s).state = .running) (pid : ℤ) :
    procSwitchTo s pid = match procGet s pid with
      | none => (s, -1)
      | some i =>
        if (s.table i).state = .zombie ∨ (s.table i).dir = 0 then (s, -1) else (switched s i, 0) := by
  rw [procSwitchTo]
  cases procGet s pid with
  | none => rfl
  | some i =>
    by_cases hbad : (s.table i).state = .zombie ∨ (s.table i).dir = 0
    · simp only [if_pos hbad]
    · simp only [if_neg hbad, if_pos h]
      by_cases hi : i = s.currentIdx
      · subst hi
        simp [switched, Sys.set, Sys.load, procCurrent, Proc.withState]
      · simp [switched, Sys.set, Sys.load, hi, Proc.withState]

lemma procSwitchTo_cases (h : (procCurrent s).state = .running) (pid : ℤ) :
    procSwitchTo s pid = (s, -1) ∨ ∃ i, (s.table i).Live ∧ (s.table i).pid = pid ∧
      (s.table i).state ≠ .zombie ∧ (s.table i).dir ≠ 0 ∧ procSwitchTo s pid = (switched s i, 0) := by
  rw [procSwitchTo_eq h]
  cases hg : procGet s pid with
  | none => exact Or.inl rfl
  | some i =>
    by_cases hbad : (s.table i).state = .zombie ∨ (s.table i).dir = 0
    · exact Or.inl (by simp only [if_pos hbad])
    · obtain ⟨hl, hp⟩ := procGet_some hg
      simp only [if_neg hbad]
      exact Or.inr ⟨i, hl, hp, (not_or.mp hbad).1, (not_or.mp hbad).2, rfl⟩

lemma Holding.switched (h : Holding B k s) (hl : (s.table i).Live) (hz : (s.table i).state ≠ .zombie)
    (hd : (s.table i).dir ≠ 0) : Holding B k (PyroOS.switched s i) := by
  have hcl : (s.table s.currentIdx).Live := by
    have hr := h.current_live
    rw [procCurrent] at hr
    simp [Proc.Live, hr]
  have hcur : holds k ((procCurrent s).withState .ready) = holds k (s.table s.currentIdx) :=
    holds_withState hcl (by decide)
  refine ⟨h.books, ?_, ?_, ?_, ?_, ?_⟩
  · apply (h.owns.same hcur).same
    rw [holds_withState hl (by decide)]
    by_cases hi : i = s.currentIdx
    · rw [hi, Function.update_self]
      exact hcur.symm
    · rw [Function.update_of_ne hi]
  · have hready : Slots k (Function.update s.table s.currentIdx ((procCurrent s).withState .ready)) := by
      refine h.slots.update s.currentIdx _ ?_ (fun hh => by cases hh)
      intro hh
      rw [procCurrent, hh]
      exact ⟨h.slots.kernelPid, h.slots.kernelDir, Or.inl rfl⟩
    refine hready.update i _ ?_ (fun hh => by cases hh)
    rintro rfl
    exact ⟨h.slots.kernelPid, h.slots.kernelDir, Or.inr rfl⟩
  · intro j
    simp only [PyroOS.switched]
    by_cases hj : j = i
    · simp [hj, Proc.withState]
    · rw [Function.update_of_ne hj]
      by_cases hjc : j = s.currentIdx
      · rw [hjc, Function.update_self]
        exact ⟨fun hh => (by cases hh), fun hh => (hj (hjc.trans hh)).elim⟩
      · rw [Function.update_of_ne hjc, h.runs.running j]
        exact ⟨fun hh => (hjc hh).elim, fun hh => (hj hh).elim⟩
  · simp [PyroOS.switched, Proc.withState]
  · simpa [PyroOS.switched, Proc.withState] using hd

lemma Holding.switch (h : Holding B k s) (pid : ℤ) : Holding B k (procSwitchTo s pid).1 := by
  rcases procSwitchTo_cases h.current_live pid with hs | ⟨i, hl, _, hz, hd, hs⟩
  · rw [hs]
    exact h
  · rw [hs]
    exact h.switched hl hz hd

lemma Holding.switch_kernel (h : Holding B k s) : (procSwitchTo s 0).1.currentIdx = 0 := by
  have hg : procGet s 0 = some 0 := by
    rw [procGet, show allSlots = 0 :: userSlots by decide, List.find?_cons_of_pos]
    simpa [h.slots.kernelPid] using h.slots.live_zero
  have hok : ¬ ((s.table 0).state = .zombie ∨ (s.table 0).dir = 0) := by
    rw [h.slots.kernelDir]
    rintro (hh | hh)
    · rcases h.slots.kernelState with hs | hs <;> simp [hs] at hh
    · exact k.ne_zero hh
  rw [procSwitchTo, hg]
  simp only [if_neg hok]
  rfl

/-! ### Programs in the user zone -/

def userProc (k : BootDir) (s : Sys) (name : Option (List Byte)) : Proc :=
  { newProc s name with dir := k.dir, brk := userHeapBase }

lemma procBeginUser_cases (k : BootDir) (s : Sys) (name : Option (List Byte)) :
    (procBeginUser k s name = (s, -1) ∧ (procAlloc s none).2 = none) ∨
      ∃ i, i ≠ 0 ∧ (s.table i).state = .unused ∧ (procAlloc s none).2 = some i ∧
        procBeginUser k s name =
          ((procSwitchTo { s.set i (userProc k s name) with nextPid := incInt s.nextPid } s.nextPid).1,
            s.nextPid) := by
  rcases procAlloc_cases s name with ⟨ha, hn⟩ | ⟨i, hi, hu, hsome, ha⟩
  · exact Or.inl ⟨by simp only [procBeginUser, ha], hn⟩
  · refine Or.inr ⟨i, hi, hu, hsome, ?_⟩
    simp only [procBeginUser, ha]
    simp [Sys.set, userProc, newProc, Proc.zero]

lemma Holding.enlist (h : Holding B k s) (hi : i ≠ 0) (hu : (s.table i).state = .unused)
    (name : Option (List Byte)) :
    Holding B k { s.set i (userProc k s name) with nextPid := incInt s.nextPid } := by
  have hcur : i ≠ s.currentIdx := h.ne_current (by simp [hu])
  refine ⟨h.books, h.owns.same ?_, ?_, h.runs.update hcur (by simp [userProc, newProc])⟩
  · rw [holds_eq_none.mpr (fun _ => Or.inr rfl), holds_eq_none.mpr (fun hl => (hl hu).elim)]
  · exact h.slots.update i _ (fun hh => (hi hh).elim) (fun _ => Or.inr rfl)

lemma Holding.beginUser (h : Holding B k s) (name : Option (List Byte)) :
    Holding B k (procBeginUser k s name).1 := by
  rcases procBeginUser_cases k s name with ⟨hb, _⟩ | ⟨i, hi, hu, _, hb⟩
  · rw [hb]
    exact h
  · rw [hb]
    exact (h.enlist hi hu name).switch s.nextPid

lemma Holding.endUser (hB : Books k B) (h : Holding B k s) (pid : ℤ) : Holding B k (procEndUser k s pid) := by
  have hs := h.switch 0
  simp only [procEndUser]
  cases hg : procGet (procSwitchTo s 0).1 pid with
  | none => exact hs
  | some i =>
    by_cases hi : i = 0
    · simp only [procFree, hi, hs.slots.kernelPid, if_true]
      exact hs
    · exact hs.free hB (by rw [h.switch_kernel]; exact hi) hi (procGet_some hg).1

/-! ### Exact books -/

namespace Inv

lemma dirs_nodup (h : Inv k s) : s.mmu.vm.dirs.Nodup := h.holding.dirs_nodup (sound_books k)

lemma length_le (h : Inv k s) : s.mmu.vm.dirs.length ≤ 15 := h.holding.length_le

lemma current_pid (h : Inv k s) (hpid : (procCurrent s).pid ≠ 0) : s.currentIdx ≠ 0 := h.holding.current_pid hpid

lemma fresh (h : Inv k s) (hi : i ≠ 0) (hu : (s.table i).state = .unused) (name : Option (List Byte)) :
    Inv k { s.set i (newProc s name) with nextPid := incInt s.nextPid } := of_holding (h.holding.fresh hi hu name)

lemma assign (h : Inv k s) (hr : (s.table i).state = .ready) (hd : (s.table i).dir = 0) : Inv k (assignDir k s i) :=
  of_holding (h.holding.assign (sound_books k) hr hd)

lemma forkWith (h : Inv k s) {clone : Vm → Word → Vm × Word} (hclone : CloneSpec k clone) :
    Inv k (procForkWith clone s).1 := of_holding (h.holding.forkWith (sound_books k) hclone.keeps)

lemma wait (h : Inv k s) : Inv k (procWait k s).1 := of_holding (h.holding.wait (sound_books k))

lemma exit (h : Inv k s) (code : ℤ) : Inv k (procExit k s code) := of_holding (h.holding.exit (sound_books k) code)

lemma switch (h : Inv k s) (pid : ℤ) : Inv k (procSwitchTo s pid).1 := of_holding (h.holding.switch pid)

lemma enlist (h : Inv k s) (hi : i ≠ 0) (hu : (s.table i).state = .unused) (name : Option (List Byte)) :
    Inv k { s.set i (userProc k s name) with nextPid := incInt s.nextPid } := of_holding (h.holding.enlist hi hu name)

lemma beginUser (h : Inv k s) (name : Option (List Byte)) : Inv k (procBeginUser k s name).1 :=
  of_holding (h.holding.beginUser name)

lemma endUser (h : Inv k s) (pid : ℤ) : Inv k (procEndUser k s pid) :=
  of_holding (h.holding.endUser (sound_books k) pid)

end Inv

end PyroOS
