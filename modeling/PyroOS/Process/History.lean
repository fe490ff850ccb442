import PyroOS.Process.Family

/-! Exit and wait over whole histories: each exit code reaches one parent, once. -/

namespace PyroOS

variable {k : BootDir} {s s' s₀ : Sys} {t t' : Slot → Proc} {i : Slot} {p : Proc} {n : ℕ} {b : ℤ}

inductive Event where
  | created (child parent : ℤ)
  | exited (pid code : ℤ)
  | reaped (parent child status : ℤ)
  deriving DecidableEq

namespace Event

def subject : Event → ℤ
  | created c _ => c
  | exited c _ => c
  | reaped _ c _ => c

def reapedPid : Event → Option ℤ
  | reaped _ c _ => some c
  | _ => none

end Event

section

variable (k : BootDir)

/-- The events of one operation. A fork whose clone fails has created nothing. -/
def Op.events : Op → Sys → List Event
  | .alloc _, s => if (procAlloc s none).2.isSome then [.created s.nextPid (procCurrent s).pid] else []
  | .fork, s =>
    if (procFork k s).2 = -1 then [] else [.created (procFork k s).2 (procCurrent s).pid]
  | .exit code, s => if (procCurrent s).pid = 0 then [] else [.exited (procCurrent s).pid code]
  | .wait, s =>
    match procWait k s with
    | (_, c, some status) => [.reaped (procCurrent s).pid c status]
    | (_, _, none) => []
  | _, _ => []

def Op.Unix : Op → Prop
  | .beginUser _ => False
  | .endUser _ => False
  | _ => True

inductive Trace (s₀ : Sys) : ℕ → List Event → Sys → Prop
  | boot : Trace s₀ 0 [] s₀
  | step {n : ℕ} {log : List Event} {s : Sys} (op : Op) : Trace s₀ n log s → op.Enabled s → op.Unix →
    Trace s₀ (n + op.creates s) (op.events k s ++ log) (op.apply k s)

end

def Waiting (log : List Event) (c : ℤ) : Prop :=
  (∃ code, .exited c code ∈ log) ∧ ∀ q status, .reaped q c status ∉ log

/-- `p` created `c`, or `p` is the kernel and the process that created `c` has exited. -/
def Responsible (log : List Event) (p c : ℤ) : Prop :=
  .created c p ∈ log ∨ p = 0 ∧ ∃ q, .created c q ∈ log ∧ ∃ code, .exited q code ∈ log

structure History (log : List Event) (t : Slot → Proc) (b : ℤ) : Prop where
  parent : ∀ i, i ≠ 0 → (t i).Live → ∃ q, .created (t i).pid q ∈ log ∧
    ((t i).ppid = q ∧ (∀ code, .exited q code ∉ log) ∨ (t i).ppid = 0 ∧ ∃ code, .exited q code ∈ log)
  dead : ∀ i, i ≠ 0 → (t i).state = .zombie → .exited (t i).pid (t i).exitCode ∈ log
  alive : ∀ i, i ≠ 0 → (t i).Live → (t i).state ≠ .zombie → ∀ code, .exited (t i).pid code ∉ log
  kernel : ∀ code, .exited 0 code ∉ log
  settled : ∀ c, Waiting log c → ∃ i, i ≠ 0 ∧ (t i).state = .zombie ∧ (t i).pid = c
  gone : ∀ q c status, .reaped q c status ∈ log → ∀ i, i ≠ 0 → (t i).Live → (t i).pid ≠ c
  below : ∀ e ∈ log, e.subject < b
  creator : ∀ c q q', .created c q ∈ log → .created c q' ∈ log → q = q'
  code : ∀ c x y, .exited c x ∈ log → .exited c y ∈ log → x = y
  once : (log.filterMap Event.reapedPid).Nodup

namespace History

variable {log : List Event}

lemma kin (h : History log t b) (hk : Kin t t') : History log t' b where
  parent i hi hl := by
    obtain ⟨h₁, h₂, _⟩ := (hk i).same hl
    rw [h₁, h₂]
    exact h.parent i hi ((hk i).live.mp hl)
  dead i hi hz := by
    have hz' := (hk i).zombie.mp hz
    obtain ⟨h₁, _, h₃⟩ := (hk i).same (by simp [hz])
    rw [h₁, h₃]
    exact h.dead i hi hz'
  alive i hi hl hz := by
    rw [((hk i).same hl).1]
    exact h.alive i hi ((hk i).live.mp hl) (fun hh => hz ((hk i).zombie.mpr hh))
  kernel := h.kernel
  settled c hc := by
    obtain ⟨i, hi, hz, hp⟩ := h.settled c hc
    have hz' := (hk i).zombie.mpr hz
    exact ⟨i, hi, hz', (((hk i).same (by simp [hz'])).1).trans hp⟩
  gone q c status hr i hi hl := by
    rw [((hk i).same hl).1]
    exact h.gone q c status hr i hi ((hk i).live.mp hl)
  below := h.below
  creator := h.creator
  code := h.code
  once := h.once

lemma mono (h : History log t b) {b' : ℤ} (hb : b ≤ b') : History log t b' :=
  { h with below := fun e he => (h.below e he).trans_le hb }

lemma create (h : History log t b) (hu : (t i).state = .unused) (hi : i ≠ 0) {q : ℤ}
    (hq : ∀ code, .exited q code ∉ log) (hpid : p.pid = b) (hpp : p.ppid = q) (hr : p.state = .ready) :
    History (.created b q :: log) (Function.update t i p) (b + 1) := by
  have hnew : ∀ e ∈ log, e.subject ≠ b := fun e he => (h.below e he).ne
  have hself : Function.update t i p i = p := Function.update_self ..
  have hother : ∀ j, j ≠ i → Function.update t i p j = t j := fun j hj => Function.update_of_ne hj ..
  have hex : ∀ c code, Event.exited c code ∈ .created b q :: log ↔ .exited c code ∈ log := by simp
  have hre : ∀ r c st, Event.reaped r c st ∈ .created b q :: log ↔ .reaped r c st ∈ log := by simp
  refine ⟨?_, ?_, ?_, ?_, ?_, ?_, ?_, ?_, ?_, ?_⟩
  · intro j hj hl
    simp only [hex]
    by_cases hji : j = i
    · rw [hji, hself, hpid, hpp]
      exact ⟨q, List.mem_cons_self, Or.inl ⟨rfl, hq⟩⟩
    · rw [hother j hji] at hl ⊢
      obtain ⟨r, hr, hcase⟩ := h.parent j hj hl
      exact ⟨r, List.mem_cons_of_mem _ hr, hcase⟩
  · intro j hj hz
    rw [hex]
    by_cases hji : j = i
    · rw [hji, hself, hr] at hz
      cases hz
    · rw [hother j hji] at hz ⊢
      exact h.dead j hj hz
  · intro j hj hl hz code
    rw [hex]
    by_cases hji : j = i
    · rw [hji, hself, hpid]
      exact fun hh => hnew _ hh rfl
    · rw [hother j hji] at hl hz ⊢
      exact h.alive j hj hl hz code
  · intro code
    rw [hex]
    exact h.kernel code
  · intro c hc
    rw [Waiting] at hc
    simp only [hex, hre] at hc
    obtain ⟨j, hj, hz, hp⟩ := h.settled c hc
    have hji : j ≠ i := by
      rintro rfl
      rw [hu] at hz
      cases hz
    exact ⟨j, hj, by rw [hother j hji]; exact ⟨hz, hp⟩⟩
  · intro r c st hr' j hj hl
    rw [hre] at hr'
    by_cases hji : j = i
    · rw [hji, hself, hpid]
      exact fun hh => hnew _ hr' hh.symm
    · rw [hother j hji] at hl ⊢
      exact h.gone r c st hr' j hj hl
  · intro e he
    rcases List.mem_cons.mp he with rfl | he
    · exact lt_add_one b
    · exact (h.below e he).trans (lt_add_one b)
  · intro c r r' hr₁ hr₂
    rcases List.mem_cons.mp hr₁ with he₁ | hr₁ <;> rcases List.mem_cons.mp hr₂ with he₂ | hr₂
    · cases he₁
      cases he₂
      rfl
    · cases he₁
      exact (hnew _ hr₂ rfl).elim
    · cases he₂
      exact (hnew _ hr₁ rfl).elim
    · exact h.creator c r r' hr₁ hr₂
  · intro c x y hx hy
    rw [hex] at hx hy
    exact h.code c x y hx hy
  · rw [List.filterMap_cons_none rfl]
    exact h.once

lemma exit (h : History log t b) (hp : Pids t b) {x code : ℤ} {c : Slot} (hc : c ≠ 0)
    (hrun : (t c).state = .running) (hx : (t c).pid = x)
    (hslot : ∀ i, ExitSlot x code c i (t i) (t' i)) : History (.exited x code :: log) t' b := by
  have hlive : (t c).Live := by simp [Proc.Live, hrun]
  have hpos : 0 < x ∧ x < b := hx ▸ hp.user c hc hlive
  have hnot : ∀ y, .exited x y ∉ log := fun y => hx ▸ h.alive c hc hlive (by simp [hrun]) y
  have hother : ∀ i, i ≠ 0 → i ≠ c → (t i).Live → (t i).pid ≠ x := fun i hi hic hl he =>
    hic (hp.distinct i c hi hc hl hlive (he.trans hx.symm))
  have hcr : ∀ a q, Event.created a q ∈ .exited x code :: log ↔ .created a q ∈ log := by simp
  have hre : ∀ r a st, Event.reaped r a st ∈ .exited x code :: log ↔ .reaped r a st ∈ log := by simp
  have hex : ∀ a y, Event.exited a y ∈ .exited x code :: log ↔ a = x ∧ y = code ∨ .exited a y ∈ log := by
    simp
  refine ⟨?_, ?_, ?_, ?_, ?_, ?_, ?_, ?_, ?_, ?_⟩
  · intro i hi hl
    rw [(hslot i).live] at hl
    obtain ⟨q, hq, hcase⟩ := h.parent i hi hl
    refine ⟨q, by rwa [hcr, (hslot i).pid], ?_⟩
    rw [(hslot i).ppid]
    rcases hcase with ⟨hpp, hne⟩ | ⟨hpp, y, hy⟩
    · by_cases hqx : q = x
      · rw [if_pos ⟨hi, hl, hpp.trans hqx⟩]
        exact Or.inr ⟨rfl, code, by simp [hqx]⟩
      · rw [if_neg (fun hh => hqx (hpp.symm.trans hh.2.2))]
        refine Or.inl ⟨hpp, fun y hy => ?_⟩
        rcases (hex q y).mp hy with ⟨he, _⟩ | hy
        · exact hqx he
        · exact hne y hy
    · rw [hpp, ite_self]
      exact Or.inr ⟨rfl, y, List.mem_cons_of_mem _ hy⟩
  · intro i hi hz
    rw [(hslot i).pid, (hslot i).exitCode, hex]
    by_cases hic : i = c
    · rw [if_pos hic, hic]
      exact Or.inl ⟨hx, rfl⟩
    · rw [if_neg hic]
      exact Or.inr (h.dead i hi (((hslot i).zombie.mp hz).resolve_left hic))
  · intro i hi hl hz y hy
    rw [(hslot i).live] at hl
    rw [ne_eq, (hslot i).zombie, not_or] at hz
    rw [(hslot i).pid, hex] at hy
    rcases hy with ⟨he, _⟩ | hy
    · exact hother i hi hz.1 hl he
    · exact h.alive i hi hl hz.2 y hy
  · intro y hy
    rcases (hex 0 y).mp hy with ⟨he, _⟩ | hy
    · omega
    · exact h.kernel y hy
  · rintro a ⟨⟨y, hy⟩, hna⟩
    by_cases hax : a = x
    · exact ⟨c, hc, (hslot c).zombie.mpr (Or.inl rfl), by rw [(hslot c).pid, hx, hax]⟩
    · simp only [hre] at hna
      have hy' : .exited a y ∈ log := ((hex a y).mp hy).resolve_left (fun hh => hax hh.1)
      obtain ⟨i, hi, hz, hpid⟩ := h.settled a ⟨⟨y, hy'⟩, hna⟩
      exact ⟨i, hi, (hslot i).zombie.mpr (Or.inr hz), (hslot i).pid.trans hpid⟩
  · intro r a st hr i hi hl
    rw [hre] at hr
    rw [(hslot i).live] at hl
    rw [(hslot i).pid]
    exact h.gone r a st hr i hi hl
  · intro e he
    rcases List.mem_cons.mp he with rfl | he
    · exact hpos.2
    · exact h.below e he
  · intro a q q' hq hq'
    rw [hcr] at hq hq'
    exact h.creator a q q' hq hq'
  · intro a y z hy hz
    rcases (hex a y).mp hy with ⟨hax, hyc⟩ | hy' <;> rcases (hex a z).mp hz with ⟨hax', hzc⟩ | hz'
    · exact hyc.trans hzc.symm
    · exact (hnot z (hax ▸ hz')).elim
    · exact (hnot y (hax' ▸ hy')).elim
    · exact h.code a y z hy' hz'
  · rw [List.filterMap_cons_none rfl]
    exact h.once

lemma not_reaped (h : History log t b) (hi : i ≠ 0) (hl : (t i).Live) (q st : ℤ) :
    .reaped q (t i).pid st ∉ log := fun hh => h.gone q _ st hh i hi hl rfl

lemma reap (h : History log t b) (hp : Pids t b) (hi : i ≠ 0) (hz : (t i).state = .zombie) (q : ℤ) :
    History (.reaped q (t i).pid (t i).exitCode :: log) (Function.update t i Proc.zero) b := by
  have hlive : (t i).Live := by simp [Proc.Live, hz]
  have hstay : ∀ j, (Function.update t i Proc.zero j).Live → j ≠ i ∧ Function.update t i Proc.zero j = t j := by
    intro j hl
    have hji : j ≠ i := by
      rintro rfl
      rw [Function.update_self] at hl
      exact hl rfl
    exact ⟨hji, Function.update_of_ne hji ..⟩
  have hcr : ∀ a r, Event.created a r ∈ .reaped q (t i).pid (t i).exitCode :: log ↔ .created a r ∈ log := by
    simp
  have hex : ∀ a y, Event.exited a y ∈ .reaped q (t i).pid (t i).exitCode :: log ↔ .exited a y ∈ log := by
    simp
  refine ⟨?_, ?_, ?_, ?_, ?_, ?_, ?_, ?_, ?_, ?_⟩
  · intro j hj hl
    obtain ⟨_, he⟩ := hstay j hl
    simp only [hcr, hex]
    rw [he] at hl ⊢
    exact h.parent j hj hl
  · intro j hj hz'
    obtain ⟨_, he⟩ := hstay j (by simp [Proc.Live, hz'])
    rw [hex]
    rw [he] at hz' ⊢
    exact h.dead j hj hz'
  · intro j hj hl hz' y
    obtain ⟨_, he⟩ := hstay j hl
    rw [hex]
    rw [he] at hl hz' ⊢
    exact h.alive j hj hl hz' y
  · intro y
    rw [hex]
    exact h.kernel y
  · rintro c ⟨⟨y, hy⟩, hna⟩
    rw [hex] at hy
    obtain ⟨j, hj, hz', hpid⟩ := h.settled c ⟨⟨y, hy⟩, fun r st hh => hna r st (List.mem_cons_of_mem _ hh)⟩
    have hji : j ≠ i := by
      rintro rfl
      exact hna q (t j).exitCode (by rw [← hpid]; exact List.mem_cons_self)
    exact ⟨j, hj, by rw [Function.update_of_ne hji]; exact ⟨hz', hpid⟩⟩
  · intro r c st hr j hj hl
    obtain ⟨hji, he⟩ := hstay j hl
    rw [he] at hl ⊢
    rcases List.mem_cons.mp hr with heq | hr
    · cases heq
      exact fun hh => hji (hp.distinct j i hj hi hl hlive hh)
    · exact h.gone r c st hr j hj hl
  · intro e he
    rcases List.mem_cons.mp he with rfl | he
    · exact (hp.user i hi hlive).2
    · exact h.below e he
  · intro c r r' hr hr'
    rw [hcr] at hr hr'
    exact h.creator c r r' hr hr'
  · intro c x y hx hy
    rw [hex] at hx hy
    exact h.code c x y hx hy
  · rw [List.filterMap_cons_some (f := Event.reapedPid) (b := (t i).pid) rfl, List.nodup_cons]
    refine ⟨?_, h.once⟩
    rw [List.mem_filterMap]
    rintro ⟨e, he, hpid⟩
    cases e with
    | created _ _ => cases hpid
    | exited _ _ => cases hpid
    | reaped r c st =>
      obtain rfl := Option.some.inj hpid
      exact h.not_reaped hi hlive r st he

end History

lemma History.current_alive {log : List Event} (h : History log s.table b) (hi : Inv k s) (code : ℤ) :
    .exited (procCurrent s).pid code ∉ log := by
  have hrun : (s.table s.currentIdx).state = .running := hi.current_live
  by_cases h₀ : s.currentIdx = 0
  · rw [procCurrent, h₀, hi.slots.kernelPid]
    exact h.kernel code
  · exact h.alive _ h₀ hi.live_current (by simp [hrun]) code

lemma History.step {log : List Event} (h : History log s.table s.nextPid) (hi : Inv k s)
    (hm : Numbered n s) {op : Op} (hop : op.Unix) (hn : ((n + op.creates s : ℕ) : ℤ) < 2 ^ 31 - 1) :
    History (op.events k s ++ log) (op.apply k s).table (op.apply k s).nextPid := by
  have hinc : op.creates s = 1 → incInt s.nextPid = s.nextPid + 1 := by
    intro hc
    rw [hc] at hn
    push_cast at hn
    apply incInt_eq <;> rw [hm.next] <;> omega
  have hrun : (s.table s.currentIdx).state = .running := hi.current_live
  cases op with
  | alloc name =>
    rcases procAlloc_cases s name with ⟨ha, hnone⟩ | ⟨i, h₀, hu, hsome, ha⟩
    · simpa [Op.apply, Op.events, ha, hnone] using h
    · simp only [Op.apply, Op.events, ha, hsome, Option.isSome_some, if_true, List.cons_append,
        List.nil_append]
      rw [hinc (by simp [Op.creates, hsome])]
      exact h.create hu h₀ (h.current_alive hi) rfl rfl rfl
  | assign i => exact h.kin (Kin.update ⟨Iff.rfl, Iff.rfl, fun _ => ⟨rfl, rfl, rfl⟩⟩)
  | fork =>
    have hpos : s.nextPid ≠ -1 := by
      rw [hm.next]
      omega
    rcases procForkWith_cases (vmmCloneCow k) s with ⟨hf, _⟩ | ⟨i, h₀, hu, hsome, hf⟩
    · have hfork : procFork k s = (s, -1) := hf
      simpa [Op.apply, Op.events, hfork] using h
    · rcases hc : vmmCloneCow k s.mmu.vm (procCurrent s).dir with ⟨vm, dir⟩
      have hb := hinc (by simp [Op.creates, hsome])
      have hfork : procFork k s = _ := hf vm dir hc
      by_cases hd : dir = 0
      · rw [if_pos hd] at hfork
        simp only [Op.apply, Op.events, hfork, if_true, List.nil_append, hb]
        exact (h.kin (Kin.update (Proc.Kin.dead hu rfl))).mono (by omega)
      · rw [if_neg hd] at hfork
        simp only [Op.apply, Op.events, hfork, if_neg hpos, List.cons_append, List.nil_append, hb]
        exact h.create hu h₀ (h.current_alive hi) rfl rfl rfl
  | exit code =>
    simp only [Op.apply, Op.events]
    by_cases hpid : (procCurrent s).pid = 0
    · rw [if_pos hpid, procExit_kernel hpid]
      exact h
    · rw [if_neg hpid, show (procExit k s code).nextPid = s.nextPid by
        rw [procExit_eq k (hi.current_pid hpid) code hpid]]
      exact h.exit hm.pids (hi.current_pid hpid) hrun rfl (hi.exit_slot hpid code)
  | wait =>
    simp only [Op.apply, Op.events]
    rcases procWait_cases k s with ⟨hw, _⟩ | ⟨i, h₀, hz, _, hw⟩
    · rw [hw]
      exact h
    · have hne : (s.table i).pid ≠ 0 := (hm.pids.user i h₀ (by simp [Proc.Live, hz])).1.ne'
      rw [hw]
      simp only [List.cons_append, List.nil_append, procFree_nextPid, procFree_table, if_neg hne]
      exact h.reap hm.pids h₀ hz _
  | switch pid =>
    simp only [Op.apply, Op.events, List.nil_append, procSwitchTo_nextPid]
    exact h.kin (hi.kin_switch pid)
  | beginUser name => exact hop.elim
  | endUser pid => exact hop.elim
  | map dir virt flags => exact h
  | unmap dir virt => exact h
  | promise dir start stop flags => exact h
  | unpromise => exact h
  | load va user => exact h
  | store va b user => exact h

variable {log : List Event}

lemma Trace.run (h : Trace k s₀ n log s) : Run k Op.Enabled s₀ n s := by
  induction h with
  | boot => exact .boot
  | step op _ hop _ ih => exact .step op ih hop

lemma boot_history {first second memBytes : Word} {m : PhysMem} :
    History [] (bootWith k first second memBytes m).table
      (bootWith k first second memBytes m).nextPid := by
  have hdead : ∀ i, i ≠ 0 → ((bootWith k first second memBytes m).table i).state = .unused := by
    intro i hi
    simp only [bootWith, procInstall, Function.update_of_ne hi]
    rfl
  refine ⟨fun i hi hl => (hl (hdead i hi)).elim, ?_, fun i hi hl => (hl (hdead i hi)).elim, by simp,
    ?_, by simp, by simp, by simp, by simp, List.nodup_nil⟩
  · intro i hi hz
    rw [hdead i hi] at hz
    cases hz
  · rintro c ⟨⟨code, hc⟩, _⟩
    cases hc

lemma Trace.history (h : Trace k s₀ n log s) (h₀ : Inv k s₀) (hz : Numbered 0 s₀)
    (hb : History [] s₀.table s₀.nextPid) (hn : (n : ℤ) < 2 ^ 31 - 1) :
    History log s.table s.nextPid := by
  induction h with
  | boot => exact hb
  | step op hr hop hu ih =>
    have hlt := hn
    push_cast at hlt
    exact (ih (by omega)).step (hr.run.inv h₀) (hr.run.numbered h₀ hz (by omega)) hu hn

lemma History.responsible (h : History log t b) (hi : i ≠ 0) (hl : (t i).Live) :
    Responsible log (t i).ppid (t i).pid := by
  obtain ⟨q, hq, ⟨hp, _⟩ | ⟨hp, hx⟩⟩ := h.parent i hi hl
  · exact Or.inl (hp ▸ hq)
  · exact Or.inr ⟨hp, q, hq, hx⟩

lemma History.ppid_eq (h : History log t b) (hi : i ≠ 0) (hl : (t i).Live) {q : ℤ}
    (hq : ∀ code, .exited q code ∉ log) (hr : Responsible log q (t i).pid) : (t i).ppid = q := by
  obtain ⟨r, hcr, hcase⟩ := h.parent i hi hl
  rcases hr with hc | ⟨rfl, r', hc, code, hx⟩
  · obtain rfl := h.creator _ _ _ hcr hc
    rcases hcase with ⟨hp, _⟩ | ⟨_, code, hx⟩
    · exact hp
    · exact (hq code hx).elim
  · obtain rfl := h.creator _ _ _ hcr hc
    rcases hcase with ⟨_, hne⟩ | ⟨hp, _⟩
    · exact (hne code hx).elim
    · exact hp

lemma Inv.procGet_freed (hi : Inv k s) (hp : Pids s.table b) (h₀ : i ≠ 0) (hl : (s.table i).Live) :
    procGet (procFree k s i) (s.table i).pid = none := by
  have hpos := (hp.user i h₀ hl).1
  cases hg : procGet (procFree k s i) (s.table i).pid with
  | none => rfl
  | some j =>
    obtain ⟨hj, hpid⟩ := procGet_some hg
    rw [procFree_table, if_neg hpos.ne'] at hj hpid
    have hji : j ≠ i := by
      rintro rfl
      rw [Function.update_self] at hj
      exact (hj rfl).elim
    rw [Function.update_of_ne hji] at hj hpid
    by_cases hj₀ : j = 0
    · rw [hj₀, hi.slots.kernelPid] at hpid
      omega
    · exact (hji (hp.distinct j i hj₀ h₀ hj hl hpid)).elim

/-- A successful wait returns, once, a process that has exited and that the caller answers for,
with the code it passed; a wait fails exactly when there is none. -/
theorem exit_wait_agreement {first second : Word} {m : PhysMem}
    (h : Trace k (boot k first second m) n log s) (hn : (n : ℤ) < 2 ^ 31 - 1) :
    (log.filterMap Event.reapedPid).Nodup ∧
    (∀ c status, (procWait k s).2 = (c, some status) →
      .exited c status ∈ log ∧ (∀ code, .exited c code ∈ log → code = status) ∧ Waiting log c ∧
      Responsible log (procCurrent s).pid c ∧ procGet (procWait k s).1 c = none) ∧
    ((procWait k s).2.1 = -1 ↔ ¬ ∃ c, Waiting log c ∧ Responsible log (procCurrent s).pid c) := by
  have hi := h.run.inv boot_inv
  have hm := h.run.numbered boot_inv boot_numbered hn
  have hh := h.history boot_inv boot_numbered boot_history hn
  refine ⟨hh.once, ?_⟩
  rcases procWait_cases k s with ⟨hw, hnone⟩ | ⟨i, h₀, hz, hpp, hw⟩
  · rw [hw]
    refine ⟨fun c status hc => by simp at hc, iff_of_true rfl ?_⟩
    rintro ⟨c, hwait, hresp⟩
    obtain ⟨i, h₀, hz, rfl⟩ := hh.settled c hwait
    exact hnone i h₀ hz (hh.ppid_eq h₀ (by simp [Proc.Live, hz]) (hh.current_alive hi) hresp)
  · have hl : (s.table i).Live := by simp [Proc.Live, hz]
    have hdead := hh.dead i h₀ hz
    have hwait : Waiting log (s.table i).pid := ⟨⟨_, hdead⟩, hh.not_reaped h₀ hl⟩
    have hresp : Responsible log (procCurrent s).pid (s.table i).pid := hpp ▸ hh.responsible h₀ hl
    rw [hw]
    refine ⟨?_, iff_of_false ?_ (fun hno => hno ⟨_, hwait, hresp⟩)⟩
    · rintro c status hc
      obtain ⟨rfl, hst⟩ := Prod.mk.inj hc
      obtain rfl := Option.some.inj hst
      exact ⟨hdead, fun code hx => hh.code _ _ _ hx hdead, hwait, hresp, hi.procGet_freed hm.pids h₀ hl⟩
    · have hpos := (hm.pids.user i h₀ hl).1
      change (s.table i).pid ≠ -1
      omega

def sampleExit : Sys :=
  Op.apply sampleDir (.switch 1) (Op.apply sampleDir (.exit 7) (Op.apply sampleDir (.switch 2) sampleFork))

theorem exit_wait_agreement_fork : ∃ (n : ℕ) (log : List Event), Trace sampleDir sampleBoot n log sampleExit ∧
    (procWait sampleDir sampleExit).2 = (2, some 7) ∧ .exited 2 7 ∈ log := by
  have htrace : ∃ (n : ℕ) (log : List Event), n ≤ 2 ∧ Trace sampleDir sampleBoot n log sampleExit := by
    refine ⟨_, _, ?_, .step (.switch 1) (.step (.exit 7) (.step (.switch 2) (.step .fork (.step (.switch 1)
      (.step (.assign 1) (.step (.alloc none) .boot trivial trivial) ⟨by decide, by decide⟩ trivial)
      trivial trivial) trivial trivial) trivial trivial) trivial trivial) trivial trivial⟩
    simp only [Op.creates]
    split <;> split <;> omega
  obtain ⟨n, log, hn, h⟩ := htrace
  have hw : (procWait sampleDir sampleExit).2 = (2, some 7) := by decide +kernel
  exact ⟨n, log, h, hw, ((exit_wait_agreement h (by omega)).2.1 2 7 hw).1⟩

end PyroOS
