import PyroOS.Memory.Observe
import PyroOS.Memory.Room
import PyroOS.Process.Reachable

/-! Copy-on-write fork against the reference in which every fork copies eagerly. -/

namespace PyroOS

open Sharing

inductive ForkOp where
  | alloc (name : Option (List Byte))
  | assign (i : Slot)
  | map (i : Slot) (virt flags : Word)
  | fork
  | exit (code : ℤ)
  | wait
  | switch (pid : ℤ)
  | load (va : Word) (user : Bool)
  | store (va : Word) (b : Byte) (user : Bool)

def ForkOp.op (s : Sys) : ForkOp → Op
  | .alloc name => .alloc name
  | .assign i => .assign i
  | .map i virt flags => .map (s.table i).dir virt flags
  | .fork => .fork
  | .exit code => .exit code
  | .wait => .wait
  | .switch pid => .switch pid
  | .load va user => .load va user
  | .store va b user => .store va b user

section

variable (k : BootDir)

def ForkOp.Enabled : ForkOp → Sys → Prop
  | .assign i, s => (s.table i).state = .ready ∧ (s.table i).dir = 0 ∧ (vmmCreateDir k s.mmu.vm).2 ≠ 0
  | .map i virt flags, s => (s.table i).Live ∧ (s.table i).dir ≠ 0 ∧ privateBase ≤ virt ∧
    pteAt s.mmu.vm.mem (s.table i).dir (dirIndex virt) (tabIndex virt) = none ∧
    (vmmMapAlloc s.mmu.vm (s.table i).dir virt flags).2 = 0
  | .load va _, _ => privateBase ≤ va
  | .store va _ _, _ => privateBase ≤ va
  | _, _ => True

/-- The same operation in the reference `r`. A fork that succeeds in `s` copies every page; one that
fails in `s` does nothing, but that the pid it used up is not given out again. A store counts if it
took place in `s`. -/
def ForkOp.mirror (s r : Sys) : ForkOp → Sys
  | .fork =>
    if (vmmCloneCow k s.mmu.vm (procCurrent s).dir).2 = 0 then
      { r with nextPid := (procFork k s).1.nextPid }
    else (procForkWith (vmmCloneDir k) r).1
  | .store va b user =>
    if (storeByte s.mmu va b user).2 then { r with mmu := (storeByte r.mmu va b user).1 } else r
  | op => (op.op r).apply k r

inductive Paired (s₀ r₀ : Sys) : Sys → Sys → Prop
  | boot : Paired s₀ r₀ s₀ r₀
  | step {s r : Sys} (op : ForkOp) : Paired s₀ r₀ s r → op.Enabled k s →
    Paired s₀ r₀ ((op.op s).apply k s) (op.mirror k s r)

end

variable {k : BootDir} {s r s' r' : Sys} {m m' m₁ m₁' : PhysMem} {p q : Proc} {i : Slot}
  {t t' : Slot → Proc}

def Proc.body (p : Proc) : Proc := { p with dir := 0 }

structure Twin (k : BootDir) (m m' : PhysMem) (p q : Proc) : Prop where
  state : q.state = p.state
  body : p.Live → q.body = p.body
  null : p.Live → (q.dir = 0 ↔ p.dir = 0)
  kernel : p.Live → (q.dir = k.dir ↔ p.dir = k.dir)
  same : p.Live → p.dir ≠ 0 → SameSpace m p.dir m' q.dir

namespace Twin

lemma live (h : Twin k m m' p q) : q.Live ↔ p.Live := by rw [Proc.Live, Proc.Live, h.state]

lemma field {α : Type} (h : Twin k m m' p q) (hl : p.Live) (f : Proc → α)
    (hf : ∀ p : Proc, f p.body = f p) : f q = f p := by rw [← hf q, ← hf p, h.body hl]

lemma pid (h : Twin k m m' p q) (hl : p.Live) : q.pid = p.pid := h.field hl Proc.pid fun _ => rfl
lemma ppid (h : Twin k m m' p q) (hl : p.Live) : q.ppid = p.ppid := h.field hl Proc.ppid fun _ => rfl

lemma reshow (h : Twin k m m' p q)
    (hs : p.Live → p.dir ≠ 0 → q.dir ≠ 0 → SameSpace m₁ p.dir m₁' q.dir) : Twin k m₁ m₁' p q :=
  ⟨h.state, h.body, h.null, h.kernel, fun hl hd => hs hl hd fun hz => hd ((h.null hl).mp hz)⟩

lemma move (h : Twin k m m' p q) (h₁ : p.Live → p.dir ≠ 0 → SameSpace m p.dir m₁ p.dir)
    (h₂ : q.Live → q.dir ≠ 0 → SameSpace m' q.dir m₁' q.dir) : Twin k m₁ m₁' p q :=
  h.reshow fun hl hd hd' => (h₁ hl hd).symm.trans ((h.same hl hd).trans (h₂ (h.live.mpr hl) hd'))

lemma unused (hp : p.state = .unused) (hq : q.state = .unused) : Twin k m m' p q := by
  have hno : ¬ p.Live := fun hl => hl hp
  exact ⟨hq.trans hp.symm, fun hl => (hno hl).elim, fun hl => (hno hl).elim, fun hl => (hno hl).elim,
    fun hl => (hno hl).elim⟩

lemma blank (hp : p.dir = 0) : Twin k m m' p p :=
  ⟨rfl, fun _ => rfl, fun _ => Iff.rfl, fun _ => Iff.rfl, fun _ hd => (hd hp).elim⟩

lemma owner (hs : q.state = p.state) (hb : q.body = p.body) (hp : p.dir ≠ 0 ∧ p.dir ≠ k.dir)
    (hq : q.dir ≠ 0 ∧ q.dir ≠ k.dir) (h : SameSpace m p.dir m' q.dir) : Twin k m m' p q :=
  ⟨hs, fun _ => hb, fun _ => iff_of_false hq.1 hp.1, fun _ => iff_of_false hq.2 hp.2, fun _ _ => h⟩

lemma withState (h : Twin k m m' p q) (hl : p.Live) (st : ProcState) :
    Twin k m m' (p.withState st) (q.withState st) := by
  refine ⟨rfl, fun _ => ?_, fun _ => h.null hl, fun _ => h.kernel hl, fun _ => h.same hl⟩
  exact congrArg (fun p => Proc.withState p st) (h.body hl)

end Twin

lemma twins_update (h : ∀ j, j ≠ i → Twin k m m' (t j) (t' j)) (hi : Twin k m m' p q) (j : Slot) :
    Twin k m m' (Function.update t i p j) (Function.update t' i q j) := by
  by_cases hj : j = i
  · subst hj
    rwa [Function.update_self, Function.update_self]
  · rw [Function.update_of_ne hj, Function.update_of_ne hj]
    exact h j hj

structure Related (k : BootDir) (s r : Sys) : Prop where
  left : Inv k s
  right : Inv k r
  calm : s.mmu.Unpromised
  calm' : r.mmu.Unpromised
  next : r.nextPid = s.nextPid
  current : r.currentIdx = s.currentIdx
  twin : ∀ i, Twin k s.mmu.vm.mem r.mmu.vm.mem (s.table i) (r.table i)
  room : 17 * s.mmu.vm.pmm.totalFrames + 18 ≤ r.mmu.vm.pmm.totalFrames

lemma Inv.current_alive (h : Inv k s) : (procCurrent s).Live := by
  simp [Proc.Live, h.current_live]

namespace Related

lemma current_twin (h : Related k s r) :
    Twin k s.mmu.vm.mem r.mmu.vm.mem (procCurrent s) (procCurrent r) := by
  have ht := h.twin s.currentIdx
  rwa [procCurrent, procCurrent, h.current]

lemma dir_eq_iff (h : Related k s r) {i j : Slot} (hi : (s.table i).Live) (hj : (s.table j).Live)
    (hz : (s.table i).dir ≠ 0) :
    (r.table j).dir = (r.table i).dir ↔ (s.table j).dir = (s.table i).dir := by
  have hzr : (r.table i).dir ≠ 0 := fun hh => hz (((h.twin i).null hi).mp hh)
  by_cases hk : (s.table i).dir = k.dir
  · rw [hk, ((h.twin i).kernel hi).mpr hk]
    exact (h.twin j).kernel hj
  · have hkr : (r.table i).dir ≠ k.dir := fun hh => hk (((h.twin i).kernel hi).mp hh)
    constructor
    · intro he
      rw [h.right.owns.unique h.right.dirs_nodup
        (holds_eq_some.mpr ⟨(h.twin i).live.mpr hi, hzr, hkr, rfl⟩)
        (holds_eq_some.mpr ⟨(h.twin j).live.mpr hj, hzr, hkr, he⟩)]
    · intro he
      rw [h.left.owns.unique h.left.dirs_nodup (holds_eq_some.mpr ⟨hi, hz, hk, rfl⟩)
        (holds_eq_some.mpr ⟨hj, hz, hk, he⟩)]

/-! ### Frames of the reference -/

lemma held_le (h : Related k s r) {d : Word} (hd : d ∈ spaces k r.mmu.vm.dirs) :
    held r.mmu.vm.mem d ≤ s.mmu.vm.pmm.totalFrames := by
  have hslot : ∀ i, (r.table i).Live → (r.table i).dir = d → d ≠ 0 →
      held r.mmu.vm.mem d ≤ s.mmu.vm.pmm.totalFrames := by
    rintro i hl rfl hz
    have hl' : (s.table i).Live := (h.twin i).live.mp hl
    have hz' : (s.table i).dir ≠ 0 := fun hh => hz (((h.twin i).null hl').mpr hh)
    rw [← ((h.twin i).same hl' hz').held_eq]
    exact h.left.sound.held_le (h.left.live_space ⟨hz', i, hl', rfl⟩)
  rcases List.mem_cons.mp hd with rfl | hd
  · exact hslot 0 h.right.slots.live_zero h.right.slots.kernelDir k.ne_zero
  · obtain ⟨i, hi⟩ := h.right.owns.mem_iff.mp hd
    obtain ⟨hl, hz, _, he⟩ := holds_eq_some.mp hi
    exact hslot i hl he hz

lemma usage_le (h : Related k s r) : usage k r.mmu.vm ≤ 16 * s.mmu.vm.pmm.totalFrames + 15 := by
  have hlen := h.right.length_le
  rw [usage, card_refs]
  have hsum := List.sum_le_card_nsmul ((spaces k r.mmu.vm.dirs).map (held r.mmu.vm.mem))
    s.mmu.vm.pmm.totalFrames (fun x hx => by
      obtain ⟨d, hd, rfl⟩ := List.mem_map.mp hx
      exact h.held_le hd)
  rw [List.length_map, spaces, List.length_cons, smul_eq_mul] at hsum
  have hmul : (r.mmu.vm.dirs.length + 1) * s.mmu.vm.pmm.totalFrames ≤ 16 * s.mmu.vm.pmm.totalFrames :=
    Nat.mul_le_mul_right _ (by omega)
  rw [spaces]
  omega

/-! ### Process calls -/

lemma alloc_eq (h : Related k s r) : (procAlloc r none).2 = (procAlloc s none).2 := by
  have hp : (fun i => decide ((r.table i).state = .unused)) =
      fun i => decide ((s.table i).state = .unused) := by
    funext i
    rw [(h.twin i).state]
  simp only [procAlloc, hp]
  split <;> rfl

lemma newProc_eq (h : Related k s r) (name : Option (List Byte)) : newProc r name = newProc s name := by
  rw [newProc, newProc, h.next, h.current_twin.pid h.left.current_alive]

lemma alloc (h : Related k s r) (name : Option (List Byte)) :
    Related k (procAlloc s name).1 (procAlloc r name).1 := by
  have hl := h.left.step (.alloc name) trivial
  have hr := h.right.step (.alloc name) trivial
  simp only [Op.apply] at hl hr
  have he := h.alloc_eq
  rcases procAlloc_cases s name with ⟨ha, hn⟩ | ⟨i, _, _, hn, ha⟩ <;>
    rcases procAlloc_cases r name with ⟨ha', hn'⟩ | ⟨i', _, _, hn', ha'⟩ <;>
    rw [hn, hn'] at he
  · rw [ha, ha']
    exact h
  · cases he
  · cases he
  · obtain rfl := Option.some.inj he
    rw [ha] at hl ⊢
    rw [ha'] at hr ⊢
    refine ⟨hl, hr, h.calm, h.calm', congrArg incInt h.next, h.current, ?_, h.room⟩
    refine twins_update (fun j _ => h.twin j) ?_
    rw [h.newProc_eq]
    exact .blank rfl

lemma get_eq (h : Related k s r) (pid : ℤ) : procGet r pid = procGet s pid := by
  rw [procGet, procGet]
  congr 1
  funext i
  rw [(h.twin i).state]
  by_cases hl : (s.table i).Live
  · rw [(h.twin i).pid hl]
  · rw [Proc.Live, not_not] at hl
    simp [hl]

lemma switch (h : Related k s r) (pid : ℤ) :
    Related k (procSwitchTo s pid).1 (procSwitchTo r pid).1 := by
  have hl := h.left.switch pid
  have hr := h.right.switch pid
  rw [procSwitchTo_eq h.left.current_live] at hl ⊢
  rw [procSwitchTo_eq h.right.current_live, h.get_eq] at hr ⊢
  cases hg : procGet s pid with
  | none => exact h
  | some i =>
    have hlive := (procGet_some hg).1
    have hbad : ((r.table i).state = .zombie ∨ (r.table i).dir = 0) =
        ((s.table i).state = .zombie ∨ (s.table i).dir = 0) := by
      rw [(h.twin i).state, (h.twin i).null hlive]
    simp only [hg, hbad] at hl hr ⊢
    split at hl
    · rename_i hb
      simp only [if_pos hb]
      exact h
    · rename_i hb
      simp only [if_neg hb] at hr ⊢
      refine ⟨hl, hr, h.calm, h.calm', h.next, rfl, ?_, h.room⟩
      simp only [switched, h.current]
      refine twins_update (fun j _ => ?_) ((h.twin i).withState hlive _)
      exact twins_update (fun j _ => h.twin j) (h.current_twin.withState h.left.current_alive _) j

lemma wait (h : Related k s r) : Related k (procWait k s).1 (procWait k r).1 := by
  have hl := h.left.wait
  have hr := h.right.wait
  have hp : (fun i => decide ((r.table i).state = .zombie) &&
        decide ((r.table i).ppid = (procCurrent r).pid)) =
      fun i => decide ((s.table i).state = .zombie) &&
        decide ((s.table i).ppid = (procCurrent s).pid) := by
    funext i
    rw [(h.twin i).state, h.current_twin.pid h.left.current_alive]
    by_cases hz : (s.table i).state = .zombie
    · rw [(h.twin i).ppid (by simp [Proc.Live, hz])]
    · simp [hz]
  simp only [procWait, hp] at hl hr ⊢
  cases hf : userSlots.find? fun i => decide ((s.table i).state = .zombie) &&
      decide ((s.table i).ppid = (procCurrent s).pid) with
  | none => exact h
  | some i =>
    have hz := List.find?_some hf
    simp only [Bool.and_eq_true, decide_eq_true_eq] at hz
    have hlive : (s.table i).Live := by simp [Proc.Live, hz.1]
    -- A zombie has given its directory back, so only the slot is released.
    have hd : ¬ ((s.table i).dir ≠ 0 ∧ (s.table i).dir ≠ k.dir) := by
      have := h.left.slots.zombie i hz.1
      tauto
    have hd' : ¬ ((r.table i).dir ≠ 0 ∧ (r.table i).dir ≠ k.dir) := by
      rw [ne_eq, ne_eq, (h.twin i).null hlive, (h.twin i).kernel hlive]
      exact hd
    simp only [hf, procFree, if_neg hd, if_neg hd', (h.twin i).pid hlive] at hl hr ⊢
    split at hl
    · rename_i hpid
      simp only [if_pos hpid]
      exact h
    · rename_i hpid
      simp only [if_neg hpid] at hr ⊢
      exact ⟨hl, hr, h.calm, h.calm', h.next, h.current,
        twins_update (fun j _ => h.twin j) (.unused rfl rfl), h.room⟩

end Related

lemma Created.same {vm vm' vr vr' : Vm} {a b : Word} (h : Created k vm vm' a) (h' : Created k vr vr' b) :
    SameSpace vm'.mem a vr'.mem b := by
  intro di h₁ _
  have hp : isPresent (vm'.mem a di) = false := by
    rw [h.empty di h₁]
    rfl
  have hp' : isPresent (vr'.mem b di) = false := by
    rw [h'.empty di h₁]
    rfl
  refine ⟨by rw [tableView, tableView, hp, hp']; rfl, fun ti _ => ?_⟩
  rw [pageView_none (pteAt_of_absent hp), pageView_none (pteAt_of_absent hp')]

def released (k : BootDir) (vm : Vm) (d : Word) : Vm :=
  if d ≠ 0 ∧ d ≠ k.dir then vmmDestroyDir k vm d else vm

lemma Inv.released_same (h : Inv k s) {j : Slot} (hi : (s.table i).Live) (hj : (s.table j).Live)
    (hz : (s.table j).dir ≠ 0) (hne : j ≠ i ∨ (s.table j).dir = k.dir) :
    SameSpace s.mmu.vm.mem (s.table j).dir
      (released k s.mmu.vm (s.table i).dir).mem (s.table j).dir := by
  rw [released]
  split
  · rename_i hd
    have hheld : holds k (s.table i) = some (s.table i).dir :=
      holds_eq_some.mpr ⟨hi, hd.1, hd.2, rfl⟩
    apply h.sound.destroy_same (h.owns.mem_iff.mpr ⟨i, hheld⟩)
    by_cases hk : (s.table j).dir = k.dir
    · rw [hk]
      exact List.mem_cons_self
    · have hheld' : holds k (s.table j) = some (s.table j).dir :=
        holds_eq_some.mpr ⟨hj, hz, hk, rfl⟩
      have hji : j ≠ i := hne.resolve_right hk
      apply List.mem_cons_of_mem
      rw [List.mem_erase_of_ne]
      · exact h.owns.mem_iff.mpr ⟨j, hheld'⟩
      · intro he
        rw [he] at hheld'
        exact hji (h.owns.unique h.dirs_nodup hheld' hheld)
  · exact SameSpace.refl _ _

lemma Inv.released_total (h : Inv k s) (hi : (s.table i).Live) :
    (released k s.mmu.vm (s.table i).dir).pmm.totalFrames = s.mmu.vm.pmm.totalFrames := by
  rw [released]
  split
  · rename_i hd
    exact (h.sound.destroy (h.owns.mem_iff.mpr ⟨i, holds_eq_some.mpr ⟨hi, hd.1, hd.2, rfl⟩⟩)).total
  · rfl

lemma Twin.reparent (h : ∀ j, Twin k m m' (t j) (t' j)) (pid : ℤ) (j : Slot) :
    Twin k m m' (reparent pid t j) (reparent pid t' j) := by
  have hc : (j ≠ 0 ∧ (t' j).state ≠ .unused ∧ (t' j).ppid = pid) =
      (j ≠ 0 ∧ (t j).state ≠ .unused ∧ (t j).ppid = pid) := by
    rw [(h j).state]
    by_cases hl : (t j).Live
    · rw [(h j).ppid hl]
    · rw [Proc.Live, not_not] at hl
      simp [hl]
  simp only [PyroOS.reparent, hc]
  split
  · rename_i hh
    refine ⟨(h j).state, fun _ => ?_, (h j).null, (h j).kernel, (h j).same⟩
    exact congrArg (fun p : Proc => { p with ppid := 0 }) ((h j).body hh.2.1)
  · exact h j

lemma Twin.zombie (h : Twin k m m' p q) (hl : p.Live) (hk : SameSpace m₁ k.dir m₁' k.dir) (code : ℤ) :
    Twin k m₁ m₁' (zombieProc k p code) (zombieProc k q code) := by
  have hd : (zombieProc k q code).dir = (zombieProc k p code).dir := by
    simp only [zombieProc, h.kernel hl]
  refine ⟨rfl, fun _ => ?_, fun _ => by rw [hd], fun _ => by rw [hd], fun _ hne => ?_⟩
  · exact congrArg (fun p : Proc => { p with exitCode := code, state := .zombie }) (h.body hl)
  · have hkd : (zombieProc k p code).dir = k.dir := by
      by_contra hno
      rw [zombieProc] at hne hno
      split at hne
      · rename_i hh
        exact hno (if_pos hh)
      · exact hne rfl
    rwa [hd, hkd]

namespace Related

lemma exit (h : Related k s r) (code : ℤ) : Related k (procExit k s code) (procExit k r code) := by
  have hl := h.left.exit code
  have hr := h.right.exit code
  have hcur := h.left.current_alive
  have hpe := h.current_twin.pid hcur
  by_cases hpid : (procCurrent s).pid = 0
  · have hpid' : (procCurrent r).pid = 0 := hpe.trans hpid
    simp only [procExit, if_pos hpid, if_pos hpid']
    exact h
  have hi := h.left.current_pid hpid
  have hi' : r.currentIdx ≠ 0 := h.current ▸ hi
  rw [procExit_eq k hi code hpid] at hl ⊢
  rw [procExit_eq k hi' code (hpe ▸ hpid)] at hr ⊢
  have hrl : (procCurrent r).Live := h.right.current_alive
  refine ⟨hl, hr, h.calm, h.calm', h.next, rfl, ?_, ?_⟩
  · rw [hpe, h.current]
    apply Twin.reparent
    have hmove : ∀ j, j ≠ s.currentIdx ∨ (s.table j).dir = k.dir → Twin k
        (released k s.mmu.vm (procCurrent s).dir).mem (released k r.mmu.vm (procCurrent r).dir).mem
        (s.table j) (r.table j) := by
      intro j hj
      refine (h.twin j).move (fun hjl hz => h.left.released_same hcur hjl hz hj) ?_
      intro hjl hz
      refine h.right.released_same hrl hjl hz ?_
      rw [h.current, (h.twin j).kernel ((h.twin j).live.mp hjl)]
      exact hj
    have hkernel := (hmove 0 (Or.inl (Ne.symm hi))).same h.left.slots.live_zero
      (by rw [h.left.slots.kernelDir]; exact k.ne_zero)
    rw [h.left.slots.kernelDir, h.right.slots.kernelDir] at hkernel
    refine twins_update (i := 0) (fun j _ => ?_) ?_
    · exact twins_update (fun j hj => hmove j (Or.inl hj)) (h.current_twin.zombie hcur hkernel code) j
    · exact (hmove 0 (Or.inl (Ne.symm hi))).withState h.left.slots.live_zero .running
  · have hroom := h.room
    rw [← h.left.released_total hcur, ← h.right.released_total hrl] at hroom
    exact hroom

lemma invisible (h : Related k s r) {vm : Vm} (hv : Invisible k s.mmu.vm vm) :
    Related k (s.withVm vm) r := by
  refine ⟨h.left.withVm hv.sound hv.dirs, h.right, h.calm, h.calm', h.next, h.current, fun i => ?_, ?_⟩
  · refine (h.twin i).move (fun hl hd => ?_) (fun _ _ => SameSpace.refl _ _)
    exact hv.same _ (h.left.live_space ⟨hd, i, hl, rfl⟩)
  · rw [show (s.withVm vm).mmu.vm.pmm.totalFrames = _ from hv.total]
    exact h.room

lemma fork_failed (h : Related k s r) (hc : (vmmCloneCow k s.mmu.vm (procCurrent s).dir).2 = 0) :
    Related k (procFork k s).1 { r with nextPid := (procFork k s).1.nextPid } := by
  have hl := h.left.forkWith (cloneSpec_cow k)
  have hr : ∀ n, Inv k { r with nextPid := n } := fun _ =>
    ⟨h.right.sound, h.right.owns, h.right.slots, h.right.runs⟩
  rcases h.left.sound.cloneCow h.left.current_space h.left.length_le with
    ⟨_, _, hcl, hz, _⟩ | ⟨vm, hcl, hinv⟩
  · rw [hcl] at hc
    exact (hz hc).elim
  rcases procForkWith_cases (vmmCloneCow k) s with ⟨hf, _⟩ | ⟨i, _, hu, _, hf⟩
  · rw [procFork, hf]
    exact ⟨h.left, hr _, h.calm, h.calm', rfl, h.current, h.twin, h.room⟩
  · have hfork := hf vm 0 hcl
    rw [if_pos rfl] at hfork
    rw [hfork] at hl
    have hs := h.invisible hinv
    rw [procFork, hfork]
    refine ⟨hl, hr _, h.calm, h.calm', rfl, h.current, fun j => ?_, hs.room⟩
    by_cases hj : j = i
    · subst hj
      refine .unused ?_ ((h.twin j).state.trans hu)
      simp only [set_table, Function.update_self, stillborn]
    · simp only [set_table, Function.update_of_ne hj]
      exact hs.twin j

lemma fork_cloned (h : Related k s r) (hc : (vmmCloneCow k s.mmu.vm (procCurrent s).dir).2 ≠ 0) :
    Related k (procFork k s).1 (procForkWith (vmmCloneDir k) r).1 := by
  have hl := h.left.forkWith (cloneSpec_cow k)
  have hr := h.right.forkWith (cloneSpec_dir k)
  have hcur := h.left.current_alive
  rcases h.left.sound.cloneCow h.left.current_space h.left.length_le with
    ⟨vm, dst, hcl, hz, hd⟩ | ⟨_, hcl, _⟩
  · obtain ⟨vm', dst', hcl', hz', hd'⟩ := h.right.sound.cloneDir_ok h.right.current_space (by
      have h₁ := h.usage_le
      have h₂ := h.held_le h.right.current_space
      have h₃ := h.room
      omega)
    have he := h.alloc_eq
    rcases procForkWith_cases (vmmCloneCow k) s with ⟨hf, hn⟩ | ⟨i, _, _, hn, hf⟩ <;>
      rcases procForkWith_cases (vmmCloneDir k) r with ⟨hf', hn'⟩ | ⟨i', _, _, hn', hf'⟩ <;>
      rw [hn, hn'] at he
    · rw [procFork, hf, hf']
      exact h
    · cases he
    · cases he
    · obtain rfl := Option.some.inj he
      have hfork := hf vm dst hcl
      have hfork' := hf' vm' dst' hcl'
      rw [if_neg hz] at hfork
      rw [if_neg hz'] at hfork'
      rw [hfork] at hl
      rw [hfork'] at hr
      rw [procFork, hfork, hfork']
      have hroom := h.room
      rw [← hd.total, ← hd'.total] at hroom
      refine ⟨hl, hr, h.calm, h.calm', congrArg incInt h.next, h.current, ?_, hroom⟩
      refine twins_update (fun j _ => (h.twin j).move (fun hjl hjd => ?_) (fun hjl hjd => ?_)) ?_
      · exact hd.same _ (h.left.live_space ⟨hjd, j, hjl, rfl⟩)
      · exact hd'.same _ (h.right.live_space ⟨hjd, j, hjl, rfl⟩)
      · refine .owner rfl ?_ ⟨hz, hd.sound.head_private hd.dirs⟩ ⟨hz', hd'.sound.head_private hd'.dirs⟩ ?_
        · rw [childProc, childProc, h.current_twin.field hcur Proc.name fun _ => rfl, h.newProc_eq,
            h.current_twin.field hcur Proc.entry fun _ => rfl,
            h.current_twin.field hcur Proc.brk fun _ => rfl]
          rfl
        · exact hd.copy.symm.trans ((h.current_twin.same hcur h.left.runs.dir_ne).trans hd'.copy)
  · rw [hcl] at hc
    exact (hc rfl).elim

/-! ### Memory -/

lemma assign (h : Related k s r) (hst : (s.table i).state = .ready) (hz : (s.table i).dir = 0)
    (hok : (vmmCreateDir k s.mmu.vm).2 ≠ 0) : Related k (assignDir k s i) (assignDir k r i) := by
  have hlive : (s.table i).Live := by simp [Proc.Live, hst]
  have hl := h.left.assign hst hz
  have hr := h.right.assign ((h.twin i).state.trans hst) (((h.twin i).null hlive).mpr hz)
  rcases h.left.sound.create with ⟨hc, _⟩ | ⟨vm, a, hc, hcr⟩
  · rw [hc] at hok
    exact (hok rfl).elim
  obtain ⟨vm', a', hc', hcr'⟩ := h.right.sound.create_ok (by
    have h₁ := h.usage_le
    have h₂ := h.room
    omega)
  rw [assignDir, hc] at hl ⊢
  rw [assignDir, hc'] at hr ⊢
  have hroom := h.room
  rw [← hcr.total, ← hcr'.total] at hroom
  refine ⟨hl, hr, h.calm, h.calm', h.next, h.current, ?_, hroom⟩
  refine twins_update (fun j _ => (h.twin j).move (fun hjl hjd => ?_) (fun hjl hjd => ?_)) ?_
  · exact hcr.fresh.sameSpace hcr.keep (h.left.live_space ⟨hjd, j, hjl, rfl⟩)
  · exact hcr'.fresh.sameSpace hcr'.keep (h.right.live_space ⟨hjd, j, hjl, rfl⟩)
  · exact .owner (h.twin i).state ((h.twin i).body hlive) ⟨hcr.ne_zero, hcr.sound.head_private hcr.dirs⟩
      ⟨hcr'.ne_zero, hcr'.sound.head_private hcr'.dirs⟩ (hcr.same hcr')

lemma map (h : Related k s r) {virt flags : Word} (hlive : (s.table i).Live) (hz : (s.table i).dir ≠ 0)
    (hv : privateBase ≤ virt)
    (habs : pteAt s.mmu.vm.mem (s.table i).dir (dirIndex virt) (tabIndex virt) = none)
    (hok : (vmmMapAlloc s.mmu.vm (s.table i).dir virt flags).2 = 0) :
    Related k (s.withVm (vmmMapAlloc s.mmu.vm (s.table i).dir virt flags).1)
      (r.withVm (vmmMapAlloc r.mmu.vm (r.table i).dir virt flags).1) := by
  have hz' : (r.table i).dir ≠ 0 := fun hh => hz (((h.twin i).null hlive).mp hh)
  have hd := h.left.live_space ⟨hz, i, hlive, rfl⟩
  have hd' := h.right.live_space ⟨hz', i, (h.twin i).live.mpr hlive, rfl⟩
  have hsame := (h.twin i).same hlive hz _ (dirIndex_private hv) (dirIndex_lt virt)
  have habs' : pteAt r.mmu.vm.mem (r.table i).dir (dirIndex virt) (tabIndex virt) = none := by
    rw [← pageView_eq_none, ← hsame.2 _ (tabIndex_lt virt), pageView_eq_none]
    exact habs
  have hok' := h.right.sound.mapAlloc_ok flags hd' hv (by
    have h₁ := h.usage_le
    have h₂ := h.room
    omega)
  have hm := h.left.sound.mapAlloc hd hv habs (Prod.ext rfl hok)
  have hm' := h.right.sound.mapAlloc hd' hv habs' (Prod.ext rfl hok')
  have hroom := h.room
  rw [← hm.total, ← hm'.total] at hroom
  refine ⟨h.left.withVm hm.sound hm.dirs, h.right.withVm hm'.sound hm'.dirs, h.calm, h.calm', h.next,
    h.current, fun j => ?_, hroom⟩
  refine (h.twin j).reshow fun hjl hjd hjd' di h₁ h₂ => ?_
  have hj := h.left.live_space ⟨hjd, j, hjl, rfl⟩
  have hj' := h.right.live_space ⟨hjd', j, (h.twin j).live.mpr hjl, rfl⟩
  have hjs := (h.twin j).same hjl hjd di h₁ h₂
  have hiff := h.dir_eq_iff hlive hjl hz
  constructor
  · refine (hm.tables _ di (tab_mem_refs.mpr ⟨hj, h₁, h₂⟩)).trans (Eq.symm ?_)
    refine (hm'.tables _ di (tab_mem_refs.mpr ⟨hj', h₁, h₂⟩)).trans ?_
    simp only [hiff, hsame.1, hjs.1]
  · intro ti h₃
    refine (hm.pages _ di ti (page_mem_refs.mpr ⟨hj, h₁, h₂, h₃⟩)).trans (Eq.symm ?_)
    refine (hm'.pages _ di ti (page_mem_refs.mpr ⟨hj', h₁, h₂, h₃⟩)).trans ?_
    simp only [hiff, hsame.1, hjs.2 ti h₃]

lemma view_eq (h : Related k s r) {va : Word} (hv : privateBase ≤ va) : r.mmu.view va = s.mmu.view va := by
  have hs := h.current_twin.same h.left.current_alive h.left.runs.dir_ne _ (dirIndex_private hv)
    (dirIndex_lt va)
  rw [Mmu.view, Mmu.view, h.left.runs.loaded, h.right.runs.loaded]
  exact (hs.2 _ (tabIndex_lt va)).symm

lemma written (h : Related k s r) {vm vm' : Vm} {va : Word} {b : Byte}
    (hw : Written k s.mmu vm va b) (hw' : Written k r.mmu vm' va b) :
    Related k (s.withVm vm) (r.withVm vm') := by
  have hroom := h.room
  rw [← hw.total, ← hw'.total] at hroom
  refine ⟨h.left.withVm hw.sound hw.dirs, h.right.withVm hw'.sound hw'.dirs, h.calm, h.calm', h.next,
    h.current, fun j => (h.twin j).reshow fun hjl hjd hjd' di h₁ h₂ => ?_, hroom⟩
  have hj := h.left.live_space ⟨hjd, j, hjl, rfl⟩
  have hj' := h.right.live_space ⟨hjd', j, (h.twin j).live.mpr hjl, rfl⟩
  have hjs := (h.twin j).same hjl hjd di h₁ h₂
  have hiff : (r.table j).dir = r.mmu.cr3 ↔ (s.table j).dir = s.mmu.cr3 := by
    rw [h.left.runs.loaded, h.right.runs.loaded, h.current]
    exact h.dir_eq_iff h.left.current_alive hjl h.left.runs.dir_ne
  constructor
  · exact (hw.tables _ hj di h₁ h₂).trans (hjs.1.trans (hw'.tables _ hj' di h₁ h₂).symm)
  · intro ti h₃
    refine (hw.pages _ di ti (page_mem_refs.mpr ⟨hj, h₁, h₂, h₃⟩)).trans (Eq.symm ?_)
    refine (hw'.pages _ di ti (page_mem_refs.mpr ⟨hj', h₁, h₂, h₃⟩)).trans ?_
    simp only [hiff, hjs.2 ti h₃]

lemma store (h : Related k s r) {va : Word} (hv : privateBase ≤ va) (b : Byte) (user : Bool) :
    Related k ((ForkOp.store va b user).op s |>.apply k s) ((ForkOp.store va b user).mirror k s r) := by
  simp only [ForkOp.op, ForkOp.mirror, Op.apply]
  cases hp : viewPermits (s.mmu.view va) true user with
  | false =>
    obtain ⟨vm, hst, hinv⟩ := storeByte_forbidden h.left.ok h.calm hv b hp
    rw [hst]
    exact h.invisible hinv
  | true =>
    rcases storeByte_allowed h.left.ok hv b hp with ⟨hst, _⟩ | ⟨vm, hst, hw⟩
    · rw [hst]
      exact h
    · rw [← h.view_eq hv] at hp
      rcases storeByte_allowed h.right.ok hv b hp with ⟨_, hx⟩ | ⟨vm', hst', hw'⟩
      · refine (h.right.sound.not_exhausted ?_ hx).elim
        have h₁ := h.usage_le
        have h₂ := h.room
        omega
      · rw [hst, hst', if_pos rfl]
        exact h.written hw hw'

lemma step (h : Related k s r) {op : ForkOp} (hop : op.Enabled k s) :
    Related k ((op.op s).apply k s) (op.mirror k s r) := by
  cases op with
  | alloc name => exact h.alloc name
  | assign i => exact h.assign hop.1 hop.2.1 hop.2.2
  | map i virt flags =>
    obtain ⟨hl, hz, hv, habs, hok⟩ := hop
    exact h.map hl hz hv habs hok
  | fork =>
    simp only [ForkOp.op, ForkOp.mirror, Op.apply]
    split
    · rename_i hc
      exact h.fork_failed hc
    · rename_i hc
      exact h.fork_cloned hc
  | exit code => exact h.exit code
  | wait => exact h.wait
  | switch pid => exact h.switch pid
  | load va user =>
    simp only [ForkOp.op, ForkOp.mirror, Op.apply]
    rw [loadByte_eq h.left.ok h.calm hop, loadByte_eq h.right.ok h.calm' hop]
    exact h
  | store va b user => exact h.store hop b user

end Related

lemma Paired.related {s₀ r₀ : Sys} (h : Paired k s₀ r₀ s r) (h₀ : Related k s₀ r₀) : Related k s r := by
  induction h with
  | boot => exact h₀
  | step op _ hop ih => exact ih.step hop

section

variable {first second mem mem' : Word} {m₀ : PhysMem}

lemma boot_related (hroom : 17 * (pmmInstall mem).totalFrames + 18 ≤ (pmmInstall mem').totalFrames) :
    Related k (bootWith k first second mem m₀) (bootWith k first second mem' m₀) := by
  refine ⟨boot_inv, boot_inv, fun _ => rfl, fun _ => rfl, rfl, rfl, fun i => ?_, hroom⟩
  exact ⟨rfl, fun _ => rfl, fun _ => Iff.rfl, fun _ => Iff.rfl, fun _ _ => SameSpace.refl _ _⟩

end

/-! ### What processes observe -/

def Sys.as (s : Sys) (i : Slot) : Mmu := { s.mmu with cr3 := (s.table i).dir }

lemma Inv.as_ok (h : Inv k s) (hi : (s.table i).Live) (hd : (s.table i).dir ≠ 0) : (s.as i).Ok k :=
  ⟨h.sound, h.live_space ⟨hd, i, hi, rfl⟩⟩

namespace Related

variable {va : Word} {user : Bool}

lemma as_view (h : Related k s r) (hi : (s.table i).Live) (hd : (s.table i).dir ≠ 0)
    (hv : privateBase ≤ va) : (r.as i).view va = (s.as i).view va :=
  (((h.twin i).same hi hd _ (dirIndex_private hv) (dirIndex_lt va)).2 _ (tabIndex_lt va)).symm

lemma as_ok (h : Related k s r) (hi : (s.table i).Live) (hd : (s.table i).dir ≠ 0) : (r.as i).Ok k :=
  h.right.as_ok ((h.twin i).live.mpr hi) fun hz => hd (((h.twin i).null hi).mp hz)

lemma load_eq (h : Related k s r) (hi : (s.table i).Live) (hd : (s.table i).dir ≠ 0)
    (hv : privateBase ≤ va) : (loadByte (s.as i) va user).2 = (loadByte (r.as i) va user).2 := by
  rw [loadByte_eq (h.left.as_ok hi hd) h.calm hv, loadByte_eq (h.as_ok hi hd) h.calm' hv,
    h.as_view hi hd hv]

lemma store_eq (h : Related k s r) (hi : (s.table i).Live) (hd : (s.table i).dir ≠ 0)
    (hv : privateBase ≤ va) (b : Byte) (hfree : (pmmAlloc s.mmu.vm.pmm).2 ≠ 0) :
    (storeByte (s.as i) va b user).2 = (storeByte (r.as i) va b user).2 := by
  have hroom : usage k r.mmu.vm < r.mmu.vm.pmm.totalFrames := by
    have h₁ := h.usage_le
    have h₂ := h.room
    omega
  rw [storeByte_eq (h.left.as_ok hi hd) h.calm hv b (h.left.sound.alloc_not_exhausted hfree),
    storeByte_eq (h.as_ok hi hd) h.calm' hv b (h.right.sound.not_exhausted hroom), h.as_view hi hd hv]

lemma load_refused (h : Related k s r) (hi : (s.table i).Live) (hd : (s.table i).dir ≠ 0)
    (hv : privateBase ≤ va) {b : Byte} (hst : (storeByte (s.as i) va b user).2 = false) {j : Slot}
    (hj : (s.table j).Live) (hdj : (s.table j).dir ≠ 0) {va' : Word} (hv' : privateBase ≤ va')
    (user' : Bool) :
    (loadByte { (storeByte (s.as i) va b user).1 with cr3 := (s.table j).dir } va' user').2 =
      (loadByte (s.as j) va' user').2 := by
  obtain ⟨vm', hs, hinv⟩ := storeByte_refused (h.left.as_ok hi hd) h.calm hv hst
  have hok := h.left.as_ok hj hdj
  have hinv' : Invisible k (s.as j).vm vm' := hinv
  have hview := hinv'.view hok hv'
  rw [hs, loadByte_eq hok h.calm hv']
  exact (congrArg Prod.snd (loadByte_eq (hinv'.ok hok) h.calm hv')).trans (by rw [hview])

end Related

/-- Run `s` with copy-on-write forks next to `r`, where every fork copies: each process loads the
same bytes in both; as long as a frame is free it can store to the same pages; and a store whose
copy-on-write fault is not resolved changes no byte that any process loads. -/
theorem cow_fork_eq_eager_copy {first second mem mem' : Word} {m₀ : PhysMem}
    (h : Paired k (bootWith k first second mem m₀) (bootWith k first second mem' m₀) s r)
    (hroom : 17 * (pmmInstall mem).totalFrames + 18 ≤ (pmmInstall mem').totalFrames)
    (hi : (s.table i).Live) (hd : (s.table i).dir ≠ 0) {va : Word} (hv : privateBase ≤ va) (user : Bool) :
    (loadByte (s.as i) va user).2 = (loadByte (r.as i) va user).2 ∧
    (∀ b, (pmmAlloc s.mmu.vm.pmm).2 ≠ 0 →
      (storeByte (s.as i) va b user).2 = (storeByte (r.as i) va b user).2) ∧
    ∀ b code, walk s.mmu.vm.mem (s.table i).dir va true user = .error code →
      (vmmCowHandle s.mmu.vm (s.table i).dir va code).2 = false →
      (storeByte (s.as i) va b user).2 = false ∧
      ∀ (j : Slot) (va' : Word) (user' : Bool), (s.table j).Live → (s.table j).dir ≠ 0 → privateBase ≤ va' →
        (loadByte { (storeByte (s.as i) va b user).1 with cr3 := (s.table j).dir } va' user').2 =
          (loadByte (s.as j) va' user').2 := by
  have hrel := h.related (boot_related hroom)
  refine ⟨hrel.load_eq hi hd hv, fun b hfree => hrel.store_eq hi hd hv b hfree, ?_⟩
  intro b code hw hc
  have hst : (storeByte (s.as i) va b user).2 = false := storeByte_unresolved b hrel.calm hw hc
  exact ⟨hst, fun j va' user' hj hdj hv' => hrel.load_refused hi hd hv hst hj hdj hv' user'⟩

/-! A process that writes a page, forks, and writes it again: the child keeps the first byte. -/

def sampleRef : Sys := bootWith sampleDir 0x21000 0x22000 0x08400000 fun _ _ => 0

def samplePair (op : ForkOp) (x : Sys × Sys) : Sys × Sys :=
  ((op.op x.1).apply sampleDir x.1, op.mirror sampleDir x.1 x.2)

def sampleOwner : Sys × Sys :=
  samplePair (.switch 1) (samplePair (.map 1 privateBase (pfRw ||| pfUser))
    (samplePair (.assign 1) (samplePair (.alloc none) (sampleBoot, sampleRef))))

def sampleShared : Sys × Sys :=
  samplePair (.store privateBase 9 true) (samplePair .fork (samplePair (.store privateBase 7 true) sampleOwner))

lemma Paired.pair {x : Sys × Sys} (op : ForkOp) (h : Paired sampleDir sampleBoot sampleRef x.1 x.2)
    (hop : op.Enabled sampleDir x.1) :
    Paired sampleDir sampleBoot sampleRef (samplePair op x).1 (samplePair op x).2 := .step op h hop

lemma sampleOwner_paired : Paired sampleDir sampleBoot sampleRef sampleOwner.1 sampleOwner.2 := by
  have h₁ := Paired.pair (x := (sampleBoot, sampleRef)) (.alloc none) .boot trivial
  have h₂ := h₁.pair (.assign 1) ⟨by decide +kernel, by decide +kernel, by decide +kernel⟩
  have h₃ := h₂.pair (.map 1 privateBase (pfRw ||| pfUser))
    ⟨by decide +kernel, by decide +kernel, by decide, by decide +kernel, by decide +kernel⟩
  exact h₃.pair (.switch 1) trivial

lemma sampleShared_paired : Paired sampleDir sampleBoot sampleRef sampleShared.1 sampleShared.2 := by
  have hle : privateBase ≤ privateBase := by decide
  have h₁ := sampleOwner_paired.pair (.store privateBase 7 true) hle
  have h₂ := h₁.pair .fork trivial
  exact h₂.pair (.store privateBase 9 true) hle

theorem cow_fork_eq_eager_copy_child : (loadByte (sampleShared.1.as 2) privateBase true).2 = some 7 ∧
    (loadByte (sampleShared.1.as 1) privateBase true).2 = some 9 ∧
    (loadByte (sampleShared.1.as 2) privateBase true).2 =
      (loadByte (sampleShared.2.as 2) privateBase true).2 := by
  have hstate : (sampleShared.1.table 2).Live ∧ (sampleShared.1.table 2).dir ≠ 0 ∧
      (loadByte (sampleShared.1.as 2) privateBase true).2 = some 7 ∧
      (loadByte (sampleShared.1.as 1) privateBase true).2 = some 9 := by decide +kernel
  obtain ⟨hlive, hdir, hchild, hparent⟩ := hstate
  exact ⟨hchild, hparent,
    (cow_fork_eq_eager_copy sampleShared_paired (by decide +kernel) hlive hdir (by decide) true).1⟩

end PyroOS
