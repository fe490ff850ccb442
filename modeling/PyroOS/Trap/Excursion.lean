import PyroOS.Trap.Context
import PyroOS.Trap.Nesting

/-! `run_user_at_sp`: the kernel goes down to ring 3 and comes back, whatever the program does there. -/

namespace PyroOS

namespace Trap

open ByteMemory

section

variable (L : Layout)

structure Launching (c : Cpu) : Prop where
  cs : c.cs = kernelCode
  ss : c.ss = kernelData
  seg : c.seg = fun _ => kernelData
  low : L.boot.low + 128 ≤ (c.reg .esp).toNat
  top : (c.reg .esp).toNat ≤ L.boot.top.toNat

/-- `fault_recovery_ctx = kernel_ctx` -/
def copyContext (m : Mem) : Mem := writeWords m L.recoveryCtx (contextAt m L.kernelCtx).toList

/-- `run_user_at_sp` from `save_context`, called with the return address `ret`, down to ring 3. Between the two calls
there is compiled code, which may use the stack below. -/
inductive Launched (c : Cpu) (ret entry sp : Word) : Cpu → Prop
  | down {g : Cpu} (ret' : Word) : g.cs = c.cs → g.ss = c.ss → g.seg = c.seg → L.boot.low + 64 ≤ (g.reg .esp).toNat →
      (g.reg .esp).toNat ≤ (c.reg .esp).toNat →
      (∀ x, L.inContext x ∨ (c.reg .esp).toNat ≤ x.toNat ∧ x.toNat < L.boot.top.toNat →
        g.mem x = copyContext L (c.call [L.kernelCtx] ret saveContext).mem x) →
      Launched c ret entry sp (g.call [entry, sp] ret' enterUserMode)

inductive Phase where
  | running (M : Machine)
  | returned (c : Cpu) (vector : ℕ) -- back in `run_user_at_sp`, out of the handler for the vector
  | halted

structure Excursion where
  phase : Phase
  armed : Bool -- `fault_armed`
  faulted : Bool -- `g_user_faulted`

def Excursion.start (u : Cpu) : Excursion := ⟨.running ⟨u, []⟩, true, false⟩

/-- Besides the machine's own steps, `user_exit` in the handler of a system call, and the end of `isr_handler`. -/
inductive Excursion.Step : Excursion → Excursion → Prop
  | machine {M M' : Machine} {armed faulted : Bool} : Trap.Step L M M' →
      Excursion.Step ⟨.running M, armed, faulted⟩ ⟨.running M', armed, faulted⟩
  | exit {c : Cpu} {l : Level} {ls : List Level} {armed faulted : Bool} (ret : Word) : l.vector = 128 →
      (L.stack (l :: ls)).low + 8 ≤ (c.reg .esp).toNat →
      Excursion.Step ⟨.running ⟨c, l :: ls⟩, armed, faulted⟩
        ⟨.returned (c.call [L.kernelCtx] ret restoreContext) l.vector, armed, faulted⟩
  | fault {c : Cpu} {l : Level} {ls : List Level} {armed faulted : Bool} (ret : Word) : l.vector < 32 →
      (L.stack (l :: ls)).low + 8 ≤ (c.reg .esp).toNat →
      Excursion.Step ⟨.running ⟨c, l :: ls⟩, armed, faulted⟩
        (if armed then ⟨.returned (c.call [L.recoveryCtx] ret restoreContext) l.vector, false, true⟩
        else ⟨.halted, armed, faulted⟩)

def Rooted : Cpu → List Level → Prop
  | c, [] => c.cs = userCode
  | _, l :: ls => Rooted l.cpu ls

structure Kept (c : Cpu) (ret : Word) (m : Mem) : Prop where
  kernel : contextAt m L.kernelCtx = ⟨c.reg .ebx, c.reg .esi, c.reg .edi, c.reg .ebp, c.reg .esp - 8, ret, c.eflags⟩
  recovery : contextAt m L.recoveryCtx = ⟨c.reg .ebx, c.reg .esi, c.reg .edi, c.reg .ebp, c.reg .esp - 8, ret, c.eflags⟩
  stack : Same (c.reg .esp).toNat L.boot.top.toNat c.mem m

end

lemma contextAt_same {m m' : Mem} {a : Word} (ha : a.toNat + 28 < 2 ^ 32) (h : Same a.toNat (a.toNat + 28) m m') :
    contextAt m' a = contextAt m a := by
  have hword : ∀ i, i < 7 → readWord m' (a + BitVec.ofNat 32 (4 * i)) = readWord m (a + BitVec.ofNat 32 (4 * i)) := by
    intro i hi
    have haddr : (a + BitVec.ofNat 32 (4 * i)).toNat = a.toNat + 4 * i := by
      rw [BitVec.toNat_add, BitVec.toNat_ofNat]
      omega
    exact h.read (by omega) (by omega) (by omega)
  have hzero : readWord m' a = readWord m a := by
    have h₀ := hword 0 (by decide)
    rwa [Nat.mul_zero, BitVec.add_zero] at h₀
  rw [contextAt, contextAt, Context.mk.injEq]
  exact ⟨hzero, hword 1 (by decide), hword 2 (by decide), hword 3 (by decide), hword 4 (by decide), hword 5 (by decide),
    hword 6 (by decide)⟩

lemma contextAt_writeWords (m : Mem) {a : Word} (ha : a.toNat + 28 < 2 ^ 32) (k : Context) :
    contextAt (writeWords m a k.toList) a = k := by
  have hword : ∀ i (hi : i < 7), readWord (writeWords m a k.toList) (a + BitVec.ofNat 32 (4 * i)) = k.toList[i] :=
    fun i hi => writeWords_read ha hi
  have hzero := hword 0 (by decide)
  rw [Nat.mul_zero, BitVec.add_zero] at hzero
  generalize writeWords m a k.toList = m' at hword hzero
  rw [contextAt]
  cases k
  rw [Context.mk.injEq]
  exact ⟨hzero, hword 1 (by decide), hword 2 (by decide), hword 3 (by decide), hword 4 (by decide), hword 5 (by decide),
    hword 6 (by decide)⟩

section

variable (L : Layout)

lemma Layout.context_boot :
    (L.boot.top.toNat ≤ L.kernelCtx.toNat ∨ L.kernelCtx.toNat + 28 ≤ L.boot.low) ∧
      (L.boot.top.toNat ≤ L.recoveryCtx.toNat ∨ L.recoveryCtx.toNat + 28 ≤ L.boot.low) ∧
      (L.kernelCtx.toNat + 28 ≤ L.recoveryCtx.toNat ∨ L.recoveryCtx.toNat + 28 ≤ L.kernelCtx.toNat) := by
  have h := L.apart
  simp only [List.pairwise_cons, List.mem_cons, List.not_mem_nil, or_false, forall_eq_or_imp, forall_eq] at h
  exact ⟨h.2.1.1, h.2.1.2, h.2.2.1⟩

lemma Layout.foreign_tss {x : Word} (h : L.inContext x ∨ L.boot.low ≤ x.toNat ∧ x.toNat < L.boot.top.toNat) :
    x.toNat < L.tss.low ∨ L.tss.top.toNat ≤ x.toNat := by
  have hp := L.apart
  simp only [List.pairwise_cons, List.mem_cons, List.not_mem_nil, or_false, forall_eq_or_imp, forall_eq] at hp
  obtain ⟨⟨h₁, h₂, h₃⟩, -⟩ := hp
  rw [Layout.inContext] at h
  omega

lemma Layout.foreign_below {x : Word} (h : L.inContext x ∨ L.boot.low ≤ x.toNat ∧ x.toNat < L.boot.top.toNat) :
    x.toNat < 0x80000 := by
  have hb := L.below
  rw [Layout.inContext] at h
  omega

end

variable {L : Layout} {c d u : Cpu} {l : Level} {ls : List Level} {ret entry sp : Word}

lemma Kept.of_same {m m' : Mem} (h : Kept L c ret m)
    (hm : ∀ x, L.inContext x ∨ (c.reg .esp).toNat ≤ x.toNat ∧ x.toNat < L.boot.top.toNat → m' x = m x) :
    Kept L c ret m' := by
  have hb := L.below
  have hk : contextAt m' L.kernelCtx = contextAt m L.kernelCtx :=
    contextAt_same (by omega) fun x h₁ h₂ => hm x (.inl (.inl ⟨h₁, h₂⟩))
  have hr : contextAt m' L.recoveryCtx = contextAt m L.recoveryCtx :=
    contextAt_same (by omega) fun x h₁ h₂ => hm x (.inl (.inr ⟨h₁, h₂⟩))
  exact ⟨hk.trans h.kernel, hr.trans h.recovery, h.stack.trans fun x h₁ h₂ => hm x (.inr ⟨h₁, h₂⟩)⟩

lemma copyContext_kept (hc : Launching L c) :
    Kept L c ret (copyContext L (c.call [L.kernelCtx] ret saveContext).mem) := by
  have hb := L.below
  have hlow := hc.low
  have htop := hc.top
  obtain ⟨hk, hr, hkr⟩ := L.context_boot
  have hs := call_saveContext (c := c) (a := L.kernelCtx) ret (by omega) (by omega) (by omega)
  generalize c.call [L.kernelCtx] ret saveContext = s at hs
  have hcopy : ∀ lo hi, L.recoveryCtx.toNat + 28 ≤ lo ∨ hi ≤ L.recoveryCtx.toNat →
    Same lo hi s.mem (copyContext L s.mem) :=
    fun lo hi h => writeWords_same (by change _ + 28 < _; omega) (by change _ + 28 ≤ _ ∨ _; omega)
  refine ⟨?_, ?_, ?_⟩
  · rw [contextAt_same (by omega) (hcopy _ _ (by omega)), hs.context]
  · rw [copyContext, contextAt_writeWords _ (by omega), hs.context]
  · exact (hs.mem _ _ (by omega) (.inl le_rfl)).trans (hcopy _ _ (by omega))

lemma Launched.kept (hc : Launching L c) (h : Launched L c ret entry sp u) :
    u.cs = userCode ∧ (∀ s, (u.seg s).kernelOnly = false) ∧ Kept L c ret u.mem := by
  obtain @⟨g, ret', hcs, hss, hseg, hlow, hle, hmem⟩ := h
  have hu := @call_enterUserMode g entry sp ret' (hcs.trans hc.cs) (by omega)
  refine ⟨hu.cs, fun s => ?_, ?_⟩
  · rw [hu.seg]
    exact (by decide : userData.kernelOnly = false)
  · have hpush : ∀ x, L.inContext x ∨ (c.reg .esp).toNat ≤ x.toNat ∧ x.toNat < L.boot.top.toNat →
        (g.call [entry, sp] ret' enterUserMode).mem x = g.mem x := by
      intro x hx
      rw [hu.mem]
      obtain ⟨hk, hr, -⟩ := L.context_boot
      have htop := hc.top
      refine push_apply _ (by change 32 ≤ _; omega) ?_
      rw [Layout.inContext] at hx
      change _ ∨ _ < _ - 32
      omega
    exact ((copyContext_kept hc).of_same hmem).of_same hpush

lemma Rooted.stack (h : Rooted d (l :: ls)) : L.stack (l :: ls) = L.tss := by
  induction ls generalizing d l with
  | nil => exact stack_user (user_of_userCode h) []
  | cons l' ls ih =>
    cases hu : l.cpu.user
    · rw [stack_kernel hu]
      exact ih (d := l.cpu) h
    · exact stack_user hu _

lemma Rooted.ss (h : Rooted d ls) (hd : Nested L d ls) (hcs : d.cs = kernelCode) : d.ss = kernelData := by
  induction hd with
  | home _ =>
    have huser : _ = userCode := h
    exact absurd (hcs.symm.trans huser) (by decide)
  | @level c l ls hl hh ih =>
    rw [hh.ss]
    obtain ⟨huser, -⟩ | hkernel := hl.ring
    · rw [if_pos (user_of_userCode huser)]
    · rw [user_of_kernelCode hkernel]
      exact ih h hkernel

structure Away (L : Layout) (c : Cpu) (ret : Word) (M : Machine) : Prop where
  nested : Nested L M.cpu M.levels
  rooted : Rooted M.cpu M.levels
  kept : Kept L c ret M.cpu.mem

lemma Step.away {M M' : Machine} (hc : Launching L c) (h : Step L M M') (hM : Away L c ret M) : Away L c ret M' := by
  have hnested := h.nested hM.nested
  have hrooted := hM.rooted
  have hlow : ∀ x : Word, L.inContext x ∨ (c.reg .esp).toNat ≤ x.toNat ∧ x.toNat < L.boot.top.toNat →
      L.inContext x ∨ L.boot.low ≤ x.toNat ∧ x.toNat < L.boot.top.toNat :=
    fun x hx => hx.imp_right fun hx => ⟨by have := hc.low; omega, hx.2⟩
  cases h with
  | work h =>
    cases h with
    | user hcs hcs' hseg hmem =>
      exact ⟨hnested, hcs', hM.kept.of_same fun x hx => hmem x (L.foreign_below (hlow x hx))⟩
    | kernel hcs _ _ => exact absurd (hcs.symm.trans hrooted) (by decide)
    | handler hcs hss hseg hesp hmem =>
      refine ⟨hnested, hrooted, hM.kept.of_same fun x hx => hmem x (.inr ?_)⟩
      exact (hlow x hx).imp_right fun hx => ⟨hrooted.stack, hx⟩
  | @trap d ls n err h hroom =>
    refine ⟨hnested, hrooted, hM.kept.of_same fun x hx => ?_⟩
    have hstack : L.stack (⟨d, n, err⟩ :: ls) = L.tss := Rooted.stack (d := d) hrooted
    have hbase : ((d.onStack L.tss).reg .esp).toNat ≤ L.tss.top.toNat :=
      (hM.nested.base_le n err).trans_eq (congrArg (·.top.toNat) hstack)
    have hlow' : L.tss.low + 72 ≤ ((d.onStack L.tss).reg .esp).toNat :=
      (congrArg (·.low + 72) hstack).ge.trans hroom
    have hlen : (d.pushed L.tss n err).length ≤ 17 := by
      rw [pushed_length, words_length]
      split <;> omega
    have hx' := L.foreign_tss (hlow x hx)
    rw [(enter_entered L.tss d n err).mem]
    exact push_apply _ (by omega) (by omega)
  | @back d l ls hesp =>
    cases hM.nested with
    | level hl hh =>
      have hleave := hh.leave hl hesp
      refine ⟨hnested, ?_, ?_⟩
      · cases ls with
        | nil =>
          rw [hleave]
          exact hrooted
        | cons _ _ => exact hrooted
      · rw [hleave]
        exact hM.kept

lemma Away.restore {e : Cpu} {a : Word} (ret' : Word) (hc : Launching L c) (hM : Away L c ret ⟨e, l :: ls⟩)
    (hroom : (L.stack (l :: ls)).low + 8 ≤ (e.reg .esp).toNat) (ha : a = L.kernelCtx ∨ a = L.recoveryCtx) :
    e.call [a] ret' restoreContext =
      (Context.mk (c.reg .ebx) (c.reg .esi) (c.reg .edi) (c.reg .ebp) (c.reg .esp - 8) ret c.eflags).resume
        (e.pushAll [a, ret']) ∧ Kept L c ret (e.pushAll [a, ret']).mem := by
  obtain ⟨hnested, hrooted, hkept⟩ := hM
  have hstack : L.stack (l :: ls) = L.tss := hrooted.stack
  cases hnested with
  | level hl hh =>
    have hframe := hh.frame_le
    have htop := hh.top
    have hesp : (e.reg .esp).toNat + 4 ≤ _ := hh.esp
    rw [hstack] at hroom htop
    have h₈ : 8 ≤ (e.reg .esp).toNat := by omega
    have hpushed : Kept L c ret (e.pushAll [a, ret']).mem := by
      refine hkept.of_same fun x hx => ?_
      have hx' := L.foreign_tss (hx.imp_right fun hx => ⟨by have := hc.low; omega, hx.2⟩)
      refine push_apply [a, ret'] h₈ ?_
      change _ ∨ _ < _ - 8
      omega
    refine ⟨call_restoreContext ret' h₈ ?_, hpushed⟩
    obtain rfl | rfl := ha
    · exact hpushed.kernel
    · exact hpushed.recovery

structure Returned (L : Layout) (c : Cpu) (ret : Word) (d : Cpu) : Prop where
  one : d.reg .eax = 1
  saved : ∀ r ∈ [Reg.ebx, .esi, .edi, .ebp], d.reg r = c.reg r
  esp : d.reg .esp = c.reg .esp - 4
  eip : d.eip = ret
  eflags : d.eflags = c.eflags
  cs : d.cs = c.cs
  ss : d.ss = c.ss
  seg : d.seg = c.seg
  stack : Same (c.reg .esp).toNat L.boot.top.toNat c.mem d.mem

lemma Away.returned {e : Cpu} {a : Word} (ret' : Word) (hc : Launching L c) (hM : Away L c ret ⟨e, l :: ls⟩)
    (hroom : (L.stack (l :: ls)).low + 8 ≤ (e.reg .esp).toNat) (ha : a = L.kernelCtx ∨ a = L.recoveryCtx) :
    Returned L c ret (e.call [a] ret' restoreContext) := by
  obtain ⟨hrestore, hkept⟩ := hM.restore ret' hc hroom ha
  obtain ⟨hnested, hrooted, -⟩ := hM
  have hss := fun hcs => hrooted.ss hnested hcs
  cases hnested with
  | level hl hh =>
    rw [hrestore]
    constructor
    · rfl
    · intro r hr
      simp only [List.mem_cons, List.not_mem_nil, or_false] at hr
      obtain rfl | rfl | rfl | rfl := hr <;> rfl
    · change c.reg .esp - 8 + 4 = _
      bv_omega
    · rfl
    · rfl
    · exact hh.cs.trans hc.cs.symm
    · exact (hss hh.cs).trans hc.ss.symm
    · exact hh.seg.trans hc.seg.symm
    · have hlow := hc.low
      have hlt := (c.reg .esp).isLt
      have h₈ : (c.reg .esp - 8).toNat = (c.reg .esp).toNat - 8 := by bv_omega
      exact hkept.stack.trans (write_same _ (by change (c.reg .esp - 8).toNat + 4 ≤ _ ∨ _; omega)
        (by change (c.reg .esp - 8).toNat + 4 ≤ _; omega))

def Excursion.Good (L : Layout) (c : Cpu) (ret : Word) (e : Excursion) : Prop :=
  match e.phase with
  | .running M => Away L c ret M ∧ e.armed = true ∧ e.faulted = false
  | .returned d v => Returned L c ret d ∧ (e.faulted = true ↔ v < 32)
  | .halted => False

lemma Excursion.Step.good {e e' : Excursion} (hc : Launching L c) (h : e.Step L e') (he : e.Good L c ret) :
    e'.Good L c ret := by
  cases h with
  | machine h =>
    obtain ⟨haway, harmed, hfaulted⟩ := he
    exact ⟨h.away hc haway, harmed, hfaulted⟩
  | exit ret' hv hroom =>
    obtain ⟨haway, harmed, hfaulted⟩ := he
    exact ⟨haway.returned ret' hc hroom (.inl rfl), fun h => absurd (hfaulted.symm.trans h) (by decide),
      fun h => by omega⟩
  | @fault _ _ _ armed _ ret' hv hroom =>
    obtain ⟨haway, harmed, -⟩ := he
    have harm : armed = true := harmed
    rw [if_pos harm]
    exact ⟨haway.returned ret' hc hroom (.inr rfl), fun _ => hv, fun _ => rfl⟩

def Excursion.Runs (L : Layout) : Excursion → Excursion → Prop := Relation.ReflTransGen (Excursion.Step L)

end Trap

end PyroOS
