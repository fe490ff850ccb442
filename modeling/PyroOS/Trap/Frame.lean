import PyroOS.Trap.Cpu
import Mathlib.Tactic.Abel

/-! What the stubs push on the way into the kernel, how C reads it, and what the way out makes of it. -/

namespace PyroOS

namespace Trap

open ByteMemory

lemma pushAll_reg (c : Cpu) (ws : List Word) {r : Reg} (hr : r ≠ .esp) : (c.pushAll ws).reg r = c.reg r := by
  simp only [Cpu.pushAll, Cpu.set, Function.update_of_ne hr]

lemma pushAll_esp (c : Cpu) (ws : List Word) :
    (c.pushAll ws).reg .esp = c.reg .esp - BitVec.ofNat 32 (4 * ws.length) := by
  simp only [Cpu.pushAll, Cpu.set, Function.update_self]

lemma pushAll_append (c : Cpu) (xs ys : List Word) : (c.pushAll xs).pushAll ys = c.pushAll (xs ++ ys) := by
  have hesp : c.reg .esp - BitVec.ofNat 32 (4 * xs.length) - BitVec.ofNat 32 (4 * ys.length) =
      c.reg .esp - BitVec.ofNat 32 (4 * (xs ++ ys).length) := by
    rw [List.length_append, Nat.mul_add, BitVec.ofNat_add, sub_sub]
  simp only [Cpu.pushAll, Cpu.set, Function.update_self, Function.update_idem, hesp, push_append]

lemma selector_ax (a : Word) (v : Selector) : selector (a &&& 0xFFFF0000 ||| v.setWidth 32) = v := by
  have hzero : BitVec.setWidth 16 (0xFFFF0000 : Word) = 0#16 := by decide
  rw [selector, BitVec.setWidth_or, BitVec.setWidth_and, hzero, BitVec.and_zero, BitVec.zero_or,
    BitVec.setWidth_setWidth_of_le _ (by decide), BitVec.setWidth_eq]

lemma selector_extend (v : Selector) : selector (v.setWidth 32) = v := by
  rw [selector, BitVec.setWidth_setWidth_of_le _ (by decide), BitVec.setWidth_eq]

def Cpu.saved (c : Cpu) : List Word :=
  [c.reg .eax, c.reg .ecx, c.reg .edx, c.reg .ebx, c.reg .esp, c.reg .ebp, c.reg .esi, c.reg .edi, c.withAx (c.seg .ds),
    c.reg .esp - 36]

lemma run_commonEntry (c : Cpu) : (c.run commonEntry).mem = push c.mem (c.reg .esp) c.saved ∧
    (c.run commonEntry).reg .esp = c.reg .esp - 40 ∧ (c.run commonEntry).seg = (fun _ => kernelData) ∧
    (c.run commonEntry).cs = c.cs ∧ (c.run commonEntry).ss = c.ss ∧ (c.run commonEntry).eflags = c.eflags := by
  rw [commonEntry, run_append, run_append, run_loadSegments]
  simp only [Cpu.run, List.foldl_cons, List.foldl_nil, Instr.exec, Cpu.pushAll, Cpu.set, Cpu.withAx,
    Function.update_self, ne_eq, reduceCtorEq, not_false_eq_true, Function.update_of_ne, Cpu.saved, push,
      List.length_cons,
    List.length_nil, Nat.reduceAdd, Nat.reduceMul, sub_sub, BitVec.ofNat_eq_ofNat, BitVec.reduceAdd, and_true, true_and]
  exact funext fun _ => selector_ax _ 0x10

def Cpu.header (c : Cpu) (n : ℕ) (err : Word) : List Word :=
  (if c.user then [c.ss.setWidth 32, c.reg .esp] else []) ++
    [c.eflags, c.cs.setWidth 32, c.eip, if pushesError n then err else 0, BitVec.ofNat 32 n]

lemma pushAll_gate (c : Cpu) (ws : List Word) : c.gate.pushAll ws = (c.pushAll ws).gate := rfl

lemma gate_cli (c : Cpu) : Instr.exec c.gate .cli = c.gate := by
  have hif : ~~~gateFlags &&& ~~~flagIf = ~~~gateFlags := by decide
  simp only [Instr.exec, Cpu.gate, BitVec.and_assoc, hif]

lemma run_pushImm (c : Cpu) (ws : List Word) : c.gate.run (ws.map .pushImm) = (c.pushAll ws).gate := by
  induction ws generalizing c with
  | nil => simp [Cpu.run, Cpu.pushAll, Cpu.set, push]
  | cons w ws ih =>
    rw [List.map_cons, Cpu.run, List.foldl_cons, ← Cpu.run, Instr.exec, pushAll_gate, ih, pushAll_append,
      List.singleton_append]

lemma stub_eq (n : ℕ) : stub n = (if n = 128 then [] else [.cli]) ++
    ((if pushesError n then [] else [0]) ++ [BitVec.ofNat 32 n]).map .pushImm := by
  by_cases hn : n = 128
  · subst hn
    rfl
  · by_cases he : n ∈ [8, 10, 11, 12, 13, 14, 17] <;>
      simp only [stub, pushesError, isrErrcode, isrNoErrcode, hn, he, decide_true, decide_false] <;> rfl

lemma run_stub (K : KernelStack) (c : Cpu) (n : ℕ) (err : Word) :
    (deliver K c n err).run (stub n) = ((c.onStack K).pushAll (c.header n err)).gate := by
  have hcli : (deliver K c n err).run (if n = 128 then [] else [.cli]) = deliver K c n err := by
    split_ifs
    · rfl
    · exact gate_cli _
  rw [stub_eq, run_append, hcli, deliver, run_pushImm, pushAll_append, Cpu.trapFrame, Cpu.header]
  cases pushesError n <;> simp

def Cpu.frame (c : Cpu) (K : KernelStack) : Word := (c.onStack K).reg .esp - if c.user then 64 else 56

def Cpu.pushed (c : Cpu) (K : KernelStack) (n : ℕ) (err : Word) : List Word :=
  c.header n err ++ [c.reg .eax, c.reg .ecx, c.reg .edx, c.reg .ebx, c.frame K + 36, c.reg .ebp, c.reg .esi, c.reg .edi,
    c.withAx (c.seg .ds), c.frame K]

structure Entered (K : KernelStack) (c : Cpu) (n : ℕ) (err : Word) (d : Cpu) : Prop where
  mem : d.mem = push c.mem ((c.onStack K).reg .esp) (c.pushed K n err)
  esp : d.reg .esp = c.frame K - 4
  seg : d.seg = fun _ => kernelData
  cs : d.cs = kernelCode
  ss : d.ss = if c.user then kernelData else c.ss
  eflags : d.eflags = c.eflags &&& ~~~gateFlags

lemma onStack_reg (K : KernelStack) (c : Cpu) {r : Reg} (hr : r ≠ .esp) : (c.onStack K).reg r = c.reg r := by
  rw [Cpu.onStack]
  split
  · exact Function.update_of_ne hr _ _
  · rfl

lemma onStack_mem (K : KernelStack) (c : Cpu) : (c.onStack K).mem = c.mem := by
  rw [Cpu.onStack]
  split <;> rfl

lemma onStack_seg (K : KernelStack) (c : Cpu) : (c.onStack K).seg = c.seg := by
  rw [Cpu.onStack]
  split <;> rfl

lemma onStack_eflags (K : KernelStack) (c : Cpu) : (c.onStack K).eflags = c.eflags := by
  rw [Cpu.onStack]
  split <;> rfl

lemma onStack_ss (K : KernelStack) (c : Cpu) : (c.onStack K).ss = if c.user then kernelData else c.ss := by
  rw [Cpu.onStack]
  split <;> rfl

lemma header_esp (K : KernelStack) (c : Cpu) (n : ℕ) (err : Word) :
    (c.onStack K).reg .esp - BitVec.ofNat 32 (4 * (c.header n err).length) = c.frame K + 36 := by
  rw [Cpu.header, Cpu.frame]
  generalize (c.onStack K).reg .esp = e
  cases c.user
  · change e - 20#32 = e - 56#32 + 36#32
    bv_omega
  · change e - 28#32 = e - 64#32 + 36#32
    bv_omega

lemma enter_entered (K : KernelStack) (c : Cpu) (n : ℕ) (err : Word) : Entered K c n err (enter K c n err) := by
  obtain ⟨hmem, hesp, hseg, hcs, hss, hfl⟩ := run_commonEntry (((c.onStack K).pushAll (c.header n err)).gate)
  have hsp : ((c.onStack K).pushAll (c.header n err)).gate.reg .esp = c.frame K + 36 :=
    (pushAll_esp ..).trans (header_esp ..)
  have hsaved : ((c.onStack K).pushAll (c.header n err)).gate.saved =
      [c.reg .eax, c.reg .ecx, c.reg .edx, c.reg .ebx, c.frame K + 36, c.reg .ebp, c.reg .esi, c.reg .edi,
        c.withAx (c.seg .ds), c.frame K] := by
    have hreg : ∀ r, r ≠ .esp → ((c.onStack K).pushAll (c.header n err)).gate.reg r = c.reg r :=
      fun r hr => (pushAll_reg _ _ hr).trans (onStack_reg K c hr)
    have hds : ((c.onStack K).pushAll (c.header n err)).gate.seg = c.seg := onStack_seg K c
    simp only [Cpu.saved, Cpu.withAx, hsp, hds, ne_eq, reduceCtorEq, not_false_eq_true, hreg, BitVec.add_sub_cancel]
  rw [hsp] at hmem hesp
  rw [enter, run_append, run_stub]
  constructor
  · rw [hmem, hsaved, Cpu.pushed, push_append, header_esp, ← onStack_mem K c]
    rfl
  · rw [hesp]
    bv_omega
  · exact hseg
  · exact hcs
  · exact hss.trans (onStack_ss K c)
  · exact hfl.trans (congrArg (· &&& ~~~gateFlags) (onStack_eflags K c))

/-! ### Taking the frame down -/

def Cpu.words (c : Cpu) (K : KernelStack) (n : ℕ) (err : Word) : List Word :=
  [c.withAx (c.seg .ds), c.reg .edi, c.reg .esi, c.reg .ebp, c.frame K + 36, c.reg .ebx, c.reg .edx, c.reg .ecx,
    c.reg .eax, BitVec.ofNat 32 n, if pushesError n then err else 0, c.eip, c.cs.setWidth 32, c.eflags] ++
    if c.user then [c.reg .esp, c.ss.setWidth 32] else []

/-- The frame lies in `m` as it was built, apart from the slot of `eax` in a system call, which holds the result. -/
def Cpu.FrameIn (c : Cpu) (K : KernelStack) (n : ℕ) (err : Word) (m : Mem) : Prop :=
  ∀ j (hj : j < (c.words K n err).length), (n = 128 → j ≠ 8) →
    readWord m (c.frame K + BitVec.ofNat 32 (4 * j)) = (c.words K n err)[j]

lemma frame_eq (c : Cpu) (K : KernelStack) (n : ℕ) (err : Word) :
    c.frame K = (c.onStack K).reg .esp - BitVec.ofNat 32 (4 * (c.words K n err).length) := by
  rw [Cpu.frame, Cpu.words]
  cases c.user <;> rfl

lemma pushed_reverse (c : Cpu) (K : KernelStack) (n : ℕ) (err : Word) :
    (c.pushed K n err).reverse = c.frame K :: c.words K n err := by
  rw [Cpu.pushed, Cpu.header, Cpu.words]
  cases c.user <;> rfl

lemma words_length (c : Cpu) (K : KernelStack) (n : ℕ) (err : Word) :
    (c.words K n err).length = if c.user then 16 else 14 := by
  rw [Cpu.words]
  cases c.user <;> rfl

lemma pushed_length (c : Cpu) (K : KernelStack) (n : ℕ) (err : Word) :
    (c.pushed K n err).length = (c.words K n err).length + 1 := by
  rw [← List.length_reverse, pushed_reverse, List.length_cons]

lemma sub_add_ofNat (e : Word) {a b : ℕ} (h : b ≤ a) :
    e - BitVec.ofNat 32 a + BitVec.ofNat 32 b = e - BitVec.ofNat 32 (a - b) := by
  obtain ⟨k, rfl⟩ := Nat.exists_eq_add_of_le h
  rw [BitVec.ofNat_add, Nat.add_sub_cancel_left]
  abel

lemma frameIn_push {c : Cpu} {K : KernelStack} {n : ℕ} {err : Word} (m : Mem)
    (hroom : 4 * ((c.words K n err).length + 1) ≤ ((c.onStack K).reg .esp).toNat) :
    c.FrameIn K n err (push m ((c.onStack K).reg .esp) (c.pushed K n err)) := by
  intro j hj _
  have hrev := pushed_reverse c K n err
  have hlen := pushed_length c K n err
  have hread := @push_read m _ (c.pushed K n err) (hlen ▸ hroom) ((c.words K n err).length - 1 - j) (by omega)
  have haddr : c.frame K + BitVec.ofNat 32 (4 * j) =
      (c.onStack K).reg .esp - BitVec.ofNat 32 (4 * ((c.words K n err).length - 1 - j + 1)) := by
    rw [frame_eq c K n err, sub_add_ofNat _ (by omega)]
    congr 2
    omega
  have hword : (c.words K n err)[j]? = (c.pushed K n err)[(c.words K n err).length - 1 - j]? := by
    rw [← List.getElem?_cons_succ, ← hrev, List.getElem?_reverse (by omega)]
    congr 1
    omega
  rw [List.getElem?_eq_getElem hj, List.getElem?_eq_getElem (by omega)] at hword
  rw [haddr, hread, Option.some.inj hword]

def Cpu.registers (c : Cpu) (K : KernelStack) (n : ℕ) (err : Word) (m : Mem) : Registers where
  ds := c.withAx (c.seg .ds)
  edi := c.reg .edi
  esi := c.reg .esi
  ebp := c.reg .ebp
  esp := c.frame K + 36
  ebx := c.reg .ebx
  edx := c.reg .edx
  ecx := c.reg .ecx
  eax := if n = 128 then readWord m (c.frame K + 32) else c.reg .eax
  intNo := BitVec.ofNat 32 n
  errCode := if pushesError n then err else 0
  eip := c.eip
  cs := c.cs.setWidth 32
  eflags := c.eflags
  useresp := if c.user then c.reg .esp else readWord m (c.frame K + 56)
  ss := if c.user then c.ss.setWidth 32 else readWord m (c.frame K + 60)

lemma registersAt_frame {K : KernelStack} {c : Cpu} {n : ℕ} {err : Word} {m : Mem} (hframe : c.FrameIn K n err m) :
    registersAt m (c.frame K) = c.registers K n err m := by
  have hlen : 14 ≤ (c.words K n err).length := by
    rw [Cpu.words, List.length_append]
    exact Nat.le_add_right 14 _
  have hzero : c.frame K + BitVec.ofNat 32 (4 * 0) = c.frame K := BitVec.add_zero _
  rw [registersAt, Cpu.registers]
  congr 1
  · rw [← hzero]
    exact hframe 0 (by omega) (by omega)
  · exact hframe 1 (by omega) (by omega)
  · exact hframe 2 (by omega) (by omega)
  · exact hframe 3 (by omega) (by omega)
  · exact hframe 4 (by omega) (by omega)
  · exact hframe 5 (by omega) (by omega)
  · exact hframe 6 (by omega) (by omega)
  · exact hframe 7 (by omega) (by omega)
  · split_ifs with hn
    · rfl
    · exact hframe 8 (by omega) (absurd · hn)
  · exact hframe 9 (by omega) (by omega)
  · exact hframe 10 (by omega) (by omega)
  · exact hframe 11 (by omega) (by omega)
  · exact hframe 12 (by omega) (by omega)
  · exact hframe 13 (by omega) (by omega)
  · split_ifs with hu
    · have hesp := hframe 14 (by simp [Cpu.words, hu]) (by omega)
      simpa [Cpu.words, hu] using hesp
    · rfl
  · split_ifs with hu
    · have hss := hframe 15 (by simp [Cpu.words, hu]) (by omega)
      simpa [Cpu.words, hu] using hss
    · rfl

def Cpu.resumed (c : Cpu) (eax : Word) (m : Mem) : Cpu :=
  { c.set .eax eax with seg := fun _ => c.seg .ds, mem := m }

lemma leave_resumed {K : KernelStack} {c d : Cpu} {n : ℕ} {err : Word}
    (hring : c.cs = userCode ∧ (c.seg .ds).kernelOnly = false ∨ c.cs = kernelCode ∧ d.ss = c.ss)
    (hcs : d.cs = kernelCode) (hesp : d.reg .esp = c.frame K - 4) (hframe : c.FrameIn K n err d.mem) :
    leave d = c.resumed (if n = 128 then readWord d.mem (c.frame K + 32) else c.reg .eax) d.mem := by
  have hp : d.reg .esp + 4 = c.frame K := by
    rw [hesp]
    bv_omega
  rw [leave_eq hcs, hp]
  rw [registersAt_frame hframe]
  obtain ⟨huser, hds⟩ | ⟨hkernel, hss⟩ := hring
  · have hu : c.user = true := by
      rw [Cpu.user, huser]
      decide
    have hrpl : 0 < c.cs.rpl := by
      rw [huser]
      decide
    simp only [Registers.resume, Cpu.registers, hu, if_true, true_and, selector_extend, hrpl, Cpu.withAx, selector_ax,
      hds]
    rw [Cpu.resumed, Cpu.set]
    congr 1
    funext r
    cases r <;> rfl
  · have hu : c.user = false := by
      rw [Cpu.user, hkernel]
      decide
    have hrpl : ¬ 0 < c.cs.rpl := by
      rw [hkernel]
      decide
    have htop : c.frame K + 56 = c.reg .esp := by
      rw [Cpu.frame, Cpu.onStack, hu]
      exact BitVec.sub_add_cancel _ _
    simp only [Registers.resume, Cpu.registers, if_false, false_and, selector_extend, hrpl, Cpu.withAx, selector_ax,
      htop, hss]
    rw [Cpu.resumed, Cpu.set]
    congr 1
    funext r
    cases r <;> rfl

end Trap

end PyroOS
