import PyroOS.Trap.Frame
import Mathlib.Tactic.IntervalCases

/-! `ring3.asm`: the way down to ring 3, and the pair of calls that leads back. -/

namespace PyroOS

namespace Trap

open ByteMemory

def saveContext : List Instr :=
  [.fetch .eax .esp 4, .store .eax 0 .ebx, .store .eax 4 .esi, .store .eax 8 .edi, .store .eax 12 .ebp,
    .store .eax 16 .esp,
    .fetch .ecx .esp 0, .store .eax 20 .ecx, .pushf, .pop .ecx, .store .eax 24 .ecx, .clear .eax, .ret]

def restoreContext : List Instr :=
  [.fetch .eax .esp 4, .fetch .ebx .eax 0, .fetch .esi .eax 4, .fetch .edi .eax 8, .fetch .ebp .eax 12,
    .fetch .ecx .eax 20,
    .fetch .edx .eax 24, .fetch .esp .eax 16, .add .esp 4, .push .edx, .popf, .movImm .eax 1, .jmp .ecx]

def enterUserMode : List Instr :=
  ([.cli, .fetch .ecx .esp 4, .fetch .edx .esp 8, .movAxImm 0x23] : List Instr) ++
    (loadSegments ++ ([.pushImm 0x23, .push .edx, .pushImm 0x202, .pushImm 0x1B, .push .ecx, .iret] : List Instr))

def Cpu.call (c : Cpu) (args : List Word) (ret : Word) (code : List Instr) : Cpu :=
    (c.pushAll (args.reverse ++ [ret])).run code

/-- `ctx_t` -/
structure Context where
  ebx : Word
  esi : Word
  edi : Word
  ebp : Word
  esp : Word
  eip : Word
  eflags : Word

def Context.toList (k : Context) : List Word := [k.ebx, k.esi, k.edi, k.ebp, k.esp, k.eip, k.eflags]

def contextAt (m : Mem) (a : Word) : Context where
  ebx := readWord m a
  esi := readWord m (a + 4)
  edi := readWord m (a + 8)
  ebp := readWord m (a + 12)
  esp := readWord m (a + 16)
  eip := readWord m (a + 20)
  eflags := readWord m (a + 24)

def Cpu.savedMem (c : Cpu) (a ret : Word) : Mem :=
  writeWord (writeWord (writeWords c.mem a [c.reg .ebx, c.reg .esi, c.reg .edi, c.reg .ebp, c.reg .esp, ret])
    (c.reg .esp - 4) c.eflags) (a + 24) c.eflags

lemma run_saveContext {c : Cpu} {a ret : Word} (ha : readWord c.mem (c.reg .esp + 4) = a)
    (hret : readWord (writeWords c.mem a [c.reg .ebx, c.reg .esi, c.reg .edi, c.reg .ebp, c.reg .esp])
      (c.reg .esp) = ret) :
    c.run saveContext =
      { (((c.set .ecx c.eflags).set .eax 0).set .esp (c.reg .esp + 4)) with
        eip := readWord (c.savedMem a ret) (c.reg .esp), mem := c.savedMem a ret } := by
  rw [Cpu.savedMem]
  simp only [writeWords, BitVec.ofNat_eq_ofNat, BitVec.add_assoc, BitVec.reduceAdd] at ha hret ⊢
  simp only [saveContext, Cpu.run, List.foldl_cons, List.foldl_nil, Instr.exec, Cpu.pushAll, Cpu.set,
    Function.update_self,
    ne_eq, reduceCtorEq, not_false_eq_true, Function.update_of_ne, push, List.length_cons, List.length_nil,
      Nat.reduceAdd,
    Nat.reduceMul, BitVec.ofNat_eq_ofNat, BitVec.add_zero, ha, hret, read_write, BitVec.sub_add_cancel]
  congr 1
  funext r
  cases r <;> rfl

def Context.resume (k : Context) (c : Cpu) : Cpu :=
  { c with
    reg := fun
      | .eax => 1
      | .ecx => k.eip
      | .edx => k.eflags
      | .ebx => k.ebx
      | .esp => k.esp + 4
      | .ebp => k.ebp
      | .esi => k.esi
      | .edi => k.edi
    eip := k.eip
    eflags := k.eflags
    mem := writeWord c.mem k.esp k.eflags }

lemma run_restoreContext {c : Cpu} {a : Word} {k : Context} (ha : readWord c.mem (c.reg .esp + 4) = a)
    (hk : contextAt c.mem a = k) : c.run restoreContext = k.resume c := by
  subst hk
  simp only [BitVec.ofNat_eq_ofNat] at ha
  simp only [restoreContext, Cpu.run, List.foldl_cons, List.foldl_nil, Instr.exec, Cpu.pushAll, Cpu.set,
    Function.update_self,
    ne_eq, reduceCtorEq, not_false_eq_true, Function.update_of_ne, push, List.length_cons, List.length_nil,
      Nat.reduceAdd,
    Nat.reduceMul, BitVec.ofNat_eq_ofNat, BitVec.add_zero, ha, BitVec.add_sub_cancel, read_write, contextAt,
    Context.resume]
  congr 1
  funext r
  cases r <;> rfl

lemma run_enterUserMode {c : Cpu} {entry sp : Word} (hcs : c.cs = kernelCode) (hesp : 20 ≤ (c.reg .esp).toNat)
    (hentry : readWord c.mem (c.reg .esp + 4) = entry) (hsp : readWord c.mem (c.reg .esp + 8) = sp) :
    c.run enterUserMode =
      { (((c.set .eax (c.withAx userData)).set .ecx entry).set .edx sp).set .esp sp with
        seg := fun _ => userData
        cs := userCode
        ss := userData
        eip := entry
        eflags := 0x202
        mem := push c.mem (c.reg .esp) [0x23, sp, 0x202, 0x1B, entry] } := by
  have hread : ∀ j (hj : j < 5), readWord (push c.mem (c.reg .esp) [0x23, sp, 0x202, 0x1B, entry])
      (c.reg .esp - 20 + BitVec.ofNat 32 (4 * j)) = [entry, 0x1B, 0x202, sp, 0x23][j] := by
    intro j hj
    have haddr : c.reg .esp - 20 + BitVec.ofNat 32 (4 * j) = c.reg .esp - BitVec.ofNat 32 (4 * (4 - j + 1)) := by
      rw [show 4 * (4 - j + 1) = 20 - 4 * j by omega, ← sub_add_ofNat _ (by omega)]
      rfl
    rw [haddr, push_read (by exact hesp) (by exact show 4 - j < 5 by omega)]
    interval_cases j <;> rfl
  have h₀ := hread 0 (by decide)
  have h₁ := hread 1 (by decide)
  have h₂ := hread 2 (by decide)
  have h₃ := hread 3 (by decide)
  have h₄ := hread 4 (by decide)
  rw [enterUserMode, run_append, run_append, run_loadSegments]
  simp only [BitVec.ofNat_eq_ofNat] at hentry hsp
  simp only [push, sub_sub, BitVec.ofNat_eq_ofNat, Nat.reduceMul, BitVec.reduceAdd, BitVec.add_zero,
    List.getElem_cons_zero, List.getElem_cons_succ] at h₀ h₁ h₂ h₃ h₄
  simp only [Cpu.run, List.foldl_cons, List.foldl_nil, Instr.exec, Cpu.pushAll, Cpu.set, Function.update_self,
    ne_eq, reduceCtorEq, not_false_eq_true, Function.update_of_ne, push, List.length_cons, List.length_nil,
      Nat.reduceAdd,
    Nat.reduceMul, BitVec.ofNat_eq_ofNat, hentry, hsp, sub_sub, BitVec.reduceAdd, h₀, h₁, h₂, h₃, h₄, hcs, Cpu.withAx]
  have hdata : selector (c.reg .eax &&& 0xFFFF0000#32 ||| BitVec.setWidth 32 0x23#16) = userData := selector_ax ..
  have hcode : selector 0x1B#32 = userCode := by decide
  have hss : selector 0x23#32 = userData := by decide
  have hrpl : kernelCode.rpl < userCode.rpl := by decide
  have hopen : userData.kernelOnly = false := by decide
  rw [hcode, if_pos hrpl]
  simp only [hdata, hopen, hss]
  congr 1
  funext r
  cases r <;> rfl

/-! ### The calls -/

lemma call_regs (c : Cpu) (a ret : Word) : (c.pushAll [a, ret]).reg .esp = c.reg .esp - 8 :=
  pushAll_esp c [a, ret]

lemma call_reads {c : Cpu} (a ret : Word) (h : 8 ≤ (c.reg .esp).toNat) :
    readWord (c.pushAll [a, ret]).mem (c.reg .esp - 8 + 4) = a ∧
      readWord (c.pushAll [a, ret]).mem (c.reg .esp - 8) = ret := by
  have haddr : c.reg .esp - 8 + 4 = c.reg .esp - 4 := by bv_omega
  rw [haddr]
  exact ⟨@push_read c.mem _ [a, ret] h 0 Nat.two_pos, @push_read c.mem _ [a, ret] h 1 Nat.one_lt_two⟩

section

variable {c : Cpu} {a : Word} (ret : Word) (he : 4 ≤ (c.reg .esp).toNat) (ha : a.toNat + 28 < 2 ^ 32)
include he ha

lemma savedMem_same {lo hi : ℕ} (h₁ : hi ≤ a.toNat ∨ a.toNat + 28 ≤ lo)
    (h₂ : (c.reg .esp).toNat ≤ lo ∨ hi ≤ (c.reg .esp).toNat - 4) : Same lo hi c.mem (c.savedMem a ret) := by
  have h₄ := sub_four he
  have h₂₄ : (a + 24).toNat = a.toNat + 24 := by bv_omega
  have hlt := (c.reg .esp).isLt
  have hsix : Same lo hi c.mem (writeWords c.mem a [c.reg .ebx, c.reg .esi, c.reg .edi, c.reg .ebp, c.reg .esp, ret]) :=
    writeWords_same (by simp only [List.length_cons, List.length_nil]; omega)
      (by simp only [List.length_cons, List.length_nil]; omega)
  exact (hsix.trans (write_same _ (by omega) (by omega))).trans (write_same _ (by omega) (by omega))

lemma savedMem_context (hsep : a.toNat + 28 ≤ (c.reg .esp).toNat - 4 ∨ (c.reg .esp).toNat ≤ a.toNat) :
    contextAt (c.savedMem a ret) a =
      ⟨c.reg .ebx, c.reg .esi, c.reg .edi, c.reg .ebp, c.reg .esp, ret, c.eflags⟩ := by
  have h₄ := sub_four he
  have h₂₄ : (a + 24).toNat = a.toNat + 24 := by bv_omega
  have hlt := (c.reg .esp).isLt
  have hword : ∀ i (hi : i < 6), readWord (c.savedMem a ret) (a + BitVec.ofNat 32 (4 * i)) =
      [c.reg .ebx, c.reg .esi, c.reg .edi, c.reg .ebp, c.reg .esp, ret][i] := by
    intro i hi
    have haddr : (a + BitVec.ofNat 32 (4 * i)).toNat = a.toNat + 4 * i := by
      rw [BitVec.toNat_add, BitVec.toNat_ofNat]
      omega
    rw [Cpu.savedMem, read_write_other _ (by omega) (by omega) (by omega),
      read_write_other _ (by omega) (by omega) (by omega)]
    exact writeWords_read (by simp only [List.length_cons, List.length_nil]; omega) hi
  have hlast : readWord (c.savedMem a ret) (a + 24) = c.eflags := read_write _ _ _
  have hzero : a + BitVec.ofNat 32 (4 * 0) = a := BitVec.add_zero a
  have hfirst := hword 0 (by decide)
  rw [hzero] at hfirst
  generalize c.savedMem a ret = m at hword hlast hfirst
  rw [contextAt, hlast, hfirst, Context.mk.injEq]
  exact ⟨rfl, hword 1 (by decide), hword 2 (by decide), hword 3 (by decide), hword 4 (by decide), hword 5 (by decide),
    rfl⟩

end

structure Saved (c : Cpu) (a ret : Word) (d : Cpu) : Prop where
  context : contextAt d.mem a = ⟨c.reg .ebx, c.reg .esi, c.reg .edi, c.reg .ebp, c.reg .esp - 8, ret, c.eflags⟩
  mem : ∀ lo hi, hi ≤ a.toNat ∨ a.toNat + 28 ≤ lo → (c.reg .esp).toNat ≤ lo ∨ hi ≤ (c.reg .esp).toNat - 12 →
    Same lo hi c.mem d.mem
  zero : d.reg .eax = 0
  esp : d.reg .esp = c.reg .esp - 4
  eip : d.eip = ret
  cs : d.cs = c.cs
  ss : d.ss = c.ss
  seg : d.seg = c.seg
  eflags : d.eflags = c.eflags

lemma call_saveContext {c : Cpu} {a : Word} (ret : Word) (he : 12 ≤ (c.reg .esp).toNat) (ha : a.toNat + 28 < 2 ^ 32)
    (hsep : a.toNat + 28 ≤ (c.reg .esp).toNat - 12 ∨ (c.reg .esp).toNat ≤ a.toNat) :
    Saved c a ret (c.call [a] ret saveContext) := by
  have h₀ : 8 ≤ (c.reg .esp).toNat := by omega
  obtain ⟨harg, hret⟩ := call_reads a ret h₀
  have hesp := call_regs c a ret
  have h₈ : (c.reg .esp - 8).toNat = (c.reg .esp).toNat - 8 := by bv_omega
  have h₄ : (c.reg .esp - 8).toNat + 4 ≤ (c.reg .esp).toNat := by omega
  have hlt : (c.reg .esp).toNat ≤ 2 ^ 32 := (c.reg .esp).isLt.le
  set s := c.pushAll [a, ret] with hs
  have hfive : Same ((c.reg .esp).toNat - 8) (c.reg .esp).toNat s.mem
      (writeWords s.mem a [s.reg .ebx, s.reg .esi, s.reg .edi, s.reg .ebp, s.reg .esp]) :=
    writeWords_same (by simp only [List.length_cons, List.length_nil]; omega)
      (by simp only [List.length_cons, List.length_nil]; omega)
  have hfifth := (hfive.read h₈.ge h₄ hlt).trans hret
  have hrun := @run_saveContext s a ret (by rw [hesp]; exact harg) (by rw [hesp]; exact hfifth)
  have hsaved : ∀ lo hi, hi ≤ a.toNat ∨ a.toNat + 28 ≤ lo → (c.reg .esp).toNat ≤ lo + 8 ∨ hi ≤ (c.reg .esp).toNat - 12 →
      Same lo hi s.mem (s.savedMem a ret) := fun lo hi h₁ h₂ =>
    savedMem_same ret (by rw [hesp]; omega) ha h₁ (by rw [hesp]; omega)
  have hreg : ∀ r, r ≠ .esp → s.reg r = c.reg r := fun r hr => pushAll_reg c _ hr
  change Saved c a ret (s.run saveContext)
  rw [hrun]
  constructor
  · have hcontext := savedMem_context (c := s) ret (by rw [hesp]; omega) ha (by rw [hesp]; omega)
    rw [hesp, hreg _ (by decide), hreg _ (by decide), hreg _ (by decide), hreg _ (by decide)] at hcontext
    exact hcontext
  · intro lo hi h₁ h₂
    have hpush : Same lo hi c.mem s.mem := @push_same c.mem _ lo hi [a, ret] h₀ (by
      change _ ∨ hi ≤ _ - 8
      omega)
    exact hpush.trans (hsaved lo hi h₁ (by omega))
  · rfl
  · change s.reg .esp + 4 = _
    rw [hesp]
    bv_omega
  · change readWord (s.savedMem a ret) (s.reg .esp) = ret
    rw [hesp]
    exact ((hsaved ((c.reg .esp).toNat - 8) (c.reg .esp).toNat (by omega) (by omega)).read h₈.ge h₄ hlt).trans hret
  · rfl
  · rfl
  · rfl
  · rfl

lemma call_restoreContext {c : Cpu} {a : Word} (ret : Word) {k : Context} (he : 8 ≤ (c.reg .esp).toNat)
    (hk : contextAt (push c.mem (c.reg .esp) [a, ret]) a = k) :
    c.call [a] ret restoreContext = k.resume (c.pushAll [a, ret]) := by
  obtain ⟨harg, -⟩ := call_reads a ret he
  exact run_restoreContext (c := c.pushAll [a, ret]) (by rw [call_regs]; exact harg) hk

structure Entering (c : Cpu) (entry sp ret : Word) (d : Cpu) : Prop where
  cs : d.cs = userCode
  ss : d.ss = userData
  seg : d.seg = fun _ => userData
  eip : d.eip = entry
  esp : d.reg .esp = sp
  eflags : d.eflags = 0x202
  mem : d.mem = push c.mem (c.reg .esp) [sp, entry, ret, 0x23, sp, 0x202, 0x1B, entry]

lemma call_enterUserMode {c : Cpu} {entry sp : Word} (ret : Word) (hcs : c.cs = kernelCode)
    (he : 32 ≤ (c.reg .esp).toNat) :
    Entering c entry sp ret (c.call [entry, sp] ret enterUserMode) := by
  have h₁₂ : 12 ≤ (c.reg .esp).toNat := by omega
  have hesp : (c.pushAll [sp, entry, ret]).reg .esp = c.reg .esp - 12 := pushAll_esp c [sp, entry, ret]
  have h₄ : c.reg .esp - 12 + 4 = c.reg .esp - 8 := by bv_omega
  have h₈ : c.reg .esp - 12 + 8 = c.reg .esp - 4 := by bv_omega
  have hentry : readWord (c.pushAll [sp, entry, ret]).mem (c.reg .esp - 8) = entry :=
    @push_read c.mem _ [sp, entry, ret] h₁₂ 1 (by exact (by decide : 1 < 3))
  have hsp : readWord (c.pushAll [sp, entry, ret]).mem (c.reg .esp - 4) = sp :=
    @push_read c.mem _ [sp, entry, ret] h₁₂ 0 (by exact (by decide : 0 < 3))
  have hroom : 20 ≤ ((c.pushAll [sp, entry, ret]).reg .esp).toNat := by
    rw [hesp]
    bv_omega
  have hrun := run_enterUserMode (c := c.pushAll [sp, entry, ret]) hcs hroom (hesp ▸ h₄ ▸ hentry) (hesp ▸ h₈ ▸ hsp)
  change Entering c entry sp ret ((c.pushAll [sp, entry, ret]).run enterUserMode)
  rw [hrun]
  refine ⟨rfl, rfl, rfl, rfl, rfl, rfl, ?_⟩
  change push (push c.mem (c.reg .esp) [sp, entry, ret]) _ _ = _
  rw [hesp]
  exact (push_append c.mem (c.reg .esp) [sp, entry, ret] [0x23, sp, 0x202, 0x1B, entry]).symm

end Trap

end PyroOS
