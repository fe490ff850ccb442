import PyroOS.Memory.Word

/-! The descriptor tables: what `gdt.c`, `idt.c`, `isr_install` and `syscall_install` put into them, and how the
processor reads them. -/

namespace PyroOS

abbrev Selector := BitVec 16

def kernelCode : Selector := 0x08
def kernelData : Selector := 0x10
def userCode : Selector := 0x18 ||| 3
def userData : Selector := 0x20 ||| 3

/-! ### Segments -/

structure GdtEntry where
  limitLow : BitVec 16
  baseLow : BitVec 16
  baseMid : Byte
  access : Byte
  gran : Byte
  baseHigh : Byte
deriving DecidableEq

def setGate (base limit : Word) (access gran : Byte) : GdtEntry where
  baseLow := (base &&& 0xFFFF).setWidth 16
  baseMid := ((base >>> 16) &&& 0xFF).setWidth 8
  baseHigh := ((base >>> 24) &&& 0xFF).setWidth 8
  limitLow := (limit &&& 0xFFFF).setWidth 16
  gran := ((limit >>> 16) &&& 0x0F).setWidth 8 ||| (gran &&& 0xF0)
  access := access

/-- `sizeof(struct tss_entry) - 1` -/
def tssLimit : Word := 103

def gdtInstall (tss : Word) : List GdtEntry :=
  [setGate 0 0 0 0, setGate 0 0xFFFFF 0x9A 0xCF, setGate 0 0xFFFFF 0x92 0xCF, setGate 0 0xFFFFF 0xFA 0xCF,
    setGate 0 0xFFFFF 0xF2 0xCF, setGate tss tssLimit 0x89 0x00]

namespace GdtEntry

def dpl (e : GdtEntry) : ℕ := (e.access >>> 5 &&& 3).toNat

def present (e : GdtEntry) : Bool := e.access.getLsbD 7

end GdtEntry

def Selector.index (s : Selector) : ℕ := (s >>> 3).toNat

def Selector.rpl (s : Selector) : ℕ := (s &&& 3).toNat

def Selector.kernelOnly (s : Selector) : Bool := s.index != 0 && ((gdtInstall 0)[s.index]?).any (·.dpl == 0)

/-! ### Gates -/

structure IdtEntry where
  baseLow : BitVec 16
  sel : Selector
  always0 : Byte
  flags : Byte
  baseHigh : BitVec 16
deriving DecidableEq

def gateTo (base : Word) (sel : Selector) (flags : Byte) : IdtEntry where
  baseLow := (base &&& 0xFFFF).setWidth 16
  baseHigh := ((base >>> 16) &&& 0xFFFF).setWidth 16
  sel := sel
  always0 := 0
  flags := flags

def idtSetGate (idt : Byte → IdtEntry) (num : Byte) (base : Word) (sel : Selector) (flags : Byte) : Byte → IdtEntry :=
  Function.update idt num (gateTo base sel flags)

/-- The 48 gates of exceptions and hardware interrupts, to the stubs that `interrupt.asm` defines. -/
def isrInstall (stub : ℕ → Word) (idt : Byte → IdtEntry) : Byte → IdtEntry :=
  (List.range 48).foldl (fun t i => idtSetGate t (BitVec.ofNat 8 i) (stub i) 0x08 0x8E) idt

def idtInstall (stub : ℕ → Word) (idt : Byte → IdtEntry) : Byte → IdtEntry :=
  isrInstall stub ((List.range 256).foldl (fun t i => idtSetGate t (BitVec.ofNat 8 i) 0 0 0) idt)

def syscallInstall (stub : ℕ → Word) (idt : Byte → IdtEntry) : Byte → IdtEntry :=
    idtSetGate idt 0x80 (stub 128) 0x08 0xEE

namespace IdtEntry

def offset (e : IdtEntry) : Word := e.baseHigh ++ e.baseLow

def present (e : IdtEntry) : Bool := e.flags.getLsbD 7

def dpl (e : IdtEntry) : ℕ := (e.flags >>> 5 &&& 3).toNat

def interruptGate (e : IdtEntry) : Bool := e.flags &&& 0x1F == 0x0E

end IdtEntry

inductive Vectoring where
  | enter (sel : Selector) (offset : Word)
  | fault (vector : ℕ) (code : Word)
deriving DecidableEq

/-- `int n` at privilege level `cpl`: the gate's type and level are checked before its presence. -/
def softInt (idt : Byte → IdtEntry) (cpl : ℕ) (n : Byte) : Vectoring :=
  let e := idt n
  let code := n.setWidth 32 * 8 + 2
  if ¬ e.interruptGate ∨ e.dpl < cpl then .fault 13 code
  else if ¬ e.present then .fault 11 code
  else .enter e.sel e.offset

/-! ### Reading back -/

lemma mask_low (w : Word) : (w &&& 0xFFFF).setWidth 16 = w.setWidth 16 := by
  rw [BitVec.setWidth_and]
  exact BitVec.and_allOnes

section

variable (base : Word) (sel : Selector) (access : Byte)

lemma gateTo_offset : (gateTo base sel access).offset = base := by
  apply BitVec.eq_of_getLsbD_eq
  intro i hi
  simp only [gateTo, IdtEntry.offset, mask_low, BitVec.getLsbD_append, BitVec.getLsbD_setWidth,
    BitVec.getLsbD_ushiftRight]
  by_cases h₁ : i < 16
  · simp [h₁]
  · simp [h₁, show i - 16 < 16 by omega, show 16 + (i - 16) = i by omega]

end

lemma gates_set (gate : ℕ → IdtEntry) (idt : Byte → IdtEntry) {n : ℕ} (hn : n ≤ 256) (x : Byte) :
    (List.range n).foldl (fun t i => Function.update t (BitVec.ofNat 8 i) (gate i)) idt x =
      if x.toNat < n then gate x.toNat else idt x := by
  induction n with
  | zero => rfl
  | succ n ih =>
    rw [List.range_succ, List.foldl_append, List.foldl_cons, List.foldl_nil]
    by_cases hx : x.toNat = n
    · have hxn : x = BitVec.ofNat 8 n := by
        apply BitVec.eq_of_toNat_eq
        rw [BitVec.toNat_ofNat, hx]
        omega
      rw [hxn, Function.update_self, ← hxn, if_pos (by omega), hx]
    · have hxn : x ≠ BitVec.ofNat 8 n := by
        rintro rfl
        rw [BitVec.toNat_ofNat] at hx
        omega
      rw [Function.update_of_ne hxn, ih (by omega)]
      exact if_congr (by omega) rfl rfl

lemma idt_eq (stub : ℕ → Word) (idt : Byte → IdtEntry) (n : Byte) :
    syscallInstall stub (idtInstall stub idt) n =
      if n = 0x80 then gateTo (stub 128) kernelCode 0xEE
      else if n.toNat < 48 then gateTo (stub n.toNat) kernelCode 0x8E else gateTo 0 0 0 := by
  by_cases hn : n = 0x80
  · rw [if_pos hn, hn, syscallInstall, idtSetGate, Function.update_self]
    rfl
  · have hfirst := gates_set (fun i => gateTo (stub i) kernelCode 0x8E)
      ((List.range 256).foldl (fun t i => idtSetGate t (BitVec.ofNat 8 i) 0 0 0) idt) (show 48 ≤ 256 by decide) n
    have hempty := gates_set (fun _ => gateTo 0 0 0) idt le_rfl n
    rw [if_pos n.isLt] at hempty
    rw [if_neg hn, syscallInstall, idtSetGate, Function.update_of_ne hn]
    exact hfirst.trans (if_congr Iff.rfl rfl hempty)

lemma user_int (stub : ℕ → Word) (idt : Byte → IdtEntry) (n : Byte) :
    softInt (syscallInstall stub (idtInstall stub idt)) 3 n =
      if n = 0x80 then .enter kernelCode (stub 128) else .fault 13 (n.setWidth 32 * 8 + 2) := by
  have hentry := idt_eq stub idt n
  by_cases h₁ : n = 0x80
  · rw [if_pos h₁] at hentry ⊢
    have hok : ¬ (¬ (gateTo (stub 128) kernelCode 0xEE).interruptGate ∨ (gateTo (stub 128) kernelCode 0xEE).dpl < 3) := by
      simp only [IdtEntry.interruptGate, IdtEntry.dpl, gateTo]
      decide
    have hpresent : ¬ ¬ (gateTo (stub 128) kernelCode 0xEE).present := by
      simp only [IdtEntry.present, gateTo]
      decide
    rw [softInt, hentry, if_neg hok, if_neg hpresent, gateTo_offset]
    rfl
  rw [if_neg h₁] at hentry ⊢
  rw [softInt]
  refine if_pos ?_
  rw [hentry]
  split
  · refine .inr ?_
    simp only [IdtEntry.dpl, gateTo]
    decide
  · refine .inl ?_
    simp only [IdtEntry.interruptGate, gateTo]
    decide

end PyroOS
