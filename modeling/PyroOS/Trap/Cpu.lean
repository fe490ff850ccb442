import PyroOS.Library.ByteMemory
import PyroOS.Trap.Descriptors

/-! The processor as far as `interrupt.asm` and `ring3.asm` use it, the interrupt stubs, and the frame that they build
for the handlers. -/

namespace PyroOS

namespace Trap

open ByteMemory

inductive Reg where
  | eax | ecx | edx | ebx | esp | ebp | esi | edi
deriving DecidableEq

inductive Seg where
  | ds | es | fs | gs
deriving DecidableEq

structure Cpu where
  reg : Reg → Word
  seg : Seg → Selector
  cs : Selector
  ss : Selector
  eip : Word
  eflags : Word
  mem : Mem

def flagIf : Word := 0x200

def selector (w : Word) : Selector := w.setWidth 16

namespace Cpu

def user (c : Cpu) : Bool := c.cs.rpl == 3

def set (c : Cpu) (r : Reg) (w : Word) : Cpu := { c with reg := Function.update c.reg r w }

def load (c : Cpu) (s : Seg) (v : Selector) : Cpu := { c with seg := Function.update c.seg s v }

def pushAll (c : Cpu) (ws : List Word) : Cpu :=
  { c.set .esp (c.reg .esp - BitVec.ofNat 32 (4 * ws.length)) with mem := push c.mem (c.reg .esp) ws }

def withAx (c : Cpu) (v : Selector) : Word := c.reg .eax &&& 0xFFFF0000 ||| v.setWidth 32

end Cpu

inductive Instr where
  | cli
  | pushImm (w : Word)
  | push (r : Reg)
  | pop (r : Reg)
  | pusha
  | popa
  | movAxSeg (s : Seg) -- `mov ax, seg`
  | movAxImm (v : Selector) -- `mov ax, imm16`
  | movSegAx (s : Seg) -- `mov seg, ax`
  | mov (r from' : Reg)
  | movImm (r : Reg) (w : Word)
  | add (r : Reg) (w : Word)
  | clear (r : Reg) -- `xor r, r`
  | fetch (r base : Reg) (offset : Word) -- `mov r, [base + offset]`
  | store (base : Reg) (offset : Word) (r : Reg) -- `mov [base + offset], r`
  | pushf
  | popf
  | jmp (r : Reg)
  | ret
  | iret

def Instr.exec (c : Cpu) : Instr → Cpu
  | .cli => { c with eflags := c.eflags &&& ~~~flagIf }
  | .pushImm w => c.pushAll [w]
  | .push r => c.pushAll [c.reg r]
  | .pop r => (c.set .esp (c.reg .esp + 4)).set r (readWord c.mem (c.reg .esp))
  | .pusha => c.pushAll [c.reg .eax, c.reg .ecx, c.reg .edx, c.reg .ebx, c.reg .esp, c.reg .ebp, c.reg .esi, c.reg .edi]
  | .popa =>
    let sp := c.reg .esp
    -- the saved `esp` is skipped
    { c with reg := fun
        | .edi => readWord c.mem sp
        | .esi => readWord c.mem (sp + 4)
        | .ebp => readWord c.mem (sp + 8)
        | .ebx => readWord c.mem (sp + 16)
        | .edx => readWord c.mem (sp + 20)
        | .ecx => readWord c.mem (sp + 24)
        | .eax => readWord c.mem (sp + 28)
        | .esp => sp + 32 }
  | .movAxSeg s => c.set .eax (c.withAx (c.seg s))
  | .movAxImm v => c.set .eax (c.withAx v)
  | .movSegAx s => c.load s (selector (c.reg .eax))
  | .mov r r' => c.set r (c.reg r')
  | .movImm r w => c.set r w
  | .add r w => c.set r (c.reg r + w)
  | .clear r => c.set r 0
  | .fetch r base offset => c.set r (readWord c.mem (c.reg base + offset))
  | .store base offset r => { c with mem := writeWord c.mem (c.reg base + offset) (c.reg r) }
  | .pushf => c.pushAll [c.eflags]
  | .popf => { c.set .esp (c.reg .esp + 4) with eflags := readWord c.mem (c.reg .esp) }
  | .jmp r => { c with eip := c.reg r }
  | .ret => { c.set .esp (c.reg .esp + 4) with eip := readWord c.mem (c.reg .esp) }
  | .iret =>
    let sp := c.reg .esp
    let cs := selector (readWord c.mem (sp + 4))
    let c' := { c with eip := readWord c.mem sp, cs := cs, eflags := readWord c.mem (sp + 8) }
    if c.cs.rpl < cs.rpl then
      -- the return to ring 3 also pops the stack, and drops segments that ring 3 may not use
      { c'.set .esp (readWord c.mem (sp + 12)) with
        ss := selector (readWord c.mem (sp + 16))
        seg := fun s => if (c.seg s).kernelOnly then 0 else c.seg s }
    else c'.set .esp (sp + 12)

def Cpu.run (c : Cpu) (code : List Instr) : Cpu := code.foldl Instr.exec c

/-! ### Entry -/

/-- The stack that traps from ring 3 switch to, `tss.esp0`, or the one that the kernel is running on. -/
structure KernelStack where
  low : ℕ
  top : Word

def pushesError (n : ℕ) : Bool := n ∈ [8, 10, 11, 12, 13, 14, 17]

/-- The flags that an interrupt gate clears: IF, TF, NT, RF and VM. -/
def gateFlags : Word := 0x34300

def Cpu.trapFrame (c : Cpu) (n : ℕ) (err : Word) : List Word :=
  (if c.user then [c.ss.setWidth 32, c.reg .esp] else []) ++ [c.eflags, c.cs.setWidth 32, c.eip] ++
    if pushesError n then [err] else []

def Cpu.onStack (c : Cpu) (K : KernelStack) : Cpu := if c.user then { c.set .esp K.top with ss := kernelData } else c

def Cpu.gate (c : Cpu) : Cpu := { c with cs := kernelCode, eflags := c.eflags &&& ~~~gateFlags }

def deliver (K : KernelStack) (c : Cpu) (n : ℕ) (err : Word) : Cpu := ((c.onStack K).pushAll (c.trapFrame n err)).gate

def isrNoErrcode (n : ℕ) : List Instr := [.cli, .pushImm 0, .pushImm (BitVec.ofNat 32 n)]
def isrErrcode (n : ℕ) : List Instr := [.cli, .pushImm (BitVec.ofNat 32 n)]

/-- `isr0` .. `isr31`, `irq0` .. `irq15` on 32 .. 47, and `isr128`, up to the common part. -/
def stub (n : ℕ) : List Instr :=
  if n = 128 then [.pushImm 0, .pushImm 128]
  else if n ∈ [8, 10, 11, 12, 13, 14, 17] then isrErrcode n
  else isrNoErrcode n

def loadSegments : List Instr := [.movSegAx .ds, .movSegAx .es, .movSegAx .fs, .movSegAx .gs]

/-- The common part up to the call of the handler: `isr_handler`, `irq_handler` or `syscall_handler`. -/
def commonEntry : List Instr :=
  ([.pusha, .movAxSeg .ds, .push .eax, .movAxImm 0x10] : List Instr) ++
    (loadSegments ++ ([.mov .eax .esp, .push .eax] : List Instr))

def commonExit : List Instr := ([.add .esp 4, .pop .eax] : List Instr) ++
    (loadSegments ++ ([.popa, .add .esp 8, .iret] : List Instr))

def enter (K : KernelStack) (c : Cpu) (n : ℕ) (err : Word) : Cpu := (deliver K c n err).run (stub n ++ commonEntry)

def leave (c : Cpu) : Cpu := c.run commonExit

/-! ### The frame -/

/-- `registers_t` -/
structure Registers where
  ds : Word
  edi : Word
  esi : Word
  ebp : Word
  esp : Word
  ebx : Word
  edx : Word
  ecx : Word
  eax : Word
  intNo : Word
  errCode : Word
  eip : Word
  cs : Word
  eflags : Word
  useresp : Word
  ss : Word

def registersAt (m : Mem) (p : Word) : Registers where
  ds := readWord m p
  edi := readWord m (p + 4)
  esi := readWord m (p + 8)
  ebp := readWord m (p + 12)
  esp := readWord m (p + 16)
  ebx := readWord m (p + 20)
  edx := readWord m (p + 24)
  ecx := readWord m (p + 28)
  eax := readWord m (p + 32)
  intNo := readWord m (p + 36)
  errCode := readWord m (p + 40)
  eip := readWord m (p + 44)
  cs := readWord m (p + 48)
  eflags := readWord m (p + 52)
  useresp := readWord m (p + 56)
  ss := readWord m (p + 60)

def Registers.resume (r : Registers) (p : Word) (c : Cpu) : Cpu where
  reg
    | .eax => r.eax
    | .ecx => r.ecx
    | .edx => r.edx
    | .ebx => r.ebx
    | .ebp => r.ebp
    | .esi => r.esi
    | .edi => r.edi
    | .esp => if 0 < (selector r.cs).rpl then r.useresp else p + 56
  seg _ := if 0 < (selector r.cs).rpl ∧ (selector r.ds).kernelOnly then 0 else selector r.ds
  cs := selector r.cs
  ss := if 0 < (selector r.cs).rpl then selector r.ss else c.ss
  eip := r.eip
  eflags := r.eflags
  mem := c.mem

lemma run_loadSegments (c : Cpu) : c.run loadSegments = { c with seg := fun _ => selector (c.reg .eax) } := by
  simp only [loadSegments, Cpu.run, List.foldl_cons, List.foldl_nil, Instr.exec, Cpu.load]
  congr 1
  funext s
  cases s <;> simp

lemma run_append (c : Cpu) (xs ys : List Instr) : c.run (xs ++ ys) = (c.run xs).run ys := List.foldl_append

lemma leave_eq {c : Cpu} (hcs : c.cs = kernelCode) :
    leave c = (registersAt c.mem (c.reg .esp + 4)).resume (c.reg .esp + 4) c := by
  have hrpl : kernelCode.rpl = 0 := by decide
  rw [leave, commonExit, run_append, run_append, run_loadSegments]
  simp only [Cpu.run, List.foldl_cons, List.foldl_nil, Instr.exec, Cpu.set, Function.update_self, hcs, hrpl]
  generalize c.reg .esp + 4 = p
  have h₈ : Function.update (Function.update (Function.update c.reg .esp p) .esp (p + 4)) .eax
    (readWord c.mem p) .esp = p + 4 := by
    simp
  simp only [h₈, BitVec.add_assoc, BitVec.reduceAdd]
  by_cases houter : 0 < (selector (readWord c.mem (p + 48#32))).rpl
  · rw [if_pos houter]
    simp only [Registers.resume, registersAt, BitVec.ofNat_eq_ofNat, houter, true_and, if_true]
    congr 1
    funext r
    cases r <;> rfl
  · rw [if_neg houter]
    simp only [Registers.resume, registersAt, BitVec.ofNat_eq_ofNat, houter, false_and, if_false]
    congr 1
    funext r
    cases r <;> rfl

end Trap

end PyroOS
