import PyroOS.Trap.Frame
import Mathlib.Data.Set.Function
import Mathlib.Logic.Relation

/-! Traps that nest: whatever happens in between, the way out of a trap resumes the code that the way in has
interrupted. -/

namespace PyroOS

namespace Trap

open ByteMemory

/-- The addresses that the linker chooses: the stack in `gdt.c`, the stack in `kernel_entry.asm`, the two contexts of a
launch, and the stubs. The kernel ends below the user zone. -/
structure Layout where
  tss : KernelStack
  boot : KernelStack
  kernelCtx : Word
  recoveryCtx : Word
  stub : ℕ → Word
  tss_size : tss.low + 8192 = tss.top.toNat
  boot_size : boot.low + 16384 = boot.top.toNat
  apart : [(tss.low, tss.top.toNat), (boot.low, boot.top.toNat), (kernelCtx.toNat, kernelCtx.toNat + 28),
    (recoveryCtx.toNat, recoveryCtx.toNat + 28)].Pairwise fun r s => r.2 ≤ s.1 ∨ s.2 ≤ r.1
  below : tss.top.toNat ≤ 0x80000 ∧ boot.top.toNat ≤ 0x80000 ∧ kernelCtx.toNat + 28 ≤ 0x80000 ∧
    recoveryCtx.toNat + 28 ≤ 0x80000
  above : 0x10000 ≤ tss.low ∧ 0x10000 ≤ boot.low
  stub_inj : {n | n < 48 ∨ n = 128}.InjOn stub

def Layout.idt (L : Layout) : Byte → IdtEntry := syscallInstall L.stub (idtInstall L.stub fun _ => gateTo 0 0 0)

structure Level where
  cpu : Cpu
  vector : ℕ
  err : Word

structure Machine where
  cpu : Cpu
  levels : List Level

section

variable (L : Layout)

def Level.frame (l : Level) : Word := l.cpu.frame L.tss

def Level.base (l : Level) : Word := (l.cpu.onStack L.tss).reg .esp

def Level.entered (l : Level) : Mem := push l.cpu.mem (l.base L) (l.cpu.pushed L.tss l.vector l.err)

def Layout.stack : List Level → KernelStack
  | [] => L.boot
  | l :: ls => if l.cpu.user then L.tss else Layout.stack ls

/-- The part of the stack that is in use when the handler for `l` begins. The handler of a system call owns the slot of
`eax` in it. -/
def Layout.Held (l : Level) (ls : List Level) (x : Word) : Prop :=
  (l.frame L).toNat ≤ x.toNat ∧ x.toNat < (L.stack (l :: ls)).top.toNat ∧
    (l.vector = 128 → ¬ ((l.frame L).toNat + 32 ≤ x.toNat ∧ x.toNat < (l.frame L).toNat + 36))

def Layout.inContext (x : Word) : Prop :=
  L.kernelCtx.toNat ≤ x.toNat ∧ x.toNat < L.kernelCtx.toNat + 28 ∨
    L.recoveryCtx.toNat ≤ x.toNat ∧ x.toNat < L.recoveryCtx.toNat + 28

def Layout.Foreign (ls : List Level) (x : Word) : Prop :=
  L.inContext x ∨ L.stack ls = L.tss ∧ L.boot.low ≤ x.toNat ∧ x.toNat < L.boot.top.toNat

inductive Works : List Level → Cpu → Cpu → Prop
  | user {c c' : Cpu} : c.cs = userCode → c'.cs = userCode → (∀ s, (c'.seg s).kernelOnly = false) →
      (∀ x, x.toNat < 0x80000 → c'.mem x = c.mem x) → Works [] c c'
  | kernel {c c' : Cpu} : c.cs = kernelCode → c'.cs = kernelCode → (c'.reg .esp).toNat ≤ L.boot.top.toNat →
    Works [] c c'
  | handler {l : Level} {ls : List Level} {c c' : Cpu} : c'.cs = c.cs → c'.ss = c.ss → c'.seg = c.seg →
      (c'.reg .esp).toNat + 4 ≤ (l.frame L).toNat →
      (∀ x, L.Held l ls x ∨ L.Foreign (l :: ls) x → c'.mem x = c.mem x) → Works (l :: ls) c c'

/-- The traps that can happen. The kernel itself executes `int 0x80` only; a program in ring 3 can execute any `int`. -/
inductive Raised (c : Cpu) : ℕ → Word → Prop
  | exception {n : ℕ} {err : Word} : n < 32 → Raised c n err
  | irq {n : ℕ} : 32 ≤ n → n < 48 → c.eflags &&& flagIf ≠ 0 → Raised c n 0
  | syscall : c.cs = kernelCode → Raised c 128 0
  | int {k : Byte} {sel : Selector} {n : ℕ} : c.cs = userCode → n < 48 ∨ n = 128 →
      softInt L.idt 3 k = .enter sel (L.stub n) → Raised c n 0
  | intFault {k : Byte} {n : ℕ} {err : Word} : c.cs = userCode → softInt L.idt 3 k = .fault n err → Raised c n err

inductive Step : Machine → Machine → Prop
  | work {c c' : Cpu} {ls : List Level} : Works L ls c c' → Step ⟨c, ls⟩ ⟨c', ls⟩
  | trap {c : Cpu} {ls : List Level} {n : ℕ} {err : Word} : Raised L c n err →
      (L.stack (⟨c, n, err⟩ :: ls)).low + 72 ≤ (Level.base L ⟨c, n, err⟩).toNat →
      Step ⟨c, ls⟩ ⟨enter L.tss c n err, ⟨c, n, err⟩ :: ls⟩
  | back {c : Cpu} {l : Level} {ls : List Level} : c.reg .esp = l.frame L - 4 → Step ⟨c, l :: ls⟩ ⟨leave c, ls⟩

def Home (c : Cpu) : Prop :=
  c.cs = userCode ∧ (∀ s, (c.seg s).kernelOnly = false) ∨ c.cs = kernelCode ∧ (c.reg .esp).toNat ≤ L.boot.top.toNat

structure Handling (l : Level) (ls : List Level) (c : Cpu) : Prop where
  vector : l.vector < 48 ∨ l.vector = 128
  room : (L.stack (l :: ls)).low + 72 ≤ (l.base L).toNat
  top : (l.base L).toNat ≤ (L.stack (l :: ls)).top.toNat
  cs : c.cs = kernelCode
  ss : c.ss = if l.cpu.user then kernelData else l.cpu.ss
  seg : c.seg = fun _ => kernelData
  esp : (c.reg .esp).toNat + 4 ≤ (l.frame L).toNat
  mem : ∀ x, L.Held l ls x → c.mem x = l.entered L x

inductive Nested : Cpu → List Level → Prop
  | home {c : Cpu} : Home L c → Nested c []
  | level {c : Cpu} {l : Level} {ls : List Level} : Nested l.cpu ls → Handling L l ls c → Nested c (l :: ls)

end

variable {L : Layout} {c c' : Cpu} {l : Level} {ls : List Level}

lemma user_of_userCode (h : c.cs = userCode) : c.user = true := by
  rw [Cpu.user, h]
  decide

lemma user_of_kernelCode (h : c.cs = kernelCode) : c.user = false := by
  rw [Cpu.user, h]
  decide

lemma base_user (h : l.cpu.user = true) : l.base L = L.tss.top := by
  simp only [Level.base, Cpu.onStack, h, if_true, Cpu.set, Function.update_self]

lemma base_kernel (h : l.cpu.user = false) : l.base L = l.cpu.reg .esp := by
  rw [Level.base, Cpu.onStack, h]
  rfl

lemma stack_user (h : l.cpu.user = true) (ls : List Level) : L.stack (l :: ls) = L.tss := if_pos h

lemma stack_kernel (h : l.cpu.user = false) (ls : List Level) : L.stack (l :: ls) = L.stack ls := by
  rw [Layout.stack, h]
  rfl

lemma frame_toNat (h : 72 ≤ (l.base L).toNat) :
    (l.frame L).toNat = (l.base L).toNat - if l.cpu.user then 64 else 56 := by
  rw [Level.frame, Cpu.frame, ← Level.base]
  generalize l.base L = e at h ⊢
  split <;> bv_omega

lemma Handling.frame_le (h : Handling L l ls c) : 8 ≤ (l.frame L).toNat ∧ (l.frame L).toNat + 56 ≤ (l.base L).toNat := by
  have hroom := h.room
  rw [frame_toNat (by omega)]
  split <;> omega

namespace Nested

lemma ring (h : Nested L c ls) : c.cs = userCode ∧ ls = [] ∧ (∀ s, (c.seg s).kernelOnly = false) ∨ c.cs = kernelCode := by
  cases h with
  | home h =>
    obtain ⟨hcs, hseg⟩ | ⟨hcs, -⟩ := h
    · exact .inl ⟨hcs, rfl, hseg⟩
    · exact .inr hcs
  | level _ h => exact .inr h.cs

lemma base_le (h : Nested L c ls) (n : ℕ) (err : Word) :
    (Level.base L ⟨c, n, err⟩).toNat ≤ (L.stack (⟨c, n, err⟩ :: ls)).top.toNat := by
  obtain ⟨hcs, -⟩ | hcs := h.ring
  · rw [base_user (user_of_userCode hcs), stack_user (user_of_userCode hcs)]
  · rw [base_kernel (user_of_kernelCode hcs), stack_kernel (user_of_kernelCode hcs)]
    cases h with
    | home h =>
      obtain ⟨huser, -⟩ | ⟨-, hesp⟩ := h
      · exact absurd (huser.symm.trans hcs) (by decide)
      · exact hesp
    | level _ h =>
      have hframe := h.frame_le
      have hesp := h.esp
      have htop := h.top
      change (c.reg .esp).toNat ≤ _
      omega

end Nested

lemma Raised.vector {n : ℕ} {err : Word} (h : Raised L c n err) : n < 48 ∨ n = 128 := by
  cases h with
  | exception hn => exact .inl (by omega)
  | irq _ hn _ => exact .inl hn
  | syscall _ => exact .inr rfl
  | int _ hn _ => exact hn
  | @intFault k _ _ _ hk =>
    have huser := user_int L.stub (fun _ => gateTo 0 0 0) k
    rw [Layout.idt, huser] at hk
    split at hk
    · cases hk
    · cases hk
      exact .inl (by decide)

lemma Works.nested (h : Works L ls c c') (hc : Nested L c ls) : Nested L c' ls := by
  cases h with
  | user hcs hcs' hseg _ => exact .home (.inl ⟨hcs', hseg⟩)
  | kernel hcs hcs' hesp => exact .home (.inr ⟨hcs', hesp⟩)
  | handler hcs hss hseg hesp hmem =>
    cases hc with
    | level hl h =>
      refine .level hl ⟨h.vector, h.room, h.top, hcs.trans h.cs, hss.trans h.ss, hseg.trans h.seg, hesp, fun x hx => ?_⟩
      exact (hmem x (.inl hx)).trans (h.mem x hx)

lemma trap_nested {n : ℕ} {err : Word} (hc : Nested L c ls) (h : Raised L c n err)
    (hroom : (L.stack (⟨c, n, err⟩ :: ls)).low + 72 ≤ (Level.base L ⟨c, n, err⟩).toNat) :
    Nested L (enter L.tss c n err) (⟨c, n, err⟩ :: ls) := by
  have he := enter_entered L.tss c n err
  have hframe := frame_toNat (L := L) (l := ⟨c, n, err⟩) (by omega)
  refine .level hc ⟨h.vector, hroom, hc.base_le n err, he.cs, he.ss, he.seg, ?_, fun x _ => congrFun he.mem x⟩
  have hesp : (enter L.tss c n err).reg .esp = Level.frame L ⟨c, n, err⟩ - 4 := he.esp
  have hle : 8 ≤ (Level.frame L ⟨c, n, err⟩).toNat := by
    rw [hframe]
    split <;> omega
  rw [hesp, sub_four (by omega)]
  omega

lemma Handling.same (h : Handling L l ls c) : Same (l.base L).toNat (L.stack (l :: ls)).top.toNat l.cpu.mem c.mem := by
  intro x hx hx'
  have hframe := h.frame_le
  have hroom := h.room
  have hlen : (l.cpu.pushed L.tss l.vector l.err).length ≤ 17 := by
    rw [pushed_length, words_length]
    split <;> omega
  have hheld : L.Held l ls x := ⟨by omega, hx', by omega⟩
  exact (h.mem x hheld).trans (push_same (by omega) (.inl le_rfl) x hx hx')

lemma Handling.frameIn (h : Handling L l ls c) : l.cpu.FrameIn L.tss l.vector l.err c.mem := by
  intro j hj hne
  have hframe := h.frame_le
  have hroom := h.room
  have htop := h.top
  have hlen := words_length l.cpu L.tss l.vector l.err
  have hbase := frame_toNat (L := L) (l := l) (by omega)
  have hword : (l.frame L).toNat + 4 * (l.cpu.words L.tss l.vector l.err).length = (l.base L).toNat := by
    rw [hlen, hbase]
    split <;> omega
  have hlt := (l.base L).isLt
  have haddr : (l.frame L + BitVec.ofNat 32 (4 * j)).toNat = (l.frame L).toNat + 4 * j := by
    rw [BitVec.toNat_add, BitVec.toNat_ofNat]
    omega
  have hsame : Same ((l.frame L).toNat + 4 * j) ((l.frame L).toNat + 4 * j + 4) (l.entered L) c.mem := by
    intro x hx hx'
    refine h.mem x ⟨by omega, by omega, fun hv => ?_⟩
    have := hne hv
    omega
  have hread := hsame.read (a := l.frame L + BitVec.ofNat 32 (4 * j)) (by omega) (by omega) (by omega)
  refine hread.trans (frameIn_push l.cpu.mem ?_ j hj hne)
  change _ ≤ (l.base L).toNat
  rw [hlen]
  split <;> omega

lemma Handling.leave (hl : Nested L l.cpu ls) (h : Handling L l ls c) (hesp : c.reg .esp = l.frame L - 4) :
    leave c = l.cpu.resumed (if l.vector = 128 then readWord c.mem (l.frame L + 32) else l.cpu.reg .eax) c.mem := by
  refine leave_resumed ?_ h.cs hesp h.frameIn
  have hss := h.ss
  obtain ⟨hcs, -, hseg⟩ | hcs := hl.ring
  · exact .inl ⟨hcs, hseg .ds⟩
  · rw [user_of_kernelCode hcs] at hss
    exact .inr ⟨hcs, hss⟩

lemma back_nested (hc : Nested L c (l :: ls)) (hesp : c.reg .esp = l.frame L - 4) : Nested L (leave c) ls := by
  cases hc with
  | level hl h =>
    rw [h.leave hl hesp]
    have hsame := h.same
    cases hl with
    | home hhome =>
      obtain ⟨hcs, hseg⟩ | ⟨hcs, hsp⟩ := hhome
      · exact .home (.inl ⟨hcs, fun _ => hseg .ds⟩)
      · exact .home (.inr ⟨hcs, hsp⟩)
    | level hl' h' =>
      have hkernel := user_of_kernelCode h'.cs
      rw [base_kernel hkernel, stack_kernel hkernel] at hsame
      refine .level hl' ⟨h'.vector, h'.room, h'.top, h'.cs, h'.ss, ?_, h'.esp, fun x hx => ?_⟩
      · funext s
        exact congrFun h'.seg .ds
      · have hsp := h'.esp
        exact (hsame x (by have := hx.1; omega) hx.2.1).trans (h'.mem x hx)

lemma Step.nested {M M' : Machine} (h : Step L M M') (hM : Nested L M.cpu M.levels) : Nested L M'.cpu M'.levels := by
  cases h with
  | work h => exact h.nested hM
  | trap h hroom => exact trap_nested hM h hroom
  | back hesp => exact back_nested hM hesp

def Runs (L : Layout) : Machine → Machine → Prop := Relation.ReflTransGen (Step L)

lemma Runs.nested {M M' : Machine} (h : Runs L M M') (hM : Nested L M.cpu M.levels) : Nested L M'.cpu M'.levels := by
  induction h with
  | refl => exact hM
  | tail _ hstep ih => exact hstep.nested ih

/-- At every return of every run, the code that the matching trap has interrupted goes on as it was: in the same ring, at
the same instruction, with its flags, its stack and all its registers. Only a system call hands back another `eax`, and
`es`, `fs` and `gs` come back as `ds`. Kernel code also finds its stack unchanged. -/
theorem return_resumes {c₀ : Cpu} (h₀ : Home L c₀) (hrun : Runs L ⟨c₀, []⟩ ⟨c, l :: ls⟩)
    (hesp : c.reg .esp = l.frame L - 4) :
    (leave c).cs = l.cpu.cs ∧ (leave c).ss = l.cpu.ss ∧ (leave c).eip = l.cpu.eip ∧ (leave c).eflags = l.cpu.eflags ∧
      (∀ r, r ≠ .eax ∨ l.vector ≠ 128 → (leave c).reg r = l.cpu.reg r) ∧ (∀ s, (leave c).seg s = l.cpu.seg .ds) ∧
      (leave c).mem = c.mem ∧ Same (l.base L).toNat (L.stack (l :: ls)).top.toNat l.cpu.mem c.mem := by
  cases hrun.nested (.home h₀) with
  | level hl h =>
    rw [h.leave hl hesp]
    refine ⟨rfl, rfl, rfl, rfl, fun r hr => ?_, fun _ => rfl, rfl, h.same⟩
    obtain hr | hv := hr
    · exact Function.update_of_ne hr _ _
    · rw [if_neg hv]
      exact congrFun (Function.update_eq_self _ _) r

def Layout.sample : Layout where
  tss := ⟨0x10000, 0x12000⟩
  boot := ⟨0x12000, 0x16000⟩
  kernelCtx := 0x16000
  recoveryCtx := 0x16020
  stub n := BitVec.ofNat 32 n
  tss_size := by decide
  boot_size := by decide
  apart := by decide
  below := by decide
  above := by decide
  stub_inj := by
    intro a (ha : a < 48 ∨ a = 128) b (hb : b < 48 ∨ b = 128) h
    have hnat := congrArg BitVec.toNat h
    rw [BitVec.toNat_ofNat, BitVec.toNat_ofNat] at hnat
    omega

def Cpu.sample : Cpu where
  reg r := if r = .esp then 0x16000 else 0
  seg _ := kernelData
  cs := kernelCode
  ss := kernelData
  eip := 0x20000
  eflags := 0x202
  mem _ := 0

theorem return_resumes_timer :
    (leave (enter Layout.sample.tss Cpu.sample 32 0)).eip = 0x20000 := by
  have hrun : Runs .sample ⟨Cpu.sample, []⟩ ⟨enter Layout.sample.tss Cpu.sample 32 0, [⟨Cpu.sample, 32, 0⟩]⟩ :=
    .single (.trap (.irq (by decide) (by decide) (by decide)) (by decide))
  exact (return_resumes (.inr ⟨rfl, by decide⟩) hrun (enter_entered _ _ _ _).esp).2.2.1

end Trap

end PyroOS
