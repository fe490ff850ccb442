import PyroOS.Library.Interaction
import PyroOS.Memory.Word

/-! What kernel code asks of the machine, and how the machine answers. -/

namespace PyroOS

open Interaction

abbrev Sector := Fin 512 → Byte
abbrev Disk := ℕ → Sector

/-- Bytes at addresses that a caller supplied (`load`, `store`), bytes of video memory (`peek`,
`poke`), transfers of one sector, the timer and the keyboard. Nothing follows a `hang`. -/
inductive Req where
  | load (a : Word)
  | store (a : Word) (b : Byte)
  | peek (a : Word)
  | poke (a : Word) (b : Byte)
  | ataRead (lba : Word)
  | ataWrite (lba : Word) (sector : Sector)
  | ticks
  | waitTicks (target : Word)
  | getchar
  | hang

abbrev Req.Reply : Req → Type
  | .load _ | .peek _ => Byte
  | .store _ _ | .poke _ _ | .waitTicks _ => Unit
  | .ataRead _ => Option Sector
  | .ataWrite _ _ => Bool
  | .ticks | .getchar => Word
  | .hang => Empty

abbrev Kernel := Prog Req Req.Reply

structure World where
  mem : Word → Byte
  disk : Disk
  clock : Word
  key : Word

def ataSelect (lba : Word) : Byte × Byte × Byte × Byte :=
  ((0xE0 : Byte) ||| ((lba >>> 24) &&& 0x0F).setWidth 8, (lba &&& 0xFF).setWidth 8,
    ((lba >>> 8) &&& 0xFF).setWidth 8, ((lba >>> 16) &&& 0xFF).setWidth 8)

def driveSector (regs : Byte × Byte × Byte × Byte) : ℕ :=
  (regs.1 &&& 0x0F).toNat * 2 ^ 24 + regs.2.2.2.toNat * 2 ^ 16 + regs.2.2.1.toNat * 2 ^ 8 + regs.2.1.toNat

def ataSector (lba : Word) : ℕ := driveSector (ataSelect lba)

namespace World

def setMem (w : World) (a : Word) (b : Byte) : World := { w with mem := Function.update w.mem a b }

lemma setMem_mem (w : World) (a : Word) (b : Byte) : (w.setMem a b).mem = Function.update w.mem a b := rfl

def setSector (w : World) (lba : Word) (s : Sector) : World :=
  { w with disk := Function.update w.disk (ataSector lba) s }

lemma setSector_disk (w : World) (lba : Word) (s : Sector) :
    (w.setSector lba s).disk = Function.update w.disk (ataSector lba) s := rfl

def handle (w : World) : (e : Req) → Option (e.Reply × World)
  | .load a | .peek a => some (w.mem a, w)
  | .store a b | .poke a b => some ((), w.setMem a b)
  | .ataRead lba => some (some (w.disk (ataSector lba)), w)
  | .ataWrite lba s => some (true, w.setSector lba s)
  | .ticks => some (w.clock, w)
  | .waitTicks target => some ((), { w with clock := if w.clock < target then target else w.clock })
  | .getchar => some (w.key, w)
  | .hang => none

end World

/-- A machine whose disk transfers may fail, without an effect, where `may` says so. -/
inductive Transfer (may : Req → Prop) : World → (e : Req) → e.Reply → World → Prop
  | done {w t : World} {e : Req} {a : e.Reply} : w.handle e = some (a, t) → Transfer may w e a t
  | readFails {w : World} {lba : Word} : may (.ataRead lba) → Transfer may w (.ataRead lba) none w
  | writeFails {w : World} {lba : Word} {s : Sector} : may (.ataWrite lba s) →
    Transfer may w (.ataWrite lba s) false w

def addr (a : Word) (i : ℕ) : Word := a + BitVec.ofNat 32 i

def load (a : Word) : Kernel Byte := .ask (.load a) .pure
def store (a : Word) (b : Byte) : Kernel Unit := .ask (.store a b) .pure
def peek (a : Word) : Kernel Byte := .ask (.peek a) .pure
def poke (a : Word) (b : Byte) : Kernel Unit := .ask (.poke a b) .pure
def ataRead (lba : Word) : Kernel (Option Sector) := .ask (.ataRead lba) .pure
def ataWrite (lba : Word) (s : Sector) : Kernel Bool := .ask (.ataWrite lba s) .pure
def hang {α : Type} : Kernel α := .ask .hang fun e => nomatch e

lemma addr_inj {p : Word} {i j : ℕ} (hi : p.toNat + i < 2 ^ 32) (hj : p.toNat + j < 2 ^ 32) (h : addr p i = addr p j) :
    i = j := by
  have ht := congrArg BitVec.toNat h
  rw [addr, addr, BitVec.toNat_add, BitVec.toNat_add, BitVec.toNat_ofNat, BitVec.toNat_ofNat] at ht
  omega

lemma ataSector_eq (lba : Word) : ataSector lba = lba.toNat % 2 ^ 28 := by
  have hb : ∀ x : Word, ((x &&& 0xFF).setWidth 8).toNat = x.toNat % 256 := by
    intro x
    rw [BitVec.toNat_setWidth, BitVec.toNat_and]
    exact (Nat.mod_eq_of_lt (Nat.and_lt_two_pow _ (by decide))).trans (Nat.and_two_pow_sub_one_eq_mod _ 8)
  have hor : ∀ x : Byte, (((0xE0 : Byte) ||| x) &&& 0x0F).toNat = x.toNat % 16 := by decide +kernel
  have hlow : (((lba >>> 24) &&& 0x0F).setWidth 8).toNat = (lba >>> 24).toNat % 16 := by
    rw [BitVec.toNat_setWidth, BitVec.toNat_and]
    have hlt := Nat.and_lt_two_pow (n := 4) (lba >>> 24).toNat (by decide : (15 : ℕ) < 2 ^ 4)
    exact (Nat.mod_eq_of_lt (hlt.trans (by decide))).trans (Nat.and_two_pow_sub_one_eq_mod _ 4)
  simp only [ataSector, driveSector, ataSelect, hb, hor, hlow, BitVec.toNat_ushiftRight, Nat.shiftRight_eq_div_pow]
  omega

/-! ### Rules -/

section

variable {may allowed : Req → Prop} {good : World → Prop} {w : World} {a lba : Word} {b : Byte} {s : Sector}

lemma meets_answer {e : Req} {x : e.Reply} {t : World} {post : e.Reply → World → Prop} (hg : good w)
    (ha : allowed e) (h : w.handle e = some (x, t)) (hr : ∀ lba, e ≠ .ataRead lba)
    (hw : ∀ lba s, e ≠ .ataWrite lba s) (hg' : good t) (hp : post x t) :
    (Prog.ask e .pure).Meets (Transfer may) allowed good post w := by
  refine ⟨hg, ha, ⟨_, _, .done h⟩, fun y u hu => ?_⟩
  cases hu with
  | done h' =>
    obtain ⟨rfl, rfl⟩ := Prod.mk.inj (Option.some.inj (h.symm.trans h'))
    exact ⟨hg', hp⟩
  | readFails _ => exact (hr _ rfl).elim
  | writeFails _ => exact (hw _ _ rfl).elim

lemma meets_load {post : Byte → World → Prop} (hg : good w) (ha : allowed (.load a)) (hp : post (w.mem a) w) :
    (load a).Meets (Transfer may) allowed good post w :=
  meets_answer hg ha rfl nofun nofun hg hp

lemma meets_peek {post : Byte → World → Prop} (hg : good w) (ha : allowed (.peek a)) (hp : post (w.mem a) w) :
    (peek a).Meets (Transfer may) allowed good post w :=
  meets_answer hg ha rfl nofun nofun hg hp

lemma meets_store {post : Unit → World → Prop} (hg : good w) (ha : allowed (.store a b))
    (hg' : good (w.setMem a b)) (hp : post () (w.setMem a b)) :
    (store a b).Meets (Transfer may) allowed good post w :=
  meets_answer hg ha rfl nofun nofun hg' hp

lemma meets_poke {post : Unit → World → Prop} (hg : good w) (ha : allowed (.poke a b))
    (hg' : good (w.setMem a b)) (hp : post () (w.setMem a b)) :
    (poke a b).Meets (Transfer may) allowed good post w :=
  meets_answer hg ha rfl nofun nofun hg' hp

lemma meets_ataRead {post : Option Sector → World → Prop} (hg : good w) (ha : allowed (.ataRead lba))
    (hp : post (some (w.disk (ataSector lba))) w) (hf : may (.ataRead lba) → post none w) :
    (ataRead lba).Meets (Transfer may) allowed good post w := by
  refine ⟨hg, ha, ⟨_, _, .done rfl⟩, fun x t ht => ?_⟩
  cases ht with
  | done h =>
    obtain ⟨rfl, rfl⟩ := Prod.mk.inj (Option.some.inj h)
    exact ⟨hg, hp⟩
  | readFails hm => exact ⟨hg, hf hm⟩

lemma meets_ataWrite {post : Bool → World → Prop} (hg : good w) (ha : allowed (.ataWrite lba s))
    (hg' : good (w.setSector lba s)) (hp : post true (w.setSector lba s))
    (hf : may (.ataWrite lba s) → post false w) :
    (ataWrite lba s).Meets (Transfer may) allowed good post w := by
  refine ⟨hg, ha, ⟨_, _, .done rfl⟩, fun x t ht => ?_⟩
  cases ht with
  | done h =>
    obtain ⟨rfl, rfl⟩ := Prod.mk.inj (Option.some.inj h)
    exact ⟨hg', hp⟩
  | writeFails hm => exact ⟨hg, hf hm⟩

end

lemma transfer_handled : Transfer (fun _ => False) = Prog.handled World.handle := by
  funext w e a t
  apply propext
  constructor
  · rintro (h | h | h)
    · exact h
    · exact h.elim
    · exact h.elim
  · exact .done

lemma transfer_congr {may may' : Req → Prop} {w t : World} {e : Req} {x : e.Reply} (hr : ∀ lba, e ≠ .ataRead lba)
    (hw : ∀ lba s, e ≠ .ataWrite lba s) : Transfer may w e x t ↔ Transfer may' w e x t := by
  constructor <;> intro h <;> cases h with
  | done h => exact .done h
  | readFails _ => exact (hr _ rfl).elim
  | writeFails _ => exact (hw _ _ rfl).elim

def exec {α : Type} (p : Kernel α) (w : World) : Option (α × World) := p.run World.handle w

lemma exec_of_meets {α : Type} {p : Kernel α} {w : World} {allowed : Req → Prop} {good : World → Prop}
    {post : α → World → Prop} (h : p.Meets (Transfer fun _ => False) allowed good post w) :
    ∃ a t, exec p w = some (a, t) ∧ post a t := by
  rw [transfer_handled] at h
  exact h.run

lemma meets_exact {α : Type} {p : Kernel α} {w t : World} {a : α} {allowed : Req → Prop} {good : World → Prop}
    {post : α → World → Prop} (h : p.Meets (Transfer fun _ => False) allowed good post w)
    (hr : exec p w = some (a, t)) :
    p.Meets (Transfer fun _ => False) allowed good (fun x u => x = a ∧ u = t) w := by
  rw [transfer_handled] at h ⊢
  exact h.of_run hr

lemma exec_bind {α β : Type} {p : Kernel α} {f : α → Kernel β} {w t : World} {a : α}
    (h : exec p w = some (a, t)) : exec (p >>= f) w = exec (f a) t := by
  rw [exec, Prog.run_bind, show p.run World.handle w = _ from h]
  rfl

def Ends {α : Type} (may : Req → Prop) (p : Kernel α) (w : World) (a : α) (t : World) : Prop :=
  p.Reaches (Transfer may) w (pure a) t

end PyroOS
