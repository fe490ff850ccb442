import PyroOS.Launch.Args
import PyroOS.Launch.Paging

/-! The shell commands `exec` and `user`. -/

namespace PyroOS

open Interaction Kernel

def userLoadAddr : Word := 0x00080000
def userStackTop : Word := 0x000F0000
def nameMax : ℕ := 24
def lineMax : ℕ := 128
def imgSize : Word := 0x8000
def colorRed : Byte := 0x0C

namespace Kernel

def kprintText : List Byte → Screen → Kernel Screen
  | [], scr => pure scr
  | c :: text, scr => do
    let scr ← kprintChar scr c
    kprintText text scr

def kprintColor (text : List Byte) (color : Byte) (scr : Screen) : Kernel Screen := do
  let out ← kprintText text { scr with color := color }
  pure { out with color := scr.color }

end Kernel

def decDigits : ℕ → ℕ → List Byte
  | 0, _ => []
  | k + 1, n => if n = 0 then [] else decDigits k (n / 10) ++ [BitVec.ofNat 8 (0x30 + n % 10)]

def decText (n : Word) : List Byte := if n = 0 then [0x30] else decDigits 10 n.toNat

def hexText (n : Word) : List Byte :=
  ascii "0x" ++ (List.range 8).map fun i => (ascii "0123456789abcdef").getD (n.toNat / 2 ^ (28 - 4 * i) % 16) 0

structure Line where
  chars : List Byte
  noNul : (0 : Byte) ∉ chars
  length_lt : chars.length < lineMax

/-- Where the linker puts the buffers of the kernel: everything lies below the user zone. -/
structure Buffers where
  name : Word
  img : Word
  prog : Word
  progLen : Word
  name_le : name.toNat + nameMax ≤ 0x80000
  img_le : img.toNat + imgSize.toNat ≤ 0x80000
  prog_le : prog.toNat + progLen.toNat ≤ 0x10000 + 120 * 512

def sampleBuffers : Buffers := ⟨0x30000, 0x20000, 0x18000, 100, by decide, by decide, by decide⟩

def argsFor (tail : List Byte) : Kernel Word := do
  let esp ← argsBuild tail userStackTop
  if esp = 0 then argsBuild [] userStackTop else pure esp

def nameOf (tail : List Byte) : List Byte := (tail.takeWhile (· ≠ 0x20)).take (nameMax - 1)

def elfMessage (name : List Byte) (upid : ℤ) (entry : Word) : List Byte :=
  ascii "  loaded " ++ name ++ ascii " as ELF (pid " ++ decText (BitVec.ofInt 32 upid) ++ ascii "), entry " ++
    hexText entry ++ ascii ", running in ring 3:\n"

def flatMessage (name : List Byte) (size : Word) : List Byte :=
  ascii "  loaded " ++ name ++ ascii " as a flat binary (" ++ decText size ++ ascii " bytes), running in ring 3:\n"

def startElf (img : Word) (tail : List Byte) (upid : ℤ) (entry : Word) (scr : Screen) :
    Launch (Option (Word × Word) × Screen) := do
  let scr ← lift (kprintText (elfMessage (nameOf tail) upid entry) scr)
  let esp ← lift (argsFor tail)
  elfProtect img
  pure (some (entry, esp), scr)

def prepareElf (img size : Word) (tail : List Byte) (upid : ℤ) (scr : Screen) :
    Launch (Option (Word × Word) × Screen) := do
  pagingResetUserZone
  let r ← lift (elfLoad img size userLoadAddr userStackTop)
  if r.1 ≠ 0 then do
    let scr ← lift (kprintColor (ascii "  refused: ") colorRed scr)
    let scr ← lift (kprintText (if r.1 = -2 then ascii "a segment lies outside the user zone\n"
      else ascii "the entry point lies outside the user zone\n") scr)
    pure (none, scr)
  else startElf img tail upid (r.2.getD 0) scr

def prepareFlat (img size : Word) (tail : List Byte) (scr : Screen) :
    Launch (Option (Word × Word) × Screen) := do
  pagingResetUserZone
  lift (memcpy userLoadAddr img size.toNat)
  let scr ← lift (kprintText (flatMessage (nameOf tail) size) scr)
  let esp ← lift (argsFor tail)
  pure (some (userLoadAddr, esp), scr)

def prepare (img size : Word) (tail : List Byte) (upid : ℤ) (scr : Screen) :
    Launch (Option (Word × Word) × Screen) := do
  let st ← lift (elfValidate img size)
  if st = .ok then prepareElf img size tail upid scr else prepareFlat img size tail scr

def runUserAtSp (entry esp : Word) (st : KState) : Launch KState := do
  let r ← Prog.request (LaunchReq.enterUser entry esp st)
  let scr ← lift (if r.1 then
      kprintColor (ascii "  the program faulted and was terminated; the kernel survived.\n") colorRed r.2.screen
    else kprintText (ascii "  program exited cleanly; back in the kernel (ring 0).\n") r.2.screen)
  pure { r.2 with screen := scr }

def runUserAt (entry : Word) (st : KState) : Launch KState := do
  let esp ← lift (argsBuild [] userStackTop)
  runUserAtSp entry esp st

def runUserProgram (b : Buffers) (st : KState) : Launch KState := do
  pagingResetUserZone
  lift (memcpy userLoadAddr b.prog b.progLen.toNat)
  runUserAt userLoadAddr st

variable (k : BootDir)

def launchProgram (b : Buffers) (size : Word) (tail : List Byte) (st : KState) : Launch KState := do
  let x := procBeginUser k st.sys (some (nameOf tail))
  let st := { st with sys := x.1 }
  let r ← prepare b.img size tail x.2 st.screen
  let st := { st with screen := r.2 }
  let st ← match r.1 with
    | none => pure st
    | some (entry, esp) => runUserAtSp entry esp st
  pure { st with sys := procEndUser k st.sys x.2 }

def shellExec (b : Buffers) (line : Line) (st : KState) : Launch KState := do
  let tail := line.chars.dropWhile (· = 0x20)
  lift (memcpyTo b.name (fun j => (nameOf tail).getD j 0) ((nameOf tail).length + 1))
  let r ← lift (fsRead b.name b.img imgSize st.fs)
  if r.1 ≠ 0 ∨ r.2.getD 0 = 0 then do
    let scr ← lift (kprintColor (ascii "  no such program\n") colorRed st.screen)
    pure { st with screen := scr }
  else launchProgram k b (r.2.getD 0) tail st

def shellUser (b : Buffers) (st : KState) : Launch KState := do
  let scr ← lift (kprintText (ascii "  dropping to ring 3 (user mode)...\n") st.screen)
  runUserProgram b { st with screen := scr }

inductive Command where
  | exec (line : Line)
  | user

def Command.program (b : Buffers) : Command → KState → Launch KState
  | .exec line, st => shellExec k b line st
  | .user, st => shellUser b st

/-! ### Rules -/

variable {may allowed : Req → Prop} {w : World} {scr : Screen} {text tail : List Byte}
  {post : Screen → World → Prop}

section

variable (inv : World → Prop) (hv : ∀ t a b, inv t → InVideo a → inv (t.setMem a b))
  (hr : ∀ a, InVideo a → allowed (.peek a)) (ha : ∀ a b, InVideo a → allowed (.poke a b))
include hv hr ha

lemma meets_kprintText (h : inv w) (hp : ∀ scr' t, inv t → post scr' t) :
    (kprintText text scr).Meets (Transfer may) allowed (fun _ => True) post w := by
  induction text generalizing scr w with
  | nil => exact ⟨trivial, hp _ _ h⟩
  | cons c text ih =>
    have hinv : VideoInv (fun _ => True) inv := ⟨trivial, fun _ _ _ _ => trivial, fun t a b ht hin _ => hv t a b ht hin⟩
    exact Prog.Meets.bind ((meets_kprintChar hinv (fun _ _ => trivial) hr ha trivial trivial h).mono
      fun scr' t _ ht => ih ht.1)

lemma meets_kprintColor {color : Byte} (h : inv w) (hp : ∀ scr' t, inv t → post scr' t) :
    (kprintColor text color scr).Meets (Transfer may) allowed (fun _ => True) post w :=
  Prog.Meets.bind (meets_kprintText inv hv hr ha h fun _ _ ht => ⟨trivial, hp _ _ ht⟩)

end

def argsOf (tail : List Byte) : List (List Byte) :=
  if (argText (splitArgs argMax tail)).length ≤ 256 then splitArgs argMax tail else []

lemma argsOf_fits (tail : List Byte) : (argText (argsOf tail)).length ≤ 256 ∧ (argsOf tail).length ≤ 8 := by
  rw [argsOf]
  split
  · rename_i h
    exact ⟨h, splitArgs_length _ _⟩
  · exact ⟨Nat.zero_le _, Nat.zero_le _⟩

lemma argStack_userStackTop (tail : List Byte) :
    (argStack (argsOf tail) userStackTop).toNat + (argBlock (argsOf tail) userStackTop).length ≤ 0xF0000 ∧
      0xF0000 < (argStack (argsOf tail) userStackTop).toNat +
        (argBlock (argsOf tail) userStackTop).length + 4 :=
  argStack_place (argsOf_fits tail).1 (argsOf_fits tail).2 (by decide)

lemma meets_argsFor {post : Word → World → Prop} (hlen : tail.length < lineMax)
    (hs : ∀ i < (argBlock (argsOf tail) userStackTop).length, ∀ b,
      allowed (.store (addr (argStack (argsOf tail) userStackTop) i) b))
    (hp : post (argStack (argsOf tail) userStackTop)
      { w with mem := put w.mem (argStack (argsOf tail) userStackTop) (argBlock (argsOf tail) userStackTop) }) :
    (argsFor tail).Meets (Transfer may) allowed (fun _ => True) post w := by
  have hshort : (argText (splitArgs argMax tail)).length < 2 ^ 32 := by
    have h := argText_splitArgs argMax tail
    rw [argMax] at h
    rw [lineMax] at hlen
    exact lt_of_le_of_lt h (by omega)
  have hplace := argStack_userStackTop tail
  have hblock : (argBlock (argsOf tail) userStackTop).length =
      4 * ((argsOf tail).length + 4) + (argText (argsOf tail)).length := argBlock_length
  have hfits := argsOf_fits tail
  by_cases hfit : (argText (splitArgs argMax tail)).length ≤ 256
  · have hargs : argsOf tail = splitArgs argMax tail := if_pos hfit
    rw [hargs] at hs hp hplace hblock hfits
    refine Prog.Meets.bind (meets_argsBuild rfl hshort (fun _ => hs) (fun _ => ?_) fun h => absurd hfit (not_le.mpr h))
    rw [if_neg]
    · exact ⟨trivial, hp⟩
    · exact ne_zero_of_pos (by omega)
  · have hargs : argsOf tail = [] := if_neg hfit
    rw [hargs] at hs hp
    refine Prog.Meets.bind (meets_argsBuild rfl hshort (fun h => absurd h hfit) (fun h => absurd h hfit) fun _ => ?_)
    have hnil : [] = splitArgs argMax [] := rfl
    exact meets_argsBuild hnil (by decide) (fun _ => hs) (fun _ => hp) fun h => absurd h (by decide)

end PyroOS
