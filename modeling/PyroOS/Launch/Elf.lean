import PyroOS.FileSystem.Layout
import PyroOS.Machine.Strings

/-! ELF images: validation and loading. -/

namespace PyroOS

open Interaction

inductive ElfStatus where
  | ok
  | badMagic
  | badClass
  | badType
  | badMachine
  | badHeaders
  | noSegments
  deriving DecidableEq, Repr

structure Phdr where
  type : Word
  offset : Word
  vaddr : Word
  filesz : Word
  memsz : Word
  flags : Word

def ehdrSize : ℕ := 52
def phdrSize : ℕ := 32
def ptLoad : Word := 1

namespace Kernel

def load16 (a : Word) : Kernel ℕ := do
  let x ← load (addr a 0)
  let y ← load (addr a 1)
  pure (x.toNat + 2 ^ 8 * y.toNat)

def load32 (a : Word) : Kernel Word := do
  let x ← load (addr a 0)
  let y ← load (addr a 1)
  let z ← load (addr a 2)
  let u ← load (addr a 3)
  pure (BitVec.ofNat 32 (x.toNat + 2 ^ 8 * y.toNat + 2 ^ 16 * z.toNat + 2 ^ 24 * u.toNat))

end Kernel

open Kernel

def readPhdr (ph : Word) (i : ℕ) : Kernel Phdr := do
  let e := addr ph (i * phdrSize)
  let type ← load32 (addr e 0)
  let offset ← load32 (addr e 4)
  let vaddr ← load32 (addr e 8)
  let filesz ← load32 (addr e 16)
  let memsz ← load32 (addr e 20)
  let flags ← load32 (addr e 24)
  pure ⟨type, offset, vaddr, filesz, memsz, flags⟩

def readPhnum (image : Word) : Kernel ℕ := load16 (addr image 44)
def readPhoff (image : Word) : Kernel Word := load32 (addr image 28)
def readEntry (image : Word) : Kernel Word := load32 (addr image 24)

def forPhdrs {τ α : Type} (image ph : Word) (done : τ → α) (body : Phdr → τ → Kernel (τ ⊕ α)) (x : τ) :
    Kernel α :=
  Prog.iterate (fun _ => hang)
    (fun s => do
      let n ← readPhnum image
      if s.1 < n then do
        let p ← readPhdr ph s.1
        let r ← body p s.2
        match r with
        | .inl y => pure (.inl (s.1 + 1, y))
        | .inr a => pure (.inr a)
      else pure (.inr (done s.2)))
    (2 ^ 16) (0, x)

def validatePhdr (size : Word) (p : Phdr) (loadable : ℕ) : Kernel (ℕ ⊕ ElfStatus) :=
  if p.type ≠ ptLoad then pure (.inl loadable)
  else if p.memsz < p.filesz then pure (.inr .badHeaders)
  else if size.toNat < p.offset.toNat + p.filesz.toNat then pure (.inr .badHeaders)
  else pure (.inl (loadable + 1))

def validateIdent (image : Word) : Kernel ElfStatus := do
  let i₀ ← load (addr image 0)
  let i₁ ← load (addr image 1)
  let i₂ ← load (addr image 2)
  let i₃ ← load (addr image 3)
  if i₀ ≠ 0x7F ∨ i₁ ≠ 0x45 ∨ i₂ ≠ 0x4C ∨ i₃ ≠ 0x46 then pure .badMagic
  else do
    let i₄ ← load (addr image 4)
    let i₅ ← load (addr image 5)
    if i₄ ≠ 1 ∨ i₅ ≠ 1 then pure .badClass else pure .ok

def validateKind (image : Word) : Kernel ElfStatus := do
  let type ← load16 (addr image 16)
  if type ≠ 2 then pure .badType
  else do
    let machine ← load16 (addr image 18)
    if machine ≠ 3 then pure .badMachine
    else do
      let phnum ← readPhnum image
      let phentsize ← load16 (addr image 42)
      if phnum = 0 ∨ phentsize ≠ phdrSize then pure .noSegments else pure .ok

def validateTable (image size : Word) : Kernel ElfStatus := do
  let phoff ← readPhoff image
  let phnum ← readPhnum image
  let phentsize ← load16 (addr image 42)
  if size.toNat < phoff.toNat + phnum * phentsize then pure .badHeaders
  else do
    let phoff ← readPhoff image
    forPhdrs image (image + phoff) (fun loadable => if loadable = 0 then .noSegments else .ok)
      (validatePhdr size) 0

def elfValidate (image size : Word) : Kernel ElfStatus :=
  if image = 0 ∨ size.toNat < ehdrSize then pure .badMagic
  else do
    let st ← validateIdent image
    if st ≠ .ok then pure st
    else do
      let st ← validateKind image
      if st ≠ .ok then pure st else validateTable image size

def Phdr.loads (p : Phdr) : Bool := decide (p.type = ptLoad ∧ p.memsz ≠ 0)

def checkPhdr (lo hi : Word) (p : Phdr) (_ : Unit) : Kernel (Unit ⊕ Bool) :=
  if !p.loads then pure (.inl ())
  else if p.vaddr.toNat < lo.toNat ∨ hi.toNat < p.vaddr.toNat + p.memsz.toNat then pure (.inr false)
  else pure (.inl ())

def copyPhdr (image : Word) (p : Phdr) (_ : Unit) : Kernel (Unit ⊕ Unit) :=
  if !p.loads then pure (.inl ())
  else do
    memcpy p.vaddr (image + p.offset) p.filesz.toNat
    memset (p.vaddr + p.filesz) 0 (p.memsz - p.filesz).toNat
    pure (.inl ())

/-- `elf_load` of an image that has been validated. -/
def loadValidated (image lo hi : Word) : Kernel (ℤ × Option Word) := do
  let phoff ← readPhoff image
  let inside ← forPhdrs image (image + phoff) (fun _ => true) (checkPhdr lo hi) ()
  if !inside then pure (-2, none)
  else do
    let entry ← readEntry image
    if entry < lo ∨ hi ≤ entry then pure (-3, none)
    else do
      forPhdrs image (image + phoff) (fun _ => ()) (copyPhdr image) ()
      let entry ← readEntry image
      pure (0, some entry)

def elfLoad (image size lo hi : Word) : Kernel (ℤ × Option Word) := do
  let st ← elfValidate image size
  if st ≠ .ok then pure (-1, none) else loadValidated image lo hi

end PyroOS
