import PyroOS.FileSystem.Layout
import PyroOS.Machine.Strings

/-! PyroFS. -/

namespace PyroOS

open Interaction

def fsMagic : Word := 0x50594F53
def superLba : Word := 99
def dirLba : Word := 100
def dataLba : Word := 101
def slotSectors : Word := 32

/-- The variables of the file system. `beyond` is the memory behind the directory, which `strcmp`
reaches if a name has no terminator. -/
structure Fs where
  super : FsSuper
  dir : Dir
  beyond : ℕ → Byte

def entries : List (Fin 16) := List.finRange 16

namespace Fs

def zeroed (beyond : ℕ → Byte) : Fs := ⟨⟨0, 0, fun _ => 0⟩, fun _ => ⟨fun _ => 0, 0, 0, 0⟩, beyond⟩

def setEntry (fs : Fs) (i : Fin 16) (e : FsEntry) : Fs := { fs with dir := Function.update fs.dir i e }

def nameAt (fs : Fs) (i : Fin 16) (j : ℕ) : Byte :=
  if 32 * i.val + j < 512 then sectorByte (Dir.sector fs.dir) (32 * i + j)
  else fs.beyond (32 * i + j - 512)

def loadMeta (fs : Fs) : Kernel Fs := do
  let s ← ataRead superLba
  let d ← ataRead dirLba
  pure { fs with super := (s.map superOf).getD fs.super, dir := (d.map dirOf).getD fs.dir }

def blank (fs : Fs) : Fs where
  super := ⟨fsMagic, dataLba, fun _ => 0⟩
  dir _ := ⟨fun _ => 0, 0, 0, 0⟩
  beyond := fs.beyond

def format (fs : Fs) : Kernel Fs := do
  let _ ← ataWrite superLba fs.blank.super.sector
  let _ ← ataWrite dirLba (Dir.sector fs.blank.dir)
  pure fs.blank

def find (fs : Fs) (name : Word) : List (Fin 16) → Kernel (Option (Fin 16))
  | [] => pure none
  | i :: is =>
    if (fs.dir i).used = 0 then fs.find name is
    else do
      let r ← Kernel.strcmp (fs.nameAt i) name
      if r = 0 then pure (some i) else fs.find name is

def firstFree (fs : Fs) : Option (Fin 16) := entries.find? fun i => decide ((fs.dir i).used = 0)

def withNew (fs : Fs) (i : Fin 16) (name : ℕ → Byte) : Fs where
  super := { fs.super with nextFreeLba := fs.super.nextFreeLba + slotSectors }
  dir := Function.update fs.dir i
    { fs.dir i with used := 1, name := fun j => name j, startLba := fs.super.nextFreeLba }
  beyond := fs.beyond

def create (fs : Fs) (i : Fin 16) (name : Word) : Kernel Fs := do
  let nm ← Kernel.strncpyZ (fs.dir i).byte name nameLen
  let _ ← ataWrite superLba (fs.withNew i nm).super.sector
  pure (fs.withNew i nm)

end Fs

def fsInit (fs : Fs) : Kernel Fs := do
  let fs ← fs.loadMeta
  if fs.super.magic ≠ fsMagic then fs.format else pure fs

def chunkOf (size off : Word) : Word :=
  let chunk := if off < size then size - off else 0
  if 512 < chunk then 512 else chunk

def sectorsOf (size : Word) : Word := (size + 511) / 512

def writeSectors (start data size : Word) (nsec : ℕ) : Kernel Bool :=
  Prog.iterate (fun _ => pure true)
    (fun s => do
      let off := BitVec.ofNat 32 (s * 512)
      let buf ← Kernel.memcpyFrom (fun _ => 0) (data + off) (chunkOf size off).toNat
      let ok ← ataWrite (addr start s) fun j => buf j
      if ok then pure (.inl (s + 1)) else pure (.inr false))
    nsec 0

def Fs.put (fs : Fs) (i : Fin 16) (data size : Word) : Kernel (ℤ × Fs) := do
  let size := if slotSectors * 512 < size then slotSectors * 512 else size
  let nsec := if sectorsOf size = 0 then 1 else sectorsOf size
  let ok ← writeSectors (fs.dir i).startLba data size nsec.toNat
  if ok then do
    let fs := fs.setEntry i ((fs.dir i).withSize size)
    let _ ← ataWrite dirLba (Dir.sector fs.dir)
    pure (0, fs)
  else pure (-1, fs)

def fsWrite (name data size : Word) (fs : Fs) : Kernel (ℤ × Fs) := do
  match ← fs.find name entries with
  | some i => fs.put i data size
  | none =>
    match fs.firstFree with
    | none => pure (-1, fs)
    | some i => do
      let fs ← fs.create i name
      fs.put i data size

def readSectors (start buf size : Word) (nsec : ℕ) : Kernel Bool :=
  Prog.iterate (fun _ => pure true)
    (fun s => do
      match ← ataRead (addr start s) with
      | none => pure (.inr false)
      | some sec => do
        let off := BitVec.ofNat 32 (s * 512)
        Kernel.memcpyTo (buf + off) (sectorByte sec) (chunkOf size off).toNat
        pure (.inl (s + 1)))
    nsec 0

def fsRead (name buf max : Word) (fs : Fs) : Kernel (ℤ × Option Word) := do
  match ← fs.find name entries with
  | none => pure (-1, none)
  | some i => do
    let size := if max < (fs.dir i).size then max else (fs.dir i).size
    let ok ← readSectors (fs.dir i).startLba buf size (sectorsOf size).toNat
    if ok then pure (0, some size) else pure (-1, none)

end PyroOS
