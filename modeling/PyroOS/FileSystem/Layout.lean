import PyroOS.Machine.World

/-! The superblock and the directory, in memory and as sectors. -/

namespace PyroOS

/-! ### Words as bytes, lowest first -/

def wordAt (f : ℕ → Byte) : Word :=
  BitVec.ofNat 32 ((f 0).toNat + 2 ^ 8 * (f 1).toNat + 2 ^ 16 * (f 2).toNat + 2 ^ 24 * (f 3).toNat)

lemma byteOf_toNat (w : Word) (j : ℕ) : (byteOf w j).toNat = w.toNat / 2 ^ (8 * j) % 256 := by
  rw [byteOf, BitVec.toNat_setWidth, BitVec.toNat_ushiftRight, Nat.shiftRight_eq_div_pow]

@[simp] lemma wordAt_byteOf (w : Word) : wordAt (byteOf w) = w := by
  apply BitVec.eq_of_toNat_eq
  have h := w.isLt
  rw [wordAt, BitVec.toNat_ofNat]
  simp only [byteOf_toNat]
  omega

@[simp] lemma byteOf_wordAt (f : ℕ → Byte) {j : ℕ} (hj : j < 4) : byteOf (wordAt f) j = f j := by
  apply BitVec.eq_of_toNat_eq
  have h₀ := (f 0).isLt
  have h₁ := (f 1).isLt
  have h₂ := (f 2).isLt
  have h₃ := (f 3).isLt
  rw [byteOf_toNat, wordAt, BitVec.toNat_ofNat]
  interval_cases j <;> omega

lemma wordAt_eq {f : ℕ → Byte} {w : Word} (h : ∀ j < 4, f j = byteOf w j) : wordAt f = w := by
  rw [← wordAt_byteOf w, wordAt, wordAt, h 0 (by omega), h 1 (by omega), h 2 (by omega), h 3 (by omega)]

/-! ### Structures -/

def nameLen : ℕ := 20

@[ext] structure FsEntry where
  name : Fin 20 → Byte
  size : Word
  startLba : Word
  used : Word

@[ext] structure FsSuper where
  magic : Word
  nextFreeLba : Word
  pad : Fin 504 → Byte

abbrev Dir := Fin 16 → FsEntry

def FsEntry.withSize (e : FsEntry) (size : Word) : FsEntry := { e with size := size }

def FsEntry.byte (e : FsEntry) (j : ℕ) : Byte :=
  if h : j < 20 then e.name ⟨j, h⟩
  else if j < 24 then byteOf e.size (j - 20)
  else if j < 28 then byteOf e.startLba (j - 24)
  else byteOf e.used (j - 28)

def FsSuper.byte (s : FsSuper) (j : ℕ) : Byte :=
  if j < 4 then byteOf s.magic j
  else if j < 8 then byteOf s.nextFreeLba (j - 4)
  else if h : j - 8 < 504 then s.pad ⟨j - 8, h⟩
  else 0

def FsSuper.sector (s : FsSuper) : Sector := fun j => s.byte j

def Dir.sector (d : Dir) : Sector := fun j => (d ⟨j / 32, by omega⟩).byte (j % 32)

def sectorByte (s : Sector) (j : ℕ) : Byte := if h : j < 512 then s ⟨j, h⟩ else 0

def superOf (s : Sector) : FsSuper where
  magic := wordAt (sectorByte s)
  nextFreeLba := wordAt fun j => sectorByte s (4 + j)
  pad j := sectorByte s (8 + j)

def entryOf (s : Sector) (i : ℕ) : FsEntry where
  name j := sectorByte s (32 * i + j)
  size := wordAt fun j => sectorByte s (32 * i + (20 + j))
  startLba := wordAt fun j => sectorByte s (32 * i + (24 + j))
  used := wordAt fun j => sectorByte s (32 * i + (28 + j))

def dirOf (s : Sector) : Dir := fun i => entryOf s i

/-! ### Round trips -/

lemma sectorByte_super (s : FsSuper) {j : ℕ} (hj : j < 512) : sectorByte s.sector j = s.byte j := by
  rw [sectorByte, dif_pos hj]
  rfl

lemma sectorByte_dir (d : Dir) (i : Fin 16) {j : ℕ} (hj : j < 32) :
    sectorByte (Dir.sector d) (32 * i + j) = (d i).byte j := by
  rw [sectorByte, dif_pos (by omega), Dir.sector]
  have hq : (⟨(32 * i.val + j) / 32, by omega⟩ : Fin 16) = i := Fin.ext (by simp only; omega)
  have hr : (32 * i.val + j) % 32 = j := by omega
  simp only [hq, hr]

@[simp] lemma superOf_sector (s : FsSuper) : superOf s.sector = s := by
  have hmagic : wordAt (sectorByte s.sector) = s.magic := wordAt_eq fun j hj => by
    rw [sectorByte_super s (by omega), FsSuper.byte, if_pos hj]
  have hnext : wordAt (fun j => sectorByte s.sector (4 + j)) = s.nextFreeLba := wordAt_eq fun j hj => by
    rw [sectorByte_super s (by omega), FsSuper.byte, if_neg (by omega), if_pos (by omega),
      Nat.add_sub_cancel_left]
  have hpad : (fun j : Fin 504 => sectorByte s.sector (8 + j)) = s.pad := funext fun j => by
    rw [sectorByte_super s (by omega), FsSuper.byte, if_neg (by omega), if_neg (by omega),
      dif_pos (by omega)]
    congr 1
    exact Fin.ext (by simp)
  rw [superOf, hmagic, hnext, hpad]

lemma entryOf_sector (d : Dir) (i : Fin 16) : entryOf (Dir.sector d) i = d i := by
  have hname : (fun j : Fin 20 => sectorByte (Dir.sector d) (32 * i + j)) = (d i).name := funext fun j => by
    rw [sectorByte_dir d i (by omega), FsEntry.byte, dif_pos j.isLt]
  have hsize : wordAt (fun j => sectorByte (Dir.sector d) (32 * i + (20 + j))) = (d i).size :=
    wordAt_eq fun j hj => by
      rw [sectorByte_dir d i (by omega), FsEntry.byte, dif_neg (by omega), if_pos (by omega),
        Nat.add_sub_cancel_left]
  have hstart : wordAt (fun j => sectorByte (Dir.sector d) (32 * i + (24 + j))) = (d i).startLba :=
    wordAt_eq fun j hj => by
      rw [sectorByte_dir d i (by omega), FsEntry.byte, dif_neg (by omega), if_neg (by omega),
        if_pos (by omega), Nat.add_sub_cancel_left]
  have hused : wordAt (fun j => sectorByte (Dir.sector d) (32 * i + (28 + j))) = (d i).used :=
    wordAt_eq fun j hj => by
      rw [sectorByte_dir d i (by omega), FsEntry.byte, dif_neg (by omega), if_neg (by omega),
        if_neg (by omega), Nat.add_sub_cancel_left]
  rw [entryOf, hname, hsize, hstart, hused]

@[simp] lemma dirOf_sector (d : Dir) : dirOf (Dir.sector d) = d := funext (entryOf_sector d)

@[simp] lemma sector_superOf (s : Sector) : (superOf s).sector = s := by
  funext j
  have hj := j.isLt
  have hs : sectorByte s j = s j := dif_pos hj
  rw [FsSuper.sector, FsSuper.byte, ← hs]
  split
  · rename_i h
    exact byteOf_wordAt _ h
  split
  · rename_i h₁ h₂
    refine (byteOf_wordAt _ (by omega)).trans ?_
    rw [show 4 + (j.val - 4) = j by omega]
  · rename_i h₁ h₂
    rw [dif_pos (by omega)]
    simp only [superOf]
    rw [show 8 + (j.val - 8) = j by omega]

@[simp] lemma sector_dirOf (s : Sector) : Dir.sector (dirOf s) = s := by
  funext j
  have hj := j.isLt
  have hs : sectorByte s j = s j := dif_pos hj
  rw [Dir.sector, FsEntry.byte, ← hs]
  simp only [dirOf, entryOf]
  split
  · rw [show 32 * (j.val / 32) + j.val % 32 = j by omega]
  split
  · rw [byteOf_wordAt _ (by omega), show 32 * (j.val / 32) + (20 + (j.val % 32 - 20)) = j by omega]
  split
  · rw [byteOf_wordAt _ (by omega), show 32 * (j.val / 32) + (24 + (j.val % 32 - 24)) = j by omega]
  · rw [byteOf_wordAt _ (by omega), show 32 * (j.val / 32) + (28 + (j.val % 32 - 28)) = j by omega]

end PyroOS
