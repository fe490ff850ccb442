import PyroOS.FileSystem.Rules

/-! The files of a directory: names, slots and contents, in memory and on disk. -/

namespace PyroOS

variable {nm nm' : List Byte} {e : FsEntry} {fs : Fs} {d d' : Disk} {dir dir' : Dir} {next : Word}
  {i j : Fin 16} {ds : List Byte} {start : Word}

def IsName (nm : List Byte) : Prop := nm.length ≤ 19 ∧ ∀ b ∈ nm, b ≠ 0

def Named (e : FsEntry) (nm : List Byte) : Prop := Spells e.byte nm

lemma Spells.unique {a : ℕ → Byte} (h : Spells a nm) (h' : Spells a nm') (hz : ∀ b ∈ nm, b ≠ 0)
    (hz' : ∀ b ∈ nm', b ≠ 0) : nm = nm' := by
  have hle : ∀ {l l' : List Byte}, Spells a l → Spells a l' → (∀ b ∈ l', b ≠ 0) → l'.length ≤ l.length := by
    intro l l' hl hl' hn
    by_contra hlt
    have hlt' : l.length < l'.length := by omega
    exact hn _ (List.getElem_mem hlt') ((hl'.1 _ hlt').symm.trans hl.2)
  have hlen : nm.length = nm'.length := le_antisymm (hle h' h hz) (hle h h' hz')
  apply List.ext_getElem hlen
  intro k hk hk'
  rw [← h.1 k hk, ← h'.1 k hk']

lemma CString.isName {mem : Word → Byte} {p : Word} (h : CString mem p nm) (hlen : nm.length ≤ 19) :
    IsName nm := ⟨hlen, h.ne_zero⟩

lemma spells_nameAt (hlen : nm.length ≤ 19) : Spells (fs.nameAt i) nm ↔ Named (fs.dir i) nm := by
  have hb : ∀ k ≤ 19, fs.nameAt i k = (fs.dir i).byte k := by
    intro k hk
    rw [Fs.nameAt, if_pos (by omega), sectorByte_dir fs.dir i (by omega)]
  rw [Named, Spells, Spells, hb _ hlen]
  exact and_congr_left fun _ => forall₂_congr fun k hk => by rw [hb k (by omega)]

lemma named_congr {e' : FsEntry} (hlen : nm.length ≤ 19) (h : e'.name = e.name) : Named e' nm ↔ Named e nm := by
  have hb : ∀ k ≤ 19, e'.byte k = e.byte k := by
    intro k hk
    rw [FsEntry.byte, FsEntry.byte, dif_pos (by omega), dif_pos (by omega), h]
  rw [Named, Named, Spells, Spells, hb _ hlen]
  exact and_congr_left fun _ => forall₂_congr fun k hk => by rw [hb k (by omega)]

lemma named_withSize (hlen : nm.length ≤ 19) (size : Word) : Named (e.withSize size) nm ↔ Named e nm :=
  named_congr hlen rfl

lemma named_new (hn : IsName nm) (e : FsEntry) {used lba : Word} :
    Named { e with
      used := used
      name := fun j => copied e.byte nm nameLen j
      startLba := lba } nm := by
  have hbyte : ∀ k ≤ 19, FsEntry.byte { e with
      used := used
      name := fun j => copied e.byte nm nameLen j
      startLba := lba } k = copied e.byte nm nameLen k := by
    intro k hk
    rw [FsEntry.byte, dif_pos (by omega)]
  have hmin : min (nameLen - 1) nm.length = nm.length := min_eq_right hn.1
  refine ⟨fun k hk => ?_, ?_⟩
  · rw [hbyte k (hk.le.trans hn.1), copied, hmin, if_pos hk, List.getD_eq_getElem _ _ hk]
  · rw [hbyte _ hn.1, copied, hmin, if_neg (lt_irrefl _), if_pos rfl]

/-! ### Contents -/

def content (d : Disk) (e : FsEntry) : List Byte := (List.range e.size.toNat).map (fileByte d e.startLba)

lemma slot_sector {s : ℕ} (h : start.toNat + 32 ≤ 2 ^ 28) (hs : s < 32) :
    ataSector (addr start s) = start.toNat + s := by
  rw [ataSector_eq, addr, BitVec.toNat_add, BitVec.toNat_ofNat]
  omega

lemma content_congr (h : e.startLba.toNat + 32 ≤ 2 ^ 28) (hsize : e.size.toNat ≤ 16384)
    (hd : ∀ s < 32, d' (e.startLba.toNat + s) = d (e.startLba.toNat + s)) : content d' e = content d e := by
  refine List.map_congr_left fun k hk => ?_
  rw [List.mem_range] at hk
  rw [fileByte, fileByte, slot_sector h (by omega), hd _ (by omega)]

def Holds (d : Disk) (dir : Dir) (nm ds : List Byte) : Prop :=
  ∃ i, (dir i).used ≠ 0 ∧ Named (dir i) nm ∧ content d (dir i) = ds

abbrev Files := List Byte → Option (List Byte)

/-! ### Well-formed directories -/

structure Table (next : Word) (dir : Dir) : Prop where
  next_ge : 101 ≤ next.toNat
  next_le : next.toNat ≤ 2 ^ 28
  size_le : ∀ i, (dir i).size.toNat ≤ 16384
  slot : ∀ i, (dir i).used ≠ 0 →
    101 ≤ (dir i).startLba.toNat ∧ (dir i).startLba.toNat + 32 ≤ next.toNat
  named : ∀ i, (dir i).used ≠ 0 → ∃ nm, IsName nm ∧ Named (dir i) nm
  disjoint : ∀ i j, i ≠ j → (dir i).used ≠ 0 → (dir j).used ≠ 0 →
    (dir i).startLba.toNat + 32 ≤ (dir j).startLba.toNat ∨
      (dir j).startLba.toNat + 32 ≤ (dir i).startLba.toNat
  unique : ∀ i j nm, IsName nm → (dir i).used ≠ 0 → (dir j).used ≠ 0 → Named (dir i) nm →
    Named (dir j) nm → i = j

namespace Table

lemma sub (h : Table next dir) (hs : ∀ i, (dir' i).used ≠ 0 → dir i = dir' i)
    (hsize : ∀ i, (dir' i).size.toNat ≤ 16384) : Table next dir' := by
  have hu : ∀ i, (dir' i).used ≠ 0 → (dir i).used ≠ 0 := fun i hi => by rwa [hs i hi]
  refine ⟨h.next_ge, h.next_le, hsize, fun i hi => ?_, fun i hi => ?_, fun i j hij hi hj => ?_,
    fun i j nm hnm hi hj hni hnj => ?_⟩
  · rw [← hs i hi]
    exact h.slot i (hu i hi)
  · rw [← hs i hi]
    exact h.named i (hu i hi)
  · rw [← hs i hi, ← hs j hj]
    exact h.disjoint i j hij (hu i hi) (hu j hj)
  · rw [← hs i hi] at hni
    rw [← hs j hj] at hnj
    exact h.unique i j nm hnm (hu i hi) (hu j hj) hni hnj

lemma slot_le (h : Table next dir) (hi : (dir i).used ≠ 0) : (dir i).startLba.toNat + 32 ≤ 2 ^ 28 :=
  (h.slot i hi).2.trans h.next_le

lemma holds_unique (h : Table next dir) (hnm : IsName nm) (hi : (dir i).used ≠ 0) (hn : Named (dir i) nm)
    (hh : Holds d dir nm ds) : content d (dir i) = ds := by
  obtain ⟨j, hj, hnj, rfl⟩ := hh
  rw [h.unique i j nm hnm hi hj hn hnj]

lemma content_other (h : Table next dir) (hij : j ≠ i) (hi : (dir i).used ≠ 0) (hj : (dir j).used ≠ 0)
    (hd : ∀ x, x < (dir i).startLba.toNat ∨ (dir i).startLba.toNat + 32 ≤ x → d' x = d x) :
    content d' (dir j) = content d (dir j) := by
  refine content_congr (h.slot_le hj) (h.size_le j) fun s hs => hd _ ?_
  have := h.disjoint j i hij hj hi
  omega

lemma content_update (h : Table next dir) (hj : (dir j).used ≠ 0) {x : ℕ} (hx : x ≤ 100) (s : Sector) :
    content (Function.update d x s) (dir j) = content d (dir j) := by
  have hslot := h.slot j hj
  refine content_congr (h.slot_le hj) (h.size_le j) fun k _ => ?_
  rw [Function.update_of_ne (by omega)]

lemma resize (h : Table next dir) (i : Fin 16) {size : Word} (hs : size.toNat ≤ 16384) :
    Table next (Function.update dir i ((dir i).withSize size)) := by
  have hother : ∀ j, j ≠ i → Function.update dir i ((dir i).withSize size) j = dir j :=
    fun j hj => Function.update_of_ne hj ..
  have hfield : ∀ j, (Function.update dir i ((dir i).withSize size) j).used = (dir j).used ∧
      (Function.update dir i ((dir i).withSize size) j).startLba = (dir j).startLba ∧
      (Function.update dir i ((dir i).withSize size) j).name = (dir j).name := by
    intro j
    by_cases hj : j = i
    · rw [hj, Function.update_self]
      exact ⟨rfl, rfl, rfl⟩
    · rw [hother j hj]
      exact ⟨rfl, rfl, rfl⟩
  refine ⟨h.next_ge, h.next_le, fun j => ?_, fun j hj => ?_, fun j hj => ?_, fun j l hjl hj hl => ?_,
    fun j l nm hnm hj hl hnj hnl => ?_⟩
  · by_cases hj : j = i
    · rw [hj, Function.update_self]
      exact hs
    · rw [hother j hj]
      exact h.size_le j
  · rw [(hfield j).1] at hj
    rw [(hfield j).2.1]
    exact h.slot j hj
  · rw [(hfield j).1] at hj
    obtain ⟨nm, hnm, hn⟩ := h.named j hj
    exact ⟨nm, hnm, (named_congr hnm.1 (hfield j).2.2).mpr hn⟩
  · rw [(hfield j).1] at hj
    rw [(hfield l).1] at hl
    rw [(hfield j).2.1, (hfield l).2.1]
    exact h.disjoint j l hjl hj hl
  · rw [(hfield j).1] at hj
    rw [(hfield l).1] at hl
    exact h.unique j l nm hnm hj hl ((named_congr hnm.1 (hfield j).2.2).mp hnj)
      ((named_congr hnm.1 (hfield l).2.2).mp hnl)

end Table

lemma Table.empty : Table dataLba fun _ => ⟨fun _ => 0, 0, 0, 0⟩ :=
  ⟨by decide, by decide, fun _ => by decide, fun _ h => (h rfl).elim, fun _ h => (h rfl).elim,
    fun _ _ _ h => (h rfl).elim, fun _ _ _ _ h => (h rfl).elim⟩

structure OnDisk (d : Disk) : Prop where
  magic : (superOf (d 99)).magic = fsMagic
  table : Table (superOf (d 99)).nextFreeLba (dirOf (d 100))

structure Mounted (fs : Fs) (d : Disk) : Prop where
  super : superOf (d 99) = fs.super
  magic : fs.super.magic = fsMagic
  table : Table fs.super.nextFreeLba fs.dir
  flushed : ∀ i, (dirOf (d 100) i).used ≠ 0 → fs.dir i = dirOf (d 100) i
  sizes : ∀ i, (dirOf (d 100) i).size.toNat ≤ 16384

lemma Mounted.onDisk (h : Mounted fs d) : OnDisk d := by
  refine ⟨by rw [h.super]; exact h.magic, ?_⟩
  rw [h.super]
  exact h.table.sub h.flushed h.sizes

lemma Mounted.holds (h : Mounted fs d) (hh : Holds d (dirOf (d 100)) nm ds) : Holds d fs.dir nm ds := by
  obtain ⟨i, hi, hn, hc⟩ := hh
  have he := h.flushed i hi
  exact ⟨i, by rwa [he], by rwa [he], by rwa [he]⟩

end PyroOS
