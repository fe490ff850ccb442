import PyroOS.FileSystem.Durability

/-! The kernel image on the disk, which lies in front of the file system. -/

namespace PyroOS

open Interaction

variable {may : Req → Prop} {fs : Fs} {d d₀ : Disk} {w : World} {i : Fin 16} {nm : List Byte}
  {name data size : Word}

/-- The image is in the sectors from 1 on; sector 0 loads it. -/
def imageSectors (size : ℕ) : ℕ := (size + 511) / 512

/-- The largest image the linker script admits. -/
def imageLimit : ℕ := 120 * 512

def SlotsAbove (dir : Dir) : Prop := ∀ i, (dir i).used ≠ 0 →
  101 ≤ (dir i).startLba.toNat ∧ (dir i).startLba.toNat + 32 ≤ 2 ^ 28

lemma SlotsAbove.update {dir : Dir} {e : FsEntry} (h : SlotsAbove dir)
    (he : 101 ≤ e.startLba.toNat ∧ e.startLba.toNat + 32 ≤ 2 ^ 28) (i : Fin 16) :
    SlotsAbove (Function.update dir i e) := by
  intro j hj
  by_cases hji : j = i
  · rw [hji, Function.update_self]
    exact he
  · rw [Function.update_of_ne hji] at hj ⊢
    exact h j hj

def Usable (d : Disk) : Prop := (superOf (d 99)).magic = fsMagic →
  101 ≤ (superOf (d 99)).nextFreeLba.toNat ∧ SlotsAbove (dirOf (d 100))

structure Intact (d₀ d : Disk) : Prop where
  image : ∀ x ≤ 98, d x = d₀ x
  next : (superOf (d 99)).magic = fsMagic → 101 ≤ (superOf (d 99)).nextFreeLba.toNat
  dir : SlotsAbove (dirOf (d 100))

def Spares (e : Req) : Prop := ∀ lba s, e = .ataWrite lba s → 98 < ataSector lba

lemma spares_load (a : Word) : Spares (.load a) := nofun

lemma spares_write {lba : Word} {s : Sector} (h : 98 < ataSector lba) : Spares (.ataWrite lba s) := by
  rintro lba' s' he
  cases he
  exact h

namespace Intact

lemma setData (h : Intact d₀ d) {x : ℕ} (hx : 101 ≤ x) (s : Sector) : Intact d₀ (Function.update d x s) := by
  have h₉ : Function.update d x s 99 = d 99 := Function.update_of_ne (by omega) ..
  have h₁ : Function.update d x s 100 = d 100 := Function.update_of_ne (by omega) ..
  refine ⟨fun y hy => ?_, by rw [h₉]; exact h.next, by rw [h₁]; exact h.dir⟩
  rw [Function.update_of_ne (by omega)]
  exact h.image y hy

lemma setSuper (h : Intact d₀ d) {super : FsSuper} (hn : 101 ≤ super.nextFreeLba.toNat) :
    Intact d₀ (Function.update d 99 super.sector) := by
  refine ⟨fun y hy => ?_, fun _ => ?_, ?_⟩
  · rw [Function.update_of_ne (by omega)]
    exact h.image y hy
  · rw [Function.update_self, superOf_sector]
    exact hn
  · rw [Function.update_of_ne (by decide)]
    exact h.dir

lemma setDir (h : Intact d₀ d) {dir : Dir} (hd : SlotsAbove dir) :
    Intact d₀ (Function.update d 100 (Dir.sector dir)) := by
  refine ⟨fun y hy => ?_, ?_, ?_⟩
  · rw [Function.update_of_ne (by omega)]
    exact h.image y hy
  · rw [Function.update_of_ne (by decide)]
    exact h.next
  · rw [Function.update_self, dirOf_sector]
    exact hd

end Intact

/-! ### The calls -/

structure Placed (d₀ : Disk) (fs : Fs) (d : Disk) : Prop where
  intact : Intact d₀ d
  next : 101 ≤ fs.super.nextFreeLba.toNat
  dir : SlotsAbove fs.dir

lemma meets_put_spares (h : Intact d₀ w.disk) (hn : 101 ≤ fs.super.nextFreeLba.toNat) (hd : SlotsAbove fs.dir)
    (hi : (fs.dir i).used ≠ 0) :
    (fs.put i data size).Meets (Transfer may) Spares (fun t => Intact d₀ t.disk)
      (fun r t => Placed d₀ r.2 t.disk) w := by
  rw [Fs.put]
  have hsize := (clamp_toNat size).le.trans (min_le_right _ _)
  generalize (if slotSectors * 512 < size then slotSectors * 512 else size) = sz at hsize ⊢
  have hnsec := sectors_toNat hsize
  obtain ⟨hlo, hhi⟩ := hd i hi
  refine Prog.Meets.bind (meets_writeSectors w.mem (fun _ t => t.mem = w.mem ∧ Intact d₀ t.disk) (by omega)
    ⟨rfl, h⟩ (fun _ _ => spares_load _) ?_ ?_)
  · rintro s t hs ⟨hmem, ht⟩
    have hsec := slot_sector hhi (show s < 32 by omega)
    have hset : Intact d₀ (t.setSector (addr (fs.dir i).startLba s) (dataSector w.mem data sz s)).disk := by
      rw [World.setSector_disk, hsec]
      exact ht.setData (by omega) _
    exact ⟨hmem, ht, spares_write (by omega), hset, ⟨hmem, hset⟩, fun _ => ⟨ht, ht, hn, hd⟩⟩
  · rintro t ⟨_, ht⟩
    have hd' : SlotsAbove (fs.setEntry i ((fs.dir i).withSize sz)).dir :=
      hd.update (e := (fs.dir i).withSize sz) ⟨hlo, hhi⟩ i
    have hset : Intact d₀
        (t.setSector dirLba (Dir.sector (fs.setEntry i ((fs.dir i).withSize sz)).dir)).disk := by
      rw [World.setSector_disk, ataSector_dir]
      exact ht.setDir hd'
    exact ⟨ht, Prog.Meets.bind (meets_ataWrite ht (spares_write (by rw [ataSector_dir]; decide)) hset
      ⟨hset, hset, hn, hd'⟩ fun _ => ⟨ht, ht, hn, hd'⟩)⟩

lemma meets_fsWrite_spares (h : Placed d₀ fs w.disk) (hs : CString w.mem name nm) (hlen : nm.length < 2 ^ 32)
    (hfits : Fits fs nm) :
    (fsWrite name data size fs).Meets (Transfer may) Spares (fun t => Intact d₀ t.disk)
      (fun r t => Placed d₀ r.2 t.disk) w := by
  refine Prog.Meets.bind (meets_find hs hlen h.intact (fun _ _ => spares_load _)
    (fun i hi _ => meets_put_spares h.intact h.next h.dir hi) fun hno => ?_)
  have hroom := hfits fun j => hno j (List.mem_finRange j)
  cases hfree : fs.firstFree with
  | none =>
    dsimp only
    exact ⟨h.intact, h⟩
  | some i =>
    dsimp only
    have hend := hroom (by simp [hfree])
    have hlo := h.next
    set fs' := fs.withNew i (copied (fs.dir i).byte nm nameLen) with hfs
    have hnext : 101 ≤ fs'.super.nextFreeLba.toNat := by
      have hs : slotSectors.toNat = 32 := rfl
      rw [hfs, Fs.withNew, BitVec.toNat_add]
      omega
    have hused : (fs'.dir i).used ≠ 0 := by simp [hfs, Fs.withNew]
    have hdir : SlotsAbove fs'.dir := h.dir.update ⟨hlo, hend⟩ i
    have hset : Intact d₀ (w.setSector superLba fs'.super.sector).disk := by
      rw [World.setSector_disk, ataSector_super]
      exact h.intact.setSuper hnext
    exact Prog.Meets.bind (meets_create hs h.intact (fun _ _ => spares_load _) hfs
      (spares_write (by rw [ataSector_super]; decide)) hset
      (meets_put_spares hset hnext hdir hused) fun _ => meets_put_spares h.intact hnext hdir hused)

/-- Where the variables hold a superblock, the directory on the disk has to be good; where the disk has
none, the directory is written anew. -/
lemma meets_fsInit_spares (himage : ∀ x ≤ 98, w.disk x = d₀ x) (hu : Usable w.disk)
    (hfs : fs.super.magic = fsMagic → 101 ≤ fs.super.nextFreeLba.toNat ∧ SlotsAbove (dirOf (w.disk 100)))
    (hdir : SlotsAbove fs.dir)
    (hmay : SlotsAbove (dirOf (w.disk 100)) ∨ ∀ s, ¬ may (.ataWrite dirLba s)) :
    (fsInit fs).Meets (Transfer may) Spares (fun t => ∀ x ≤ 98, t.disk x = d₀ x)
      (fun fs' t => Placed d₀ fs' t.disk) w := by
  refine Prog.Meets.bind (meets_loadMeta himage ⟨nofun, nofun⟩ fun fs' hl => ?_)
  obtain ⟨s, e, rfl, hs, he⟩ := hl
  set fs' := fs.loaded s e with hfs'
  have hloaded : fs'.super.magic = fsMagic →
      101 ≤ fs'.super.nextFreeLba.toNat ∧ SlotsAbove (dirOf (w.disk 100)) := by
    rcases hs with rfl | ⟨rfl, _⟩
    · exact hu
    · exact hfs
  by_cases hmagic : fs'.super.magic = fsMagic
  · rw [if_neg (not_not.mpr hmagic)]
    obtain ⟨hn, hd⟩ := hloaded hmagic
    refine ⟨himage, ⟨himage, fun hm => (hu hm).1, hd⟩, hn, ?_⟩
    rcases he with rfl | ⟨rfl, _⟩
    · exact hd
    · exact hdir
  · rw [if_pos hmagic]
    have hblank : SlotsAbove fs'.blank.dir := fun i hi => (hi rfl).elim
    have hblankNext : 101 ≤ fs'.blank.super.nextFreeLba.toNat := show 101 ≤ dataLba.toNat by decide
    have hkeep : ∀ {t : World} {lba : Word} (s : Sector), 98 < ataSector lba → (∀ x ≤ 98, t.disk x = d₀ x) →
        ∀ x ≤ 98, (t.setSector lba s).disk x = d₀ x := by
      intro t lba s hl ht x hx
      rw [World.setSector_disk, Function.update_of_ne (by omega)]
      exact ht x hx
    have h₉ : 98 < ataSector superLba := by rw [ataSector_super]; decide
    have h₁ : 98 < ataSector dirLba := by rw [ataSector_dir]; decide
    -- The superblock may or may not have been written when the directory is.
    have hrest : ∀ t : World, (∀ x ≤ 98, t.disk x = d₀ x) → t.disk 100 = w.disk 100 →
        (t.disk 99 = fs'.blank.super.sector ∨ t.disk 99 = w.disk 99) →
        Prog.Meets (Transfer may) Spares (fun t => ∀ x ≤ 98, t.disk x = d₀ x)
          (fun fs' t => Placed d₀ fs' t.disk)
          (ataWrite dirLba (Dir.sector fs'.blank.dir) >>= fun _ => pure fs'.blank) t := by
      intro t ht ht₁ ht₉
      have hnext : (superOf (t.disk 99)).magic = fsMagic → 101 ≤ (superOf (t.disk 99)).nextFreeLba.toNat := by
        rcases ht₉ with h | h <;> rw [h]
        · rw [superOf_sector]
          exact fun _ => hblankNext
        · exact fun hm => (hu hm).1
      refine Prog.Meets.bind (meets_ataWrite ht (spares_write h₁) (hkeep _ h₁ ht) ?_ fun hf => ?_)
      · refine ⟨hkeep _ h₁ ht, ⟨hkeep _ h₁ ht, ?_, ?_⟩, hblankNext, hblank⟩
        · rw [World.setSector_disk, ataSector_dir, Function.update_of_ne (by decide)]
          exact hnext
        · rw [World.setSector_disk, ataSector_dir, Function.update_self, dirOf_sector]
          exact hblank
      · have hd : SlotsAbove (dirOf (t.disk 100)) := by
          rw [ht₁]
          exact hmay.resolve_right fun hno => hno _ hf
        exact ⟨ht, ⟨ht, hnext, hd⟩, hblankNext, hblank⟩
    refine Prog.Meets.bind (meets_ataWrite himage (spares_write h₉) (hkeep _ h₉ himage)
      (hrest _ (hkeep _ h₉ himage) ?_ (Or.inl ?_)) fun _ => hrest w himage rfl (Or.inr rfl))
    · rw [World.setSector_disk, ataSector_super, Function.update_of_ne (by decide)]
    · rw [World.setSector_disk, ataSector_super, Function.update_self]

/-! ### Runs -/

def exceptDirWrites (e : Req) : Prop := ∀ s, e ≠ .ataWrite dirLba s

/-- Calls from the first boot on, with disk `d₀`. Transfers may fail, except that the first call, if it
formats the disk, gets the directory written. -/
inductive Booted (d₀ : Disk) : Fs → Disk → Prop
  | boot {beyond : ℕ → Byte} {fs : Fs} {w t : World} : w.disk = d₀ →
    Ends exceptDirWrites (fsInit (.zeroed beyond)) w fs t → Booted d₀ fs t.disk
  | init {fs fs' : Fs} {w t : World} : Booted d₀ fs w.disk → Ends (fun _ => True) (fsInit fs) w fs' t →
    Booted d₀ fs' t.disk
  | reboot {beyond : ℕ → Byte} {fs fs' : Fs} {w t : World} : Booted d₀ fs w.disk →
    Ends (fun _ => True) (fsInit (.zeroed beyond)) w fs' t → Booted d₀ fs' t.disk
  | write {fs : Fs} {w t : World} {name data size : Word} {nm : List Byte} {r : ℤ × Fs} :
    Booted d₀ fs w.disk → CString w.mem name nm → nm.length < 2 ^ 32 → Fits fs nm →
    Ends (fun _ => True) (fsWrite name data size fs) w r t → Booted d₀ r.2 t.disk

def WritesAbove {α : Type} (k : ℕ) (may : Req → Prop) (p : Kernel α) (w : World) : Prop :=
  ∀ lba s next t, p.Reaches (Transfer may) w (.ask (.ataWrite lba s) next) t → k < ataSector lba

def ImageKept (k : ℕ) (d₀ : Disk) : Prop :=
  (∀ beyond w, w.disk = d₀ → WritesAbove k exceptDirWrites (fsInit (.zeroed beyond)) w) ∧
  ∀ fs w, Booted d₀ fs w.disk → (∀ x ≤ k, w.disk x = d₀ x) ∧
    WritesAbove k (fun _ => True) (fsInit fs) w ∧
    (∀ beyond, WritesAbove k (fun _ => True) (fsInit (.zeroed beyond)) w) ∧
    ∀ name data size nm, CString w.mem name nm → nm.length < 2 ^ 32 → Fits fs nm →
      WritesAbove k (fun _ => True) (fsWrite name data size fs) w

lemma writesAbove_of_meets {α : Type} {p : Kernel α} {k : ℕ} {good : World → Prop} {post : α → World → Prop}
    (h : p.Meets (Transfer may) Spares good post w) (hk : k ≤ 98) : WritesAbove k may p w :=
  fun _ _ _ _ hr => hk.trans_lt ((h.reaches hr).2.1 _ _ rfl)

lemma Usable.meets_boot (hu : Usable w.disk) (beyond : ℕ → Byte) :
    (fsInit (.zeroed beyond)).Meets (Transfer exceptDirWrites) Spares (fun t => ∀ x ≤ 98, t.disk x = w.disk x)
      (fun fs' t => Placed w.disk fs' t.disk) w :=
  meets_fsInit_spares (fun _ _ => rfl) hu (fun h => absurd h (show ¬ (0 : Word) = fsMagic by decide))
    (fun _ h => (h rfl).elim) (Or.inr fun s h => h s rfl)

lemma Placed.meets_init (h : Placed d₀ fs w.disk) :
    (fsInit fs).Meets (Transfer may) Spares (fun t => ∀ x ≤ 98, t.disk x = d₀ x)
      (fun fs' t => Placed d₀ fs' t.disk) w :=
  meets_fsInit_spares h.intact.image (fun hm => ⟨h.intact.next hm, h.intact.dir⟩)
    (fun _ => ⟨h.next, h.intact.dir⟩) h.dir (Or.inl h.intact.dir)

lemma Placed.meets_reboot (h : Placed d₀ fs w.disk) (beyond : ℕ → Byte) :
    (fsInit (.zeroed beyond)).Meets (Transfer may) Spares (fun t => ∀ x ≤ 98, t.disk x = d₀ x)
      (fun fs' t => Placed d₀ fs' t.disk) w :=
  meets_fsInit_spares h.intact.image (fun hm => ⟨h.intact.next hm, h.intact.dir⟩)
    (fun h => absurd h (show ¬ (0 : Word) = fsMagic by decide)) (fun _ h => (h rfl).elim) (Or.inl h.intact.dir)

lemma Booted.placed (hu : Usable d₀) (h : Booted d₀ fs d) : Placed d₀ fs d := by
  induction h with
  | boot hw hr =>
    subst hw
    exact (hu.meets_boot _).result hr
  | init _ hr ih => exact ih.meets_init.result hr
  | reboot _ hr ih => exact (ih.meets_reboot _).result hr
  | write _ hs hlen hfits hr ih => exact (meets_fsWrite_spares ih hs hlen hfits).result hr

lemma Usable.imageKept (hu : Usable d₀) {k : ℕ} (hk : k ≤ 98) : ImageKept k d₀ := by
  refine ⟨?_, fun fs w hb => ?_⟩
  · rintro beyond w rfl
    exact writesAbove_of_meets (hu.meets_boot beyond) hk
  · have hp := hb.placed hu
    exact ⟨fun x hx => hp.intact.image x (hx.trans hk), writesAbove_of_meets hp.meets_init hk,
      fun beyond => writesAbove_of_meets (hp.meets_reboot beyond) hk,
      fun _ _ _ _ hs hlen hfits => writesAbove_of_meets (meets_fsWrite_spares hp hs hlen hfits) hk⟩

lemma usable_empty : Usable fun _ _ => 0 := fun h => absurd h (by decide)

lemma superblock_changed : sampleFormatted.disk 99 ≠ fun _ => 0 := fun h => absurd (congrFun h 0) (by decide)

/-- The image is safe on all disks just if it has at most 98 sectors. -/
theorem image_kept_iff (size : ℕ) :
    (∀ d₀, Usable d₀ → ImageKept (imageSectors size) d₀) ↔ imageSectors size ≤ 98 := by
  refine ⟨fun h => ?_, fun hk d₀ hu => hu.imageKept hk⟩
  by_contra hk
  have hb : Booted (fun _ _ => 0) sampleFs.blank sampleFormatted.disk := .boot rfl (ends_of_exec sample_format _)
  exact superblock_changed (((h _ usable_empty).2 _ sampleFormatted hb).1 99 (by omega))

/-- The largest image reaches up to sector 120, and the first boot changes sector 99 of it. -/
theorem image_overwritten : ∃ fs t, exec (fsInit (.zeroed fun _ => 0)) (sampleWorld fun _ _ => 0) = some (fs, t) ∧
    99 ≤ imageSectors imageLimit ∧ t.disk 99 ≠ (sampleWorld fun _ _ => 0).disk 99 :=
  ⟨_, _, sample_format, by decide, superblock_changed⟩

end PyroOS
