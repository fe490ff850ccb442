import PyroOS.FileSystem.Write

/-! Reading files and mounting the disk. -/

namespace PyroOS

open Interaction

variable {may : Req → Prop} {nm ds : List Byte} {fs fs' : Fs} {d : Disk} {i : Fin 16} {w t : World}
  {name : Word}

/-! ### Reading -/

def delivered (w : World) (buf max : Word) (ds : List Byte) : World :=
  { w with mem := blit w.mem buf (min max.toNat ds.length) fun j => ds.getD j 0 }

def ReadBack (may : Req → Prop) (fs : Fs) (w : World) (nm : List Byte) (buf max : Word)
    (r : ℤ × Option Word) (t : World) : Prop :=
  (r = (-1, none) ∧ t = w ∧ ∀ ds, ¬ Holds w.disk fs.dir nm ds) ∨
    ∃ ds, Holds w.disk fs.dir nm ds ∧
      (r = (0, some (BitVec.ofNat 32 (min max.toNat ds.length))) ∧ t = delivered w buf max ds ∨
        r = (-1, none) ∧ t.disk = w.disk ∧ ∃ e, may e)

lemma content_length (d : Disk) (e : FsEntry) : (content d e).length = e.size.toNat := by simp [content]

lemma meets_fsRead (may : Req → Prop) (buf max : Word) {next : Word} (ht : Table next fs.dir)
    (hs : CString w.mem name nm) (hlen : nm.length ≤ 19) :
    (fsRead name buf max fs).Meets (Transfer may) (fun _ => True) (fun t => t.disk = w.disk)
      (ReadBack may fs w nm buf max) w := by
  have hnm := hs.isName hlen
  refine Prog.Meets.bind (meets_find hs (by omega) rfl (fun _ _ => trivial) (fun i hi hsp => ?_) fun hno => ?_)
  · have hn := (spells_nameAt hlen).mp hsp
    have hsize := ht.size_le i
    have hl := content_length w.disk (fs.dir i)
    dsimp only
    have hmin : (if max < (fs.dir i).size then max else (fs.dir i).size).toNat =
        min max.toNat (content w.disk (fs.dir i)).length := by
      rw [hl]
      split <;> rename_i h <;> rw [BitVec.lt_def] at h <;> omega
    generalize (if max < (fs.dir i).size then max else (fs.dir i).size) = size at hmin ⊢
    have hbytes : ∀ j < size.toNat, fileByte w.disk (fs.dir i).startLba j =
        (content w.disk (fs.dir i)).getD j 0 := by
      intro j hj
      have hjl : j < (content w.disk (fs.dir i)).length := by omega
      rw [List.getD_eq_getElem _ _ hjl]
      simp [content]
    refine Prog.Meets.bind (meets_readSectors (by omega) (sectorsOf_toNat _ (by omega)) (fun _ _ => rfl)
      (fun _ _ => trivial) (fun _ _ _ => trivial) ⟨rfl, Or.inr ⟨_, ⟨i, hi, hn, rfl⟩, Or.inl ⟨?_, ?_⟩⟩⟩
      fun s _ hf => ⟨rfl, Or.inr ⟨_, ⟨i, hi, hn, rfl⟩, Or.inr ⟨rfl, rfl, _, hf⟩⟩⟩)
    · rw [← hmin, BitVec.ofNat_toNat, BitVec.setWidth_eq]
    · rw [delivered, ← hmin, blit_congr hbytes]
  · refine ⟨rfl, Or.inl ⟨rfl, rfl, ?_⟩⟩
    rintro ds ⟨i, hi, hn, _⟩
    exact hno i (List.mem_finRange i) hi ((spells_nameAt hlen).mpr hn)

/-! ### Mounting -/

lemma OnDisk.mounted (h : OnDisk d) (h₁ : fs.super = superOf (d 99)) (h₂ : fs.dir = dirOf (d 100)) :
    Mounted fs d :=
  ⟨h₁.symm, by rw [h₁]; exact h.magic, by rw [h₁, h₂]; exact h.table, fun _ _ => by rw [h₂], h.table.size_le⟩

def Fs.loaded (fs : Fs) (super dir : Option Sector) : Fs :=
  { fs with super := (super.map superOf).getD fs.super, dir := (dir.map dirOf).getD fs.dir }

def Loaded (may : Req → Prop) (fs : Fs) (d : Disk) (fs' : Fs) : Prop :=
  ∃ s : Option Sector, ∃ e : Option Sector, fs' = fs.loaded s e ∧
    (s = some (d 99) ∨ s = none ∧ may (.ataRead superLba)) ∧
    (e = some (d 100) ∨ e = none ∧ may (.ataRead dirLba))

lemma meets_loadMeta {allowed : Req → Prop} {good : World → Prop} {post : Fs → World → Prop} (hg : good w)
    (ha : allowed (.ataRead superLba) ∧ allowed (.ataRead dirLba))
    (hp : ∀ fs', Loaded may fs w.disk fs' → post fs' w) :
    fs.loadMeta.Meets (Transfer may) allowed good post w := by
  have hdir : ∀ s : Option Sector, (s = some (w.disk 99) ∨ s = none ∧ may (.ataRead superLba)) →
      Prog.Meets (Transfer may) allowed good post
        (ataRead dirLba >>= fun d => pure (fs.loaded s d)) w := by
    intro s hs
    refine Prog.Meets.bind (meets_ataRead hg ha.2 ?_ fun hf => ?_)
    · rw [ataSector_dir]
      exact ⟨hg, hp _ ⟨s, _, rfl, hs, Or.inl rfl⟩⟩
    · exact ⟨hg, hp _ ⟨s, _, rfl, hs, Or.inr ⟨rfl, hf⟩⟩⟩
  refine Prog.Meets.bind (meets_ataRead hg ha.1 ?_ fun hf => ?_)
  · rw [ataSector_super]
    exact hdir _ (Or.inl rfl)
  · exact hdir _ (Or.inr ⟨rfl, hf⟩)

lemma meets_remount (may : Req → Prop) (hm : Mounted fs w.disk) :
    (fsInit fs).Meets (Transfer may) (fun _ => True) (fun t => t = w)
      (fun fs' t => t = w ∧ Mounted fs' w.disk ∧ fs'.super = fs.super ∧
        (fs'.dir = dirOf (w.disk 100) ∨ fs'.dir = fs.dir ∧ ∃ e, may e)) w := by
  refine Prog.Meets.bind (meets_loadMeta rfl ⟨trivial, trivial⟩ fun fs' hl => ?_)
  obtain ⟨s, e, rfl, hs, he⟩ := hl
  have hsuper : (fs.loaded s e).super = fs.super := by
    rcases hs with rfl | ⟨rfl, _⟩
    · exact hm.super
    · rfl
  rw [if_neg (by rw [hsuper, not_not]; exact hm.magic)]
  refine ⟨rfl, rfl, ?_, hsuper, ?_⟩
  · rcases he with rfl | ⟨rfl, _⟩
    · exact hm.onDisk.mounted (hsuper.trans hm.super.symm) rfl
    · exact ⟨hm.super.trans hsuper.symm, by rw [hsuper]; exact hm.magic, by rw [hsuper]; exact hm.table,
        hm.flushed, hm.sizes⟩
  · rcases he with rfl | ⟨rfl, hf⟩
    · exact Or.inl rfl
    · exact Or.inr ⟨rfl, _, hf⟩

lemma meets_mount (may : Req → Prop) (fs : Fs) (hd : OnDisk w.disk)
    (hmay : ¬ may (.ataRead superLba) ∧ ¬ may (.ataRead dirLba)) :
    (fsInit fs).Meets (Transfer may) (fun _ => True) (fun t => t = w)
      (fun fs' t => t = w ∧ Mounted fs' w.disk ∧ fs'.dir = dirOf (w.disk 100)) w := by
  refine Prog.Meets.bind (meets_loadMeta rfl ⟨trivial, trivial⟩ fun fs' hl => ?_)
  obtain ⟨s, e, rfl, hs, he⟩ := hl
  obtain rfl := hs.resolve_right fun hh => hmay.1 hh.2
  obtain rfl := he.resolve_right fun hh => hmay.2 hh.2
  have hsuper : (fs.loaded (some (w.disk 99)) (some (w.disk 100))).super = superOf (w.disk 99) := rfl
  rw [if_neg (by rw [hsuper, not_not]; exact hd.magic)]
  exact ⟨rfl, rfl, hd.mounted rfl rfl, rfl⟩

def formatted (fs : Fs) (d : Disk) : Disk :=
  Function.update (Function.update d 99 fs.blank.super.sector) 100 (Dir.sector fs.blank.dir)

lemma formatted_mounted (fs : Fs) (d : Disk) : Mounted fs.blank (formatted fs d) := by
  have h₁ : formatted fs d 99 = fs.blank.super.sector := by
    rw [formatted, Function.update_of_ne (by decide), Function.update_self]
  have h₂ : formatted fs d 100 = Dir.sector fs.blank.dir := Function.update_self ..
  have ht : Table fs.blank.super.nextFreeLba fs.blank.dir := Table.empty
  refine ⟨by rw [h₁, superOf_sector], rfl, ht, fun i _ => by rw [h₂, dirOf_sector], fun i => ?_⟩
  rw [h₂, dirOf_sector]
  exact ht.size_le i

lemma meets_format (fs : Fs) (hd : (superOf (w.disk 99)).magic ≠ fsMagic) :
    (fsInit fs).Meets (Transfer fun _ => False) (fun _ => True) (fun _ => True)
      (fun fs' t => fs' = fs.blank ∧ t = { w with disk := formatted fs w.disk }) w := by
  refine Prog.Meets.bind (meets_loadMeta trivial ⟨trivial, trivial⟩ fun fs' hl => ?_)
  obtain ⟨s, e, rfl, hs, he⟩ := hl
  obtain rfl := hs.resolve_right fun hh => hh.2
  rw [if_pos (show (fs.loaded (some (w.disk 99)) e).super.magic ≠ fsMagic from hd)]
  refine Prog.Meets.bind (meets_ataWrite trivial trivial trivial (Prog.Meets.bind
    (meets_ataWrite trivial trivial trivial ⟨trivial, rfl, ?_⟩ False.elim)) False.elim)
  simp only [World.setSector, ataSector_super, ataSector_dir]
  rfl

/-! ### A small machine -/

def sampleWorld (d : Disk) : World where
  mem a := if a = 0x80000 then 65 else if a = 0x80010 then 66 else if a = 0x80011 then 67 else 0
  disk := d
  clock := 0
  key := 0

lemma sampleWorld_name : CString (sampleWorld d).mem 0x80000 [65] := by
  refine ⟨fun i hi => ?_, rfl⟩
  obtain rfl : i = 0 := by simpa using hi
  exact ⟨rfl, show (65 : Byte) ≠ 0 by decide⟩

def sampleFs : Fs := .zeroed fun _ => 0

def sampleFormatted : World := sampleWorld (formatted sampleFs fun _ _ => 0)

lemma sample_data : dataBytes sampleFormatted.mem 0x80010 2 = [66, 67] := rfl

lemma sample_format :
    exec (fsInit sampleFs) (sampleWorld fun _ _ => 0) = some (sampleFs.blank, sampleFormatted) := by
  have hd : (superOf ((sampleWorld fun _ _ => 0).disk 99)).magic ≠ fsMagic := by decide
  obtain ⟨_, _, hrun, rfl, rfl⟩ := exec_of_meets (meets_format sampleFs hd)
  exact hrun

lemma sample_write : ∃ fs t, exec (fsWrite 0x80000 0x80010 2 sampleFs.blank) sampleFormatted = some ((0, fs), t) ∧
    fs.super.nextFreeLba = 133 := by
  have h : (exec (fsWrite 0x80000 0x80010 2 sampleFs.blank) sampleFormatted).map
      (fun r => (r.1.1, r.1.2.super.nextFreeLba)) = some (0, 133) := by decide +kernel
  obtain ⟨⟨⟨rc, fs⟩, t⟩, hrun, he⟩ := Option.map_eq_some_iff.mp h
  obtain ⟨rfl, hn⟩ := Prod.mk.inj he
  exact ⟨fs, t, hrun, hn⟩

end PyroOS
