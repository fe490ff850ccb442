import PyroOS.FileSystem.Durability
import PyroOS.FileSystem.Names

/-! What is left behind by a file creation that fails, and by a format that is cut short. -/

namespace PyroOS

open Interaction

variable {may : Req → Prop} {fs fs' fs₀ : Fs} {d : Disk} {w t : World} {nm : List Byte} {name data size : Word}

/-! ### Creation -/

def readResult (name buf max : Word) (fs : Fs) (w : World) : Option ((ℤ × Option Word) × (Word → Byte)) :=
  (exec (fsRead name buf max fs) w).map fun x => (x.1, x.2.mem)

structure NoTrace (fs : Fs) (w : World) (name : Word) (nm : List Byte) (fs' : Fs) (t : World) : Prop where
  absent : ∀ buf max, exec (fsRead name buf max fs') t = some ((-1, none), t)
  used : ∀ i, (fs'.dir i).used ≠ 0 ↔ (fs.dir i).used ≠ 0
  next : fs'.super.nextFreeLba = fs.super.nextFreeLba
  others : ∀ name' nm' buf max, CString w.mem name' nm' → nm' ≠ nm →
    readResult name' buf max fs' t = readResult name' buf max fs w

theorem failed_create_iff (hs : CString w.mem name nm) (habs : Absent fs nm)
    (hr : Ends may (fsWrite name data size fs) w (-1, fs') t) :
    NoTrace fs w name nm fs' t ↔ ∀ i, (fs.dir i).used ≠ 0 := by
  obtain ⟨_, hw⟩ := (meets_fsWrite_written hs data size).result hr
  generalize hx : ((-1 : ℤ), fs') = r at hw
  cases hw with
  | found hi hsp _ => exact (habs _ hi hsp).elim
  | full _ hfull =>
    obtain rfl : fs' = fs := congrArg Prod.snd hx
    exact ⟨fun _ => hfull, fun _ => ⟨exec_fsRead_absent hs habs, fun _ => Iff.rfl, rfl, fun _ _ _ _ _ _ => rfl⟩⟩
  | @created i _ _ _ hi hsame =>
    subst hx
    constructor
    · intro h
      -- the entry that was taken is still in use
      have hused : (fs'.dir i).used = 1 := by
        rw [hsame.used, Fs.withNew]
        dsimp only
        rw [Function.update_self]
      exact ((h.used i).mp (by rw [hused]; decide) hi).elim
    · intro h
      exact (h i hi).elim

def crowdedFs : Fs := { sampleFs.blank with dir := fun _ => ⟨fun _ => 0, 0, 0, 1⟩ }

theorem failed_create_crowded : CString sampleFormatted.mem 0x80000 [65] ∧ Absent crowdedFs [65] ∧
    ∃ fs t, Ends (fun _ => True) (fsWrite 0x80000 0x80010 2 crowdedFs) sampleFormatted (-1, fs) t ∧
      NoTrace crowdedFs sampleFormatted 0x80000 [65] fs t := by
  have hs : CString sampleFormatted.mem 0x80000 [65] := sampleWorld_name
  have habs : Absent crowdedFs [65] := fun i _ hsp => by
    have hzero : crowdedFs.nameAt i 0 = 0 := by
      rw [Fs.nameAt, if_pos (by omega), sectorByte_dir _ i (by omega)]
      rfl
    exact absurd ((hsp.1 0 (by decide)).symm.trans hzero) (by decide)
  have hrc : (exec (fsWrite 0x80000 0x80010 2 crowdedFs) sampleFormatted).map (·.1.1) = some (-1) := by decide +kernel
  obtain ⟨⟨⟨rc, fs⟩, t⟩, hrun, hrc⟩ := Option.map_eq_some_iff.mp hrc
  obtain rfl : rc = -1 := hrc
  have hend := ends_of_exec hrun fun _ => True
  have hused : ∀ i, (crowdedFs.dir i).used ≠ 0 := fun _ => (by decide : (1 : Word) ≠ 0)
  exact ⟨hs, habs, fs, t, hend, (failed_create_iff hs habs hend).mpr hused⟩

/-- The first data sector of a new file is refused: the entry and its slot are taken all the same. -/
theorem failed_create_leaves_entry : Session (fun _ => none) sampleFs.blank sampleFormatted.disk ∧
    CString sampleFormatted.mem 0x80000 [65] ∧ Absent sampleFs.blank [65] ∧
    ∃ fs t, Ends (fun _ => True) (fsWrite 0x80000 0x80010 2 sampleFs.blank) sampleFormatted (-1, fs) t ∧
      (fs.dir 0).used ≠ 0 ∧ (sampleFs.blank.dir 0).used = 0 ∧
      fs.super.nextFreeLba ≠ sampleFs.blank.super.nextFreeLba ∧
      (exec (fsRead 0x80000 0x80020 2 fs) t).map (·.1) = some (0, some 0) := by
  have h : (((fsWrite 0x80000 0x80010 2 sampleFs.blank).run (refusing dataLba) sampleFormatted).bind fun x =>
      (exec (fsRead 0x80000 0x80020 2 x.1.2) x.2).map fun y =>
        (x.1.1, (x.1.2.dir 0).used, x.1.2.super.nextFreeLba, y.1)) = some (-1, 1, 133, (0, some 0)) := by decide +kernel
  obtain ⟨⟨⟨rc, fs⟩, t⟩, hx, h⟩ := Option.bind_eq_some_iff.mp h
  obtain ⟨⟨r, u⟩, hy, h⟩ := Option.map_eq_some_iff.mp h
  simp only [Prod.mk.injEq] at h
  obtain ⟨rfl, hused, hnext, rfl⟩ := h
  refine ⟨.format (by decide) sample_format, sampleWorld_name, fun i hi => (hi rfl).elim, fs, t,
    ends_of_refusing (fun _ => trivial) hx, ?_, rfl, ?_, by rw [hy]; rfl⟩
  · rw [hused]
    decide
  · rw [hnext]
    decide

/-! ### Format -/

def Req.sectorWrites : Req → ℕ
  | .ataWrite _ _ => 1
  | _ => 0

def CountStep (s : World × ℕ) (e : Req) (a : e.Reply) (t : World × ℕ) : Prop :=
  s.1.handle e = some (a, t.1) ∧ t.2 = s.2 + e.sectorWrites

def cutDisk (fs : Fs) (d : Disk) : ℕ → Disk
  | 0 => d
  | 1 => Function.update d 99 fs.blank.super.sector
  | _ => formatted fs d

structure EmptyFs (fs : Fs) (w : World) : Prop where
  unused : ∀ i, (fs.dir i).used = 0
  next : fs.super.nextFreeLba = 101
  reads : ∀ name nm buf max, CString w.mem name nm → exec (fsRead name buf max fs) w = some ((-1, none), w)

lemma emptyFs_of_unused (hu : ∀ i, (fs.dir i).used = 0) (hn : fs.super.nextFreeLba = 101) : EmptyFs fs w :=
  ⟨hu, hn, fun _ _ buf max hs => exec_fsRead_absent hs (fun i hi => (hi (hu i)).elim) buf max⟩

section

variable {good : World × ℕ → Prop} {k : ℕ} {lba : Word} {s : Sector}

lemma meets_countRead {post : Option Sector → World × ℕ → Prop} (hg : good (w, k))
    (hp : post (some (w.disk (ataSector lba))) (w, k)) :
    (ataRead lba).Meets CountStep (fun _ => True) good post (w, k) := by
  refine ⟨hg, trivial, ⟨_, (w, k), rfl, rfl⟩, ?_⟩
  rintro x ⟨t, n⟩ ⟨ht, hn⟩
  obtain ⟨rfl, rfl⟩ := Prod.mk.inj (Option.some.inj ht)
  obtain rfl : n = k := hn
  exact ⟨hg, hp⟩

lemma meets_countWrite {post : Bool → World × ℕ → Prop} (hg : good (w, k)) (hg' : good (w.setSector lba s, k + 1))
    (hp : post true (w.setSector lba s, k + 1)) :
    (ataWrite lba s).Meets CountStep (fun _ => True) good post (w, k) := by
  refine ⟨hg, trivial, ⟨_, (w.setSector lba s, k + 1), rfl, rfl⟩, ?_⟩
  rintro x ⟨t, n⟩ ⟨ht, hn⟩
  obtain ⟨rfl, rfl⟩ := Prod.mk.inj (Option.some.inj ht)
  obtain rfl : n = k + 1 := hn
  exact ⟨hg', hp⟩

end

lemma meets_fsInit_cut (hd : (superOf (w.disk 99)).magic ≠ fsMagic) :
    (fsInit fs₀).Meets CountStep (fun _ => True) (fun s => s.2 ≤ 2 ∧ s.1.disk = cutDisk fs₀ w.disk s.2)
      (fun _ _ => True) (w, 0) := by
  have h₀ : 0 ≤ 2 ∧ w.disk = cutDisk fs₀ w.disk 0 := ⟨Nat.zero_le _, rfl⟩
  have h₁ : 1 ≤ 2 ∧ (w.setSector superLba fs₀.blank.super.sector).disk = cutDisk fs₀ w.disk 1 := by
    refine ⟨by decide, ?_⟩
    rw [World.setSector_disk, ataSector_super]
    rfl
  have h₂ : 2 ≤ 2 ∧ ((w.setSector superLba fs₀.blank.super.sector).setSector dirLba (Dir.sector fs₀.blank.dir)).disk =
      cutDisk fs₀ w.disk 2 := by
    refine ⟨le_rfl, ?_⟩
    rw [World.setSector_disk, World.setSector_disk, ataSector_super, ataSector_dir]
    rfl
  refine Prog.Meets.bind (Prog.Meets.bind (meets_countRead h₀ (Prog.Meets.bind (meets_countRead h₀ ⟨h₀, ?_⟩))))
  rw [ataSector_super]
  dsimp only [Option.map_some, Option.getD_some]
  rw [if_pos hd]
  exact Prog.Meets.bind (meets_countWrite h₀ h₁ (Prog.Meets.bind (meets_countWrite h₁ h₂ ⟨h₂, trivial⟩)))

lemma exec_fsInit_magic (hd : (superOf (w.disk 99)).magic = fsMagic) (fs : Fs) :
    exec (fsInit fs) w = some (fs.loaded (some (w.disk 99)) (some (w.disk 100)), w) := by
  have hm : (fsInit fs).Meets (Transfer fun _ => False) (fun _ => True) (fun _ => True)
      (fun fs' t => fs' = fs.loaded (some (w.disk 99)) (some (w.disk 100)) ∧ t = w) w := by
    refine Prog.Meets.bind (meets_loadMeta trivial ⟨trivial, trivial⟩ fun fs' hl => ?_)
    obtain ⟨s, e, rfl, hs, he⟩ := hl
    obtain rfl := hs.resolve_right fun hh => hh.2
    obtain rfl := he.resolve_right fun hh => hh.2
    rw [if_neg (show ¬ (fs.loaded (some (w.disk 99)) (some (w.disk 100))).super.magic ≠ fsMagic from not_not.mpr hd)]
    exact ⟨trivial, rfl, rfl⟩
  obtain ⟨fs', t, hrun, rfl, rfl⟩ := exec_of_meets hm
  exact hrun

def Remounts (d : Disk) : Prop :=
  ∀ fs u, u.disk = d → ∃ fs' u', exec (fsInit fs) u = some (fs', u') ∧ EmptyFs fs' u'

lemma remounts_plain (hd : (superOf (d 99)).magic ≠ fsMagic) : Remounts d := by
  rintro fs u rfl
  obtain ⟨fs', u', hrun, rfl, _⟩ := exec_of_meets (meets_format fs hd)
  exact ⟨_, _, hrun, emptyFs_of_unused (fun _ => rfl) rfl⟩

lemma remounts_magic (hd : superOf (d 99) = fs₀.blank.super) : Remounts d ↔ ∀ i, (dirOf (d 100) i).used = 0 := by
  have hrun : ∀ fs (u : World), u.disk = d → exec (fsInit fs) u = some (fs.loaded (some (d 99)) (some (d 100)), u) := by
    rintro fs u rfl
    exact exec_fsInit_magic (by rw [hd]; rfl) fs
  constructor
  · intro h i
    obtain ⟨fs', u', hrun', hempty⟩ := h sampleFs (sampleWorld d) rfl
    obtain ⟨rfl, _⟩ := Prod.mk.inj (Option.some.inj ((hrun _ (sampleWorld d) rfl).symm.trans hrun'))
    exact hempty.unused i
  · intro hu fs u hd'
    refine ⟨_, _, hrun fs u hd', emptyFs_of_unused hu ?_⟩
    change (superOf (d 99)).nextFreeLba = 101
    rw [hd]
    rfl

theorem format_cut_iff {k : ℕ} {p : Kernel Fs} (hd : (superOf (w.disk 99)).magic ≠ fsMagic)
    (hr : (fsInit fs₀).Reaches CountStep (w, 0) p (t, k)) :
    Remounts t.disk ↔ (k = 1 → ∀ i, (dirOf (w.disk 100) i).used = 0) := by
  obtain ⟨hk, hdisk⟩ := ((meets_fsInit_cut hd).reaches hr).here
  dsimp only at hk hdisk
  rw [hdisk]
  interval_cases k
  · exact ⟨fun _ h => absurd h (by decide), fun _ => remounts_plain hd⟩
  · have hsuper : superOf (cutDisk fs₀ w.disk 1 99) = fs₀.blank.super := by
      rw [cutDisk, Function.update_self, superOf_sector]
    have hdir : cutDisk fs₀ w.disk 1 100 = w.disk 100 := by
      rw [cutDisk, Function.update_of_ne (by decide)]
    rw [remounts_magic hsuper, hdir]
    exact ⟨fun h _ => h, fun h => h rfl⟩
  · have hm := formatted_mounted fs₀ w.disk
    refine ⟨fun _ h => absurd h (by decide), fun _ => (remounts_magic hm.super).mpr fun i => ?_⟩
    rw [formatted, Function.update_self, dirOf_sector]
    rfl

lemma reaches_cut (hd : (superOf (w.disk 99)).magic ≠ fsMagic) : ∃ p, (fsInit fs₀).Reaches CountStep (w, 0) p
    (w.setSector superLba fs₀.blank.super.sector, 1) := by
  have hload : fs₀.loadMeta.Reaches CountStep (w, 0)
      (pure (fs₀.loaded (some (w.disk (ataSector superLba))) (some (w.disk (ataSector dirLba))))) (w, 0) :=
    .ask ⟨rfl, rfl⟩ (.ask ⟨rfl, rfl⟩ .here)
  suffices h : ∃ p, Prog.Reaches CountStep (if (fs₀.loaded (some (w.disk (ataSector superLba)))
      (some (w.disk (ataSector dirLba)))).super.magic ≠ fsMagic then
        (fs₀.loaded (some (w.disk (ataSector superLba))) (some (w.disk (ataSector dirLba)))).format
      else pure _) (w, 0) p (w.setSector superLba fs₀.blank.super.sector, 1) by
    obtain ⟨p, hp⟩ := h
    exact ⟨p, hload.bind hp⟩
  rw [ataSector_super, if_pos (show (fs₀.loaded (some (w.disk 99)) _).super.magic ≠ fsMagic from hd)]
  exact ⟨_, .ask ⟨rfl, rfl⟩ .here⟩

theorem format_cut_zeroed : (superOf ((sampleWorld fun _ _ => 0).disk 99)).magic ≠ fsMagic ∧
    ∃ p t, (fsInit sampleFs).Reaches CountStep (sampleWorld fun _ _ => 0, 0) p (t, 1) ∧ Remounts t.disk := by
  have hd : (superOf ((sampleWorld fun _ _ => 0).disk 99)).magic ≠ fsMagic := by decide
  have hdir : ∀ i, (dirOf ((sampleWorld fun _ _ => 0).disk 100) i).used = 0 := by decide
  obtain ⟨p, hr⟩ := reaches_cut hd
  exact ⟨hd, p, _, hr, (format_cut_iff hd hr).mpr fun _ => hdir⟩

def litteredDisk : Disk := fun x j => if x = 100 ∧ j = 28 then 1 else 0

/-- The same with a disk on which the next mount then finds a file. -/
theorem format_cut_littered : (superOf ((sampleWorld litteredDisk).disk 99)).magic ≠ fsMagic ∧
    ∃ p t, (fsInit sampleFs).Reaches CountStep (sampleWorld litteredDisk, 0) p (t, 1) ∧
      ∃ fs, exec (fsInit sampleFs) t = some (fs, t) ∧ (fs.dir 0).used ≠ 0 := by
  have hd : (superOf ((sampleWorld litteredDisk).disk 99)).magic ≠ fsMagic := by decide
  obtain ⟨p, hr⟩ := reaches_cut hd
  have hmagic : (superOf ((sampleWorld litteredDisk).setSector superLba sampleFs.blank.super.sector |>.disk 99)).magic =
      fsMagic := by decide
  exact ⟨hd, p, _, hr, _, exec_fsInit_magic hmagic sampleFs, by decide⟩

end PyroOS
