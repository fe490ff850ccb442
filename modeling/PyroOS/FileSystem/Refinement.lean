import PyroOS.FileSystem.Mount

/-! Without I/O errors PyroFS is a finite map from names to contents. -/

namespace PyroOS

open Interaction

/-- Sequences of calls from a fresh format on, with the map they stand for. The memory of the callers
may be different at each call, and a mount may start from any content of the variables. -/
inductive Session : Files → Fs → Disk → Prop
  | format {fs₀ fs : Fs} {w t : World} : (superOf (w.disk 99)).magic ≠ fsMagic →
    exec (fsInit fs₀) w = some (fs, t) → Session (fun _ => none) fs t.disk
  | write {m : Files} {fs fs' : Fs} {w t : World} {name data size : Word} {nm : List Byte} {rc : ℤ} :
    Session m fs w.disk → CString w.mem name nm → nm.length ≤ 19 →
    exec (fsWrite name data size fs) w = some ((rc, fs'), t) →
    Session (if rc = 0 then Function.update m nm (some (dataBytes w.mem data size)) else m) fs' t.disk
  | read {m : Files} {fs : Fs} {w t : World} {name buf max : Word} {nm : List Byte}
    {r : ℤ × Option Word} : Session m fs w.disk → CString w.mem name nm → nm.length ≤ 19 →
    exec (fsRead name buf max fs) w = some (r, t) → Session m fs t.disk
  | mount {m : Files} {fs fs₀ fs' : Fs} {w t : World} : Session m fs w.disk →
    exec (fsInit fs₀) w = some (fs', t) → Session m fs' t.disk

variable {m : Files} {fs fs' : Fs} {w t : World} {d : Disk} {nm ds : List Byte} {name : Word}
  {i : Fin 16} {dir : Dir}

/-! ### Counting files -/

def usedEntries (dir : Dir) : Finset (Fin 16) := Finset.univ.filter fun i => (dir i).used ≠ 0

lemma mem_usedEntries : i ∈ usedEntries dir ↔ (dir i).used ≠ 0 := by simp [usedEntries]

lemma usedEntries_congr {dir' : Dir} (h : ∀ i, (dir' i).used = 0 ↔ (dir i).used = 0) :
    usedEntries dir' = usedEntries dir := by
  ext i
  rw [mem_usedEntries, mem_usedEntries]
  exact not_congr (h i)

lemma usedEntries_new {nm : ℕ → Byte} (hi : (fs.dir i).used = 0) :
    (usedEntries (fs.withNew i nm).dir).card = (usedEntries fs.dir).card + 1 := by
  have he : usedEntries (fs.withNew i nm).dir = insert i (usedEntries fs.dir) := by
    ext j
    rw [Finset.mem_insert, mem_usedEntries, mem_usedEntries]
    by_cases hj : j = i
    · simp [hj, Fs.withNew]
    · simp [hj, Fs.withNew]
  rw [he, Finset.card_insert_of_notMem]
  rw [mem_usedEntries, not_not]
  exact hi

lemma usedEntries_lt (hi : (dir i).used = 0) : (usedEntries dir).card < 16 := by
  have hn : i ∉ usedEntries dir := fun h => mem_usedEntries.mp h hi
  simpa using Finset.card_lt_univ_of_notMem hn

lemma Grown.room (h : Grown fs fs')
    (hroom : fs.super.nextFreeLba.toNat ≤ 101 + 32 * (usedEntries fs.dir).card) :
    fs'.super.nextFreeLba.toNat ≤ 101 + 32 * (usedEntries fs'.dir).card := by
  rcases h with ⟨hn, hu⟩ | ⟨i, nm, hi, hn, hu⟩
  · rw [hn, usedEntries_congr hu]
    exact hroom
  · rw [hn, usedEntries_congr hu, usedEntries_new hi]
    have hlt := usedEntries_lt hi
    have hs : slotSectors.toNat = 32 := rfl
    rw [Fs.withNew, BitVec.toNat_add]
    omega

/-! ### The map and the disk -/

structure Models (m : Files) (fs : Fs) (d : Disk) : Prop where
  mounted : Mounted fs d
  dir : fs.dir = dirOf (d 100)
  files : ∀ nm ds, IsName nm → (m nm = some ds ↔ Holds d fs.dir nm ds)
  names : ∀ nm, m nm ≠ none → IsName nm
  room : fs.super.nextFreeLba.toNat ≤ 101 + 32 * (usedEntries fs.dir).card

namespace Models

lemma ncard_names (h : Models m fs d) : {nm | m nm ≠ none}.ncard = (usedEntries fs.dir).card := by
  have hex : ∀ i, ∃ nm, (fs.dir i).used ≠ 0 → IsName nm ∧ Named (fs.dir i) nm := by
    intro i
    by_cases hi : (fs.dir i).used = 0
    · exact ⟨[], fun hh => (hh hi).elim⟩
    · obtain ⟨nm, hn⟩ := h.mounted.table.named i hi
      exact ⟨nm, fun _ => hn⟩
  choose g hg using hex
  have himage : {nm | m nm ≠ none} = g '' (usedEntries fs.dir : Set (Fin 16)) := by
    ext nm
    simp only [Set.mem_ofPred_eq, Set.mem_image, Finset.mem_coe, mem_usedEntries]
    constructor
    · intro hne
      have hnm := h.names nm hne
      obtain ⟨ds, hds⟩ := Option.ne_none_iff_exists'.mp hne
      obtain ⟨i, hi, hn, _⟩ := (h.files nm ds hnm).mp hds
      exact ⟨i, hi, (hg i hi).2.unique hn (hg i hi).1.2 hnm.2⟩
    · rintro ⟨i, hi, rfl⟩
      obtain ⟨hnm, hn⟩ := hg i hi
      rw [(h.files _ _ hnm).mpr ⟨i, hi, hn, rfl⟩]
      simp
  rw [himage, Set.InjOn.ncard_image, Set.ncard_coe_finset]
  intro i hi j hj he
  rw [Finset.mem_coe, mem_usedEntries] at hi hj
  refine h.mounted.table.unique i j (g i) (hg i hi).1 hi hj (hg i hi).2 ?_
  rw [he]
  exact (hg j hj).2

lemma full_iff (h : Models m fs d) : {nm | m nm ≠ none}.ncard = 16 ↔ ∀ i, (fs.dir i).used ≠ 0 := by
  rw [h.ncard_names]
  constructor
  · intro hc i hi
    have := usedEntries_lt hi
    omega
  · intro hall
    rw [usedEntries, Finset.filter_true_of_mem fun i _ => hall i]
    simp

lemma none_iff (h : Models m fs d) (hnm : IsName nm) : m nm = none ↔ ∀ ds, ¬ Holds d fs.dir nm ds := by
  rw [Option.eq_none_iff_forall_ne_some]
  exact forall_congr' fun ds => not_congr (h.files nm ds hnm)

lemma sectors (h : Models m fs d) : d 99 = fs.super.sector ∧ d 100 = Dir.sector fs.dir := by
  rw [← h.mounted.super, h.dir, sector_superOf, sector_dirOf]
  exact ⟨rfl, rfl⟩

lemma read (buf max : Word) (h : Models m fs w.disk) (hs : CString w.mem name nm) (hlen : nm.length ≤ 19) :
    (m nm = none ∧ exec (fsRead name buf max fs) w = some ((-1, none), w)) ∨
      ∃ ds, m nm = some ds ∧ exec (fsRead name buf max fs) w =
        some ((0, some (BitVec.ofNat 32 (min max.toNat ds.length))), delivered w buf max ds) := by
  have hmeets := meets_fsRead (fun _ => False) buf max h.mounted.table hs hlen
  obtain ⟨r, t, hrun, hr⟩ := exec_of_meets hmeets
  rcases hr with ⟨rfl, rfl, hno⟩ | ⟨ds, hds, ⟨rfl, rfl⟩ | ⟨_, _, _, hf⟩⟩
  · exact Or.inl ⟨(h.none_iff (hs.isName hlen)).mpr hno, hrun⟩
  · exact Or.inr ⟨ds, (h.files nm ds (hs.isName hlen)).mpr hds, hrun⟩
  · exact hf.elim

lemma write (data size : Word) (h : Models m fs w.disk) (hs : CString w.mem name nm) (hlen : nm.length ≤ 19) :
    ∃ rc fs' t, exec (fsWrite name data size fs) w = some ((rc, fs'), t) ∧
      Models (if rc = 0 then Function.update m nm (some (dataBytes w.mem data size)) else m) fs' t.disk ∧
      (rc = 0 ∨ rc = -1 ∧ fs' = fs ∧ t = w ∧ m nm = none ∧ {nm | m nm ≠ none}.ncard = 16) := by
  have hnm := hs.isName hlen
  have hk : Kept (fun nm' ds' => nm' ≠ nm ∧ m nm' = some ds') w.disk := by
    rintro nm' ds' ⟨_, hm⟩
    have hnm' := h.names nm' (by simp [hm])
    exact ⟨hnm', by rw [← h.dir]; exact (h.files nm' ds' hnm').mp hm⟩
  have hmeets := meets_fsWrite (fun _ => False) data size h.mounted hs hlen hk
    (fun ds hh => hh.1 rfl) (fun _ => ⟨id, id⟩) fun _ hfree => by
      obtain ⟨i, hi⟩ := Option.ne_none_iff_exists'.mp hfree
      have hlt := usedEntries_lt (firstFree_some hi)
      have := h.room
      omega
  obtain ⟨⟨rc, fs'⟩, t, hrun, hw, hgrown⟩ := exec_of_meets hmeets
  refine ⟨rc, fs', t, hrun, ?_⟩
  rcases hw.outcome with ⟨hrc, hdir, hds⟩ | ⟨_, _, hf⟩ | ⟨hr, ht, hfull⟩
  · rw [if_pos hrc]
    refine ⟨⟨hw.mounted, hdir, fun nm' ds' hnm' => ?_, fun nm' hne => ?_, hgrown.room h.room⟩, Or.inl hrc⟩
    · by_cases he : nm' = nm
      · subst he
        rw [Function.update_self, Option.some.injEq]
        obtain ⟨i, hi, hn, hc⟩ := hds
        refine ⟨?_, fun hh => ?_⟩
        · rintro rfl
          exact ⟨i, hi, hn, hc⟩
        · exact hc.symm.trans (hw.mounted.table.holds_unique hnm' hi hn hh)
      · rw [Function.update_of_ne he, h.files nm' ds' hnm']
        exact (hw.others nm' ds' hnm' he).symm
    · by_cases he : nm' = nm
      · exact he ▸ hnm
      · rw [Function.update_of_ne he] at hne
        exact h.names nm' hne
  · exact hf.elim
  · obtain ⟨rfl, rfl⟩ := Prod.mk.inj hr
    subst ht
    refine ⟨h, Or.inr ⟨rfl, rfl, rfl, (h.none_iff hnm).mpr ?_, h.full_iff.mpr fun i => (hfull i).1⟩⟩
    rintro ds ⟨i, _, hn, _⟩
    exact (hfull i).2 hn

lemma ncard_le (h : Models m fs d) : {nm | m nm ≠ none}.ncard ≤ 16 := by
  rw [h.ncard_names]
  simpa using Finset.card_le_univ (usedEntries fs.dir)

lemma not_full (h : Models (Function.update m nm (some ds)) fs d) (hnew : m nm = none) :
    {nm | m nm ≠ none}.ncard ≠ 16 := by
  intro hfull
  have hnames : {nm' | Function.update m nm (some ds) nm' ≠ none} = insert nm {nm | m nm ≠ none} := by
    ext nm'
    by_cases he : nm' = nm
    · simp [he]
    · simp [he]
  have hle := h.ncard_le
  rw [hnames, Set.ncard_insert_of_notMem (by simpa using hnew)
    (Set.finite_of_ncard_ne_zero (by omega)), hfull] at hle
  omega

lemma mount (fs₀ : Fs) (h : Models m fs w.disk) :
    ∃ fs', exec (fsInit fs₀) w = some (fs', w) ∧ fs'.super = fs.super ∧ fs'.dir = fs.dir := by
  obtain ⟨fs', t, hrun, rfl, hm, hdir⟩ :=
    exec_of_meets (meets_mount (fun _ => False) fs₀ h.mounted.onDisk ⟨id, id⟩)
  exact ⟨fs', hrun, hm.super.symm.trans h.mounted.super, hdir.trans h.dir.symm⟩

lemma congr (h : Models m fs d) (h₁ : fs'.super = fs.super) (h₂ : fs'.dir = fs.dir) : Models m fs' d :=
  ⟨h.mounted.onDisk.mounted (h₁.trans h.mounted.super.symm) (h₂.trans h.dir), h₂.trans h.dir,
    by rw [h₂]; exact h.files, h.names, by rw [h₁, h₂]; exact h.room⟩

lemma format (fs₀ : Fs) (hd : (superOf (w.disk 99)).magic ≠ fsMagic) :
    ∃ fs t, exec (fsInit fs₀) w = some (fs, t) ∧ Models (fun _ => none) fs t.disk := by
  obtain ⟨_, _, hrun, rfl, rfl⟩ := exec_of_meets (meets_format fs₀ hd)
  refine ⟨_, _, hrun, formatted_mounted .., ?_, fun nm ds _ => ⟨by simp, ?_⟩, fun nm hne => (hne rfl).elim, ?_⟩
  · dsimp only
    rw [formatted, Function.update_self, dirOf_sector]
  · rintro ⟨i, hi, _⟩
    exact (hi rfl).elim
  · exact (by decide : dataLba.toNat ≤ 101).trans (Nat.le_add_right ..)

end Models

lemma Session.models (h : Session m fs d) : Models m fs d := by
  induction h with
  | format hd hrun =>
    obtain ⟨_, _, hrun', hm⟩ := Models.format _ hd
    obtain ⟨rfl, rfl⟩ := Prod.mk.inj (Option.some.inj (hrun'.symm.trans hrun))
    exact hm
  | write _ hs hlen hrun ih =>
    obtain ⟨_, _, _, hrun', hm, _⟩ := ih.write _ _ hs hlen
    obtain ⟨hr, rfl⟩ := Prod.mk.inj (Option.some.inj (hrun'.symm.trans hrun))
    obtain ⟨rfl, rfl⟩ := Prod.mk.inj hr
    exact hm
  | read _ hs hlen hrun ih =>
    rcases ih.read _ _ hs hlen with ⟨_, hrun'⟩ | ⟨ds, _, hrun'⟩ <;>
      obtain ⟨_, rfl⟩ := Prod.mk.inj (Option.some.inj (hrun'.symm.trans hrun)) <;> exact ih
  | mount _ hrun ih =>
    obtain ⟨_, hrun', h₁, h₂⟩ := ih.mount _
    obtain ⟨rfl, rfl⟩ := Prod.mk.inj (Option.some.inj (hrun'.symm.trans hrun))
    exact ih.congr h₁ h₂

/-- After any calls on a fresh disk, `fs_read` returns what the map holds, `fs_write` fails exactly if a
seventeenth name is needed, and the variables are on the disk. -/
theorem fs_refines_map (h : Session m fs w.disk) :
    w.disk 99 = fs.super.sector ∧ w.disk 100 = Dir.sector fs.dir ∧
    ∀ name nm, CString w.mem name nm → nm.length ≤ 19 →
      (∀ buf max, match m nm with
        | none => exec (fsRead name buf max fs) w = some ((-1, none), w)
        | some ds => exec (fsRead name buf max fs) w =
          some ((0, some (BitVec.ofNat 32 (min max.toNat ds.length))), delivered w buf max ds)) ∧
      ∀ data size, ∃ rc fs' t, exec (fsWrite name data size fs) w = some ((rc, fs'), t) ∧
        (rc = 0 ∨ rc = -1 ∧ fs' = fs ∧ t.disk = w.disk) ∧
        (rc = -1 ↔ m nm = none ∧ {nm | m nm ≠ none}.ncard = 16) := by
  have hm := h.models
  refine ⟨hm.sectors.1, hm.sectors.2, fun name nm hs hlen => ⟨fun buf max => ?_, fun data size => ?_⟩⟩
  · rcases hm.read buf max hs hlen with ⟨hn, hrun⟩ | ⟨ds, hds, hrun⟩
    · rw [hn]
      exact hrun
    · rw [hds]
      exact hrun
  · obtain ⟨rc, fs', t, hrun, hm', ho⟩ := hm.write data size hs hlen
    refine ⟨rc, fs', t, hrun, ?_, ?_⟩
    · exact ho.imp_right fun hh => ⟨hh.1, hh.2.1, by rw [hh.2.2.1]⟩
    · rcases ho with rfl | ⟨rfl, _, _, hfull⟩
      · rw [if_pos rfl] at hm'
        exact ⟨fun hh => absurd hh (by decide), fun hh => (hm'.not_full hh.1 hh.2).elim⟩
      · exact ⟨fun _ => hfull, fun _ => rfl⟩

theorem fs_refines_map_written :
    ∃ fs w, Session (Function.update (fun _ => none) [65] (some [66, 67])) fs w.disk ∧
      exec (fsRead 0x80000 0x80020 1 fs) w = some ((0, some 1), delivered w 0x80020 1 [66, 67]) := by
  obtain ⟨fs, t, hrun, _⟩ := sample_write
  have h := Session.write (.format (by decide) sample_format) sampleWorld_name (by decide) hrun
  rw [if_pos rfl, sample_data] at h
  refine ⟨fs, sampleWorld t.disk, h, ?_⟩
  exact ((fs_refines_map (w := sampleWorld t.disk) h).2.2 _ _ sampleWorld_name
    (by decide)).1 0x80020 1

end PyroOS
