import PyroOS.FileSystem.Mount

/-! What survives power failures and failing transfers. -/

namespace PyroOS

open Interaction

variable {m m' : Files} {fs : Fs} {d : Disk} {w : World} {nm ds : List Byte} {name : Word}

def Saved (m : Files) (d : Disk) : Prop := Kept (fun nm ds => m nm = some ds) d

def Fits (fs : Fs) (nm : List Byte) : Prop :=
  (∀ j, (fs.dir j).used ≠ 0 → ¬ Spells (fs.nameAt j) nm) → fs.firstFree ≠ none →
    fs.super.nextFreeLba.toNat + 32 ≤ 2 ^ 28

def Files.after (m : Files) (nm ds : List Byte) (rc : ℤ) : Files :=
  Function.update m nm (if rc = 0 then some ds else none)

lemma saved_empty (d : Disk) : Saved (fun _ => none) d := nofun

lemma meets_fsWrite_saved (may : Req → Prop) (data size : Word) (hm : Mounted fs w.disk) (hk : Saved m w.disk)
    (hs : CString w.mem name nm) (hlen : nm.length ≤ 19)
    (hmay : ∀ s, ¬ may (.ataWrite superLba s) ∧ ¬ may (.ataWrite dirLba s)) (hfits : Fits fs nm) :
    (fsWrite name data size fs).Meets (Transfer may) (fun _ => True)
      (fun t => OnDisk t.disk ∧ Saved (Function.update m nm none) t.disk)
      (fun r t => Mounted r.2 t.disk ∧ Saved (m.after nm (dataBytes w.mem data size) r.1) t.disk) w := by
  have hother : ∀ {nm' ds'}, Function.update m nm none nm' = some ds' → nm' ≠ nm := by
    rintro nm' ds' hh rfl
    rw [Function.update_self] at hh
    cases hh
  have hk' : Saved (Function.update m nm none) w.disk := by
    intro nm' ds' hh
    have hne := hother hh
    rw [Function.update_of_ne hne] at hh
    exact hk nm' ds' hh
  have hroom (hnew : ∀ j, (fs.dir j).used ≠ 0 → ¬ Named (fs.dir j) nm) :=
    hfits fun j hj hsp => hnew j hj ((spells_nameAt hlen).mp hsp)
  refine ((meets_fsWrite may data size hm hs hlen hk' (fun ds hh => hother hh rfl) hmay hroom).weaken
    (fun _ => id) fun t ht => ⟨ht.onDisk, ht.kept⟩).mono fun r t _ ht => ⟨ht.1.mounted, fun nm' ds' hh => ?_⟩
  by_cases he : nm' = nm
  · subst he
    rw [Files.after, Function.update_self] at hh
    split at hh
    · rename_i hrc
      obtain rfl := Option.some.inj hh
      rcases ht.1.outcome with ⟨_, hdir, hds⟩ | ⟨hrc', _⟩ | ⟨hr, _⟩
      · rw [hdir] at hds
        exact ⟨hs.isName hlen, hds⟩
      · exact absurd (hrc.symm.trans hrc') (by decide)
      · exact absurd (hrc.symm.trans (congrArg Prod.fst hr)) (show ¬ (0 : ℤ) = -1 by decide)
    · cases hh
  · rw [Files.after, Function.update_of_ne he] at hh
    exact ht.1.kept nm' ds' (by rwa [Function.update_of_ne he])

lemma read_saved (buf max : Word) (hm : Mounted fs w.disk) (hk : Saved m w.disk) (hs : CString w.mem name nm)
    (hds : m nm = some ds) :
    exec (fsRead name buf max fs) w =
      some ((0, some (BitVec.ofNat 32 (min max.toNat ds.length))), delivered w buf max ds) := by
  obtain ⟨hnm, hh⟩ := hk nm ds hds
  obtain ⟨i, hi, hn, hc⟩ := hm.holds hh
  obtain ⟨r, t, hrun, hr⟩ := exec_of_meets (meets_fsRead (fun _ => False) buf max hm.table hs hnm.1)
  rcases hr with ⟨_, _, hno⟩ | ⟨ds', hds', ⟨rfl, rfl⟩ | ⟨_, _, _, hf⟩⟩
  · exact (hno ds ⟨i, hi, hn, hc⟩).elim
  · obtain rfl : ds = ds' := hc.symm.trans (hm.table.holds_unique hnm hi hn hds')
    exact hrun
  · exact hf.elim

/-! ### Power failures -/

inductive Cut (m : Files) (fs : Fs) (d : Disk) : Files → Disk → Prop
  | between : Cut m fs d m d
  | inside {w t : World} {name data size : Word} {nm : List Byte} {p : Kernel (ℤ × Fs)} :
    w.disk = d → CString w.mem name nm → nm.length ≤ 19 → Fits fs nm →
    Prog.Reaches (Prog.handled World.handle) (fsWrite name data size fs) w p t →
    Cut m fs d (Function.update m nm none) t.disk

/-- Rounds of calls, each ended by a power failure and a mount; `m` has the names whose last write ran to
its end with result 0. -/
inductive Rounds : Files → Fs → Disk → Prop
  | format {fs₀ fs : Fs} {w t : World} : (superOf (w.disk 99)).magic ≠ fsMagic →
    exec (fsInit fs₀) w = some (fs, t) → Rounds (fun _ => none) fs t.disk
  | write {m : Files} {fs fs' : Fs} {w t : World} {name data size : Word} {nm : List Byte} {rc : ℤ} :
    Rounds m fs w.disk → CString w.mem name nm → nm.length ≤ 19 → Fits fs nm →
    exec (fsWrite name data size fs) w = some ((rc, fs'), t) →
    Rounds (m.after nm (dataBytes w.mem data size) rc) fs' t.disk
  | mount {m m' : Files} {fs fs₀ fs' : Fs} {d : Disk} {w t : World} : Rounds m fs d → Cut m fs d m' w.disk →
    exec (fsInit fs₀) w = some (fs', t) → Rounds m' fs' t.disk

lemma Cut.saved (hc : Cut m fs d m' w.disk) (hm : Mounted fs d) (hk : Saved m d) :
    OnDisk w.disk ∧ Saved m' w.disk := by
  generalize hd : w.disk = d' at hc ⊢
  cases hc with
  | between => exact ⟨hm.onDisk, hk⟩
  | @inside w t name data size nm p hw hs hlen hfits hr =>
    subst hw
    have hmeets := meets_fsWrite_saved (fun _ => False) data size hm hk hs hlen (fun _ => ⟨id, id⟩) hfits
    rw [transfer_handled] at hmeets
    exact (hmeets.reaches hr).here

lemma mount_saved (fs₀ : Fs) (hd : OnDisk w.disk) :
    ∃ fs', exec (fsInit fs₀) w = some (fs', w) ∧ Mounted fs' w.disk := by
  obtain ⟨fs', t, hrun, rfl, hm, _⟩ := exec_of_meets (meets_mount (fun _ => False) fs₀ hd ⟨id, id⟩)
  exact ⟨fs', hrun, hm⟩

lemma Rounds.saved (h : Rounds m fs d) : Mounted fs d ∧ Saved m d := by
  induction h with
  | format hd hrun =>
    obtain ⟨_, _, hrun', rfl, rfl⟩ := exec_of_meets (meets_format _ hd)
    obtain ⟨rfl, rfl⟩ := Prod.mk.inj (Option.some.inj (hrun'.symm.trans hrun))
    exact ⟨formatted_mounted .., saved_empty _⟩
  | write _ hs hlen hfits hrun ih =>
    obtain ⟨_, _, hrun', hw⟩ := exec_of_meets
      (meets_fsWrite_saved _ _ _ ih.1 ih.2 hs hlen (fun _ => ⟨id, id⟩) hfits)
    obtain ⟨rfl, rfl⟩ := Prod.mk.inj (Option.some.inj (hrun'.symm.trans hrun))
    exact hw
  | mount _ hc hrun ih =>
    obtain ⟨hd, hk⟩ := hc.saved ih.1 ih.2
    obtain ⟨_, hrun', hm⟩ := mount_saved _ hd
    obtain ⟨rfl, rfl⟩ := Prod.mk.inj (Option.some.inj (hrun'.symm.trans hrun))
    exact ⟨hm, hk⟩

/-- After every mount the slots are disjoint and in their place, the names are unique, and every file
whose last write was finished reads back. -/
theorem crash_consistency (h : Rounds m fs d) (hc : Cut m fs d m' w.disk) (fs₀ : Fs) :
    ∃ fs', exec (fsInit fs₀) w = some (fs', w) ∧
      (∀ i, (fs'.dir i).used ≠ 0 → 101 ≤ (fs'.dir i).startLba.toNat ∧
        (fs'.dir i).startLba.toNat + 32 ≤ fs'.super.nextFreeLba.toNat) ∧
      (∀ i j, i ≠ j → (fs'.dir i).used ≠ 0 → (fs'.dir j).used ≠ 0 →
        (fs'.dir i).startLba.toNat + 32 ≤ (fs'.dir j).startLba.toNat ∨
          (fs'.dir j).startLba.toNat + 32 ≤ (fs'.dir i).startLba.toNat) ∧
      (∀ i, (fs'.dir i).used ≠ 0 → ∃ nm, IsName nm ∧ Named (fs'.dir i) nm ∧
        ∀ j, (fs'.dir j).used ≠ 0 → Named (fs'.dir j) nm → j = i) ∧
      ∀ w' name nm ds buf max, w'.disk = w.disk → CString w'.mem name nm → m' nm = some ds →
        exec (fsRead name buf max fs') w' =
          some ((0, some (BitVec.ofNat 32 (min max.toNat ds.length))), delivered w' buf max ds) := by
  obtain ⟨hd, hk⟩ := hc.saved h.saved.1 h.saved.2
  obtain ⟨fs', hrun, hm⟩ := mount_saved fs₀ hd
  refine ⟨fs', hrun, hm.table.slot, hm.table.disjoint, fun i hi => ?_, fun w' name nm ds buf max hw' hs hds => ?_⟩
  · obtain ⟨nm, hnm, hn⟩ := hm.table.named i hi
    exact ⟨nm, hnm, hn, fun j hj hnj => hm.table.unique j i nm hnm hj hi hnj hn⟩
  · rw [← hw'] at hm hk
    exact read_saved buf max hm hk hs hds

theorem crash_consistency_second_write :
    ∃ m fs d m' w fs', Rounds m fs d ∧ Cut m fs d m' w.disk ∧ exec (fsInit sampleFs) w = some (fs', w) ∧
      exec (fsRead 0x80000 0x80020 2 fs') w = some ((0, some 2), delivered w 0x80020 2 [66, 67]) := by
  obtain ⟨fs, t, hrun, hn⟩ := sample_write
  have h := Rounds.write (.format (by decide) sample_format) sampleWorld_name (by decide)
    (fun _ _ => by decide) hrun
  rw [sample_data] at h
  have hfits : Fits fs [66, 67] := fun _ _ => by
    rw [hn]
    decide
  have hs : ∀ {d}, CString (sampleWorld d).mem 0x80010 [66, 67] := by
    refine fun {d} => ⟨fun i hi => ?_, rfl⟩
    have hi' : i = 0 ∨ i = 1 := by
      rw [List.length_cons, List.length_cons, List.length_nil] at hi
      omega
    rcases hi' with rfl | rfl
    · exact ⟨rfl, show (66 : Byte) ≠ 0 by decide⟩
    · exact ⟨rfl, show (67 : Byte) ≠ 0 by decide⟩
  have hmeets := meets_fsWrite_saved (w := sampleWorld t.disk) (fun _ => False) 0x80000 1
    h.saved.1 h.saved.2 hs (by decide) (fun _ => ⟨id, id⟩) hfits
  rw [transfer_handled] at hmeets
  obtain ⟨_, u, hr, _⟩ := hmeets.returns
  have hc : Cut (Files.after (fun _ => none) [65] [66, 67] 0) fs t.disk _ (sampleWorld u.disk).disk :=
    .inside (w := sampleWorld t.disk) (t := u) rfl hs (by decide) hfits hr
  obtain ⟨fs', hmount, _, _, _, hread⟩ := crash_consistency h hc sampleFs
  exact ⟨_, fs, t.disk, _, _, fs', h, hc, hmount,
    hread _ 0x80000 [65] [66, 67] 0x80020 2 rfl sampleWorld_name (by simp [Files.after])⟩

/-! ### Failing transfers -/

/-- Calls in which transfers fail: `may` says which, `boot` which when the variables are not yet loaded,
and `fits` which files may be made. -/
inductive FaultyRun (may boot : Req → Prop) (fits : Fs → List Byte → Prop) : Files → Fs → Disk → Prop
  | boot {fs₀ fs : Fs} {w t : World} : OnDisk w.disk → Ends boot (fsInit fs₀) w fs t →
    FaultyRun may boot fits (fun _ => none) fs t.disk
  | write {m : Files} {fs fs' : Fs} {w t : World} {name data size : Word} {nm : List Byte} {rc : ℤ} :
    FaultyRun may boot fits m fs w.disk → CString w.mem name nm → nm.length ≤ 19 → size.toNat ≤ 16384 →
    fits fs nm → Ends may (fsWrite name data size fs) w (rc, fs') t →
    FaultyRun may boot fits (m.after nm (dataBytes w.mem data size) rc) fs' t.disk
  | read {m : Files} {fs : Fs} {w t : World} {name buf max : Word} {nm : List Byte} {r : ℤ × Option Word} :
    FaultyRun may boot fits m fs w.disk → CString w.mem name nm → nm.length ≤ 19 →
    Ends may (fsRead name buf max fs) w r t → FaultyRun may boot fits m fs t.disk
  | init {m : Files} {fs fs' : Fs} {w t : World} : FaultyRun may boot fits m fs w.disk →
    Ends may (fsInit fs) w fs' t → FaultyRun may boot fits m fs' t.disk
  | reboot {m : Files} {fs fs₀ fs' : Fs} {w t : World} : FaultyRun may boot fits m fs w.disk →
    Ends boot (fsInit fs₀) w fs' t → FaultyRun may boot fits m fs' t.disk

def exceptMetaWrites (e : Req) : Prop := ∀ s, e ≠ .ataWrite superLba s ∧ e ≠ .ataWrite dirLba s

def exceptMeta (e : Req) : Prop := exceptMetaWrites e ∧ e ≠ .ataRead superLba ∧ e ≠ .ataRead dirLba

lemma FaultyRun.saved (h : FaultyRun exceptMetaWrites exceptMeta Fits m fs d) : Mounted fs d ∧ Saved m d := by
  have hboot : ∀ {fs₀ fs' : Fs} {w t : World}, OnDisk w.disk → Ends exceptMeta (fsInit fs₀) w fs' t →
      t = w ∧ Mounted fs' w.disk := by
    intro fs₀ fs' w t hd hr
    obtain ⟨rfl, hm, _⟩ := (meets_mount exceptMeta fs₀ hd
      ⟨fun hh => hh.2.1 rfl, fun hh => hh.2.2 rfl⟩).result hr
    exact ⟨rfl, hm⟩
  induction h with
  | boot hd hr =>
    obtain ⟨rfl, hm⟩ := hboot hd hr
    exact ⟨hm, saved_empty _⟩
  | write _ hs hlen _ hfits hr ih =>
    exact (meets_fsWrite_saved _ _ _ ih.1 ih.2 hs hlen
      (fun s => ⟨fun hh => (hh s).1 rfl, fun hh => (hh s).2 rfl⟩) hfits).result hr
  | read _ hs hlen hr ih =>
    have hd := ((meets_fsRead _ _ _ ih.1.table hs hlen).reaches hr).here
    rw [hd]
    exact ih
  | init _ hr ih =>
    obtain ⟨rfl, hm, _⟩ := (meets_remount _ ih.1).result hr
    exact ⟨hm, ih.2⟩
  | reboot _ hr ih =>
    obtain ⟨rfl, hm⟩ := hboot ih.1.onDisk hr
    exact ⟨hm, ih.2⟩

/-- Where no write of the superblock or the directory fails, nor a read of them at boot, a file whose
last write returned 0 reads back. -/
theorem acknowledged_survives (h : FaultyRun exceptMetaWrites exceptMeta Fits m fs w.disk)
    (hs : CString w.mem name nm) (hds : m nm = some ds) (buf max : Word) :
    exec (fsRead name buf max fs) w =
      some ((0, some (BitVec.ofNat 32 (min max.toNat ds.length))), delivered w buf max ds) :=
  read_saved buf max h.saved.1 h.saved.2 hs hds

lemma ends_of_exec {α : Type} {p : Kernel α} {a : α} {t : World} (h : exec p w = some (a, t)) (may : Req → Prop) :
    Ends may p w a t :=
  (Prog.reaches_of_run h).mono fun _ _ _ _ => .done

lemma sampleFormatted_onDisk : OnDisk sampleFormatted.disk := (formatted_mounted ..).onDisk

def refusing (lba : Word) (w : World) : (e : Req) → Option (e.Reply × World)
  | .ataWrite l s => if l = lba then some (false, w) else w.handle (.ataWrite l s)
  | e => w.handle e

lemma ends_of_refusing {α : Type} {p : Kernel α} {a : α} {t : World} {lba : Word} {may : Req → Prop}
    (hmay : ∀ s, may (.ataWrite lba s)) (h : p.run (refusing lba) w = some (a, t)) : Ends may p w a t := by
  refine (Prog.reaches_of_run h).mono fun w e a t he => ?_
  cases e with
  | ataWrite l s =>
    by_cases hl : l = lba
    · obtain ⟨rfl, rfl⟩ := Prod.mk.inj (Option.some.inj ((if_pos hl).symm.trans he))
      exact .writeFails (hl ▸ hmay s)
    · exact .done ((if_neg hl).symm.trans he)
  | _ => exact .done he

lemma sampleWorld_second {d : Disk} : CString (sampleWorld d).mem 0x80010 [66, 67] := by
  refine ⟨fun i hi => ?_, rfl⟩
  have hi : i < 2 := hi
  interval_cases i
  · exact ⟨rfl, show (66 : Byte) ≠ 0 by decide⟩
  · exact ⟨rfl, show (67 : Byte) ≠ 0 by decide⟩

theorem acknowledged_survives_refusal :
    ∃ m fs w, FaultyRun exceptMetaWrites exceptMeta Fits m fs w.disk ∧ m [65] = some [66, 67] ∧ m [66, 67] = none ∧
      exec (fsRead 0x80000 0x80020 2 fs) w = some ((0, some 2), delivered w 0x80020 2 [66, 67]) := by
  have h : ((exec (fsInit sampleFs) sampleFormatted).bind fun x =>
      (exec (fsWrite 0x80000 0x80010 2 x.1) x.2).bind fun y =>
      ((fsWrite 0x80010 0x80010 2 y.1.2).run (refusing 133) (sampleWorld y.2.disk)).bind fun z =>
      some ((x.1.super.nextFreeLba, y.1.2.super.nextFreeLba), y.1.1, z.1.1)) =
      some (((101 : Word), (133 : Word)), (0 : ℤ), (-1 : ℤ)) := by decide +kernel
  obtain ⟨x, hx, h⟩ := Option.bind_eq_some_iff.mp h
  obtain ⟨⟨⟨rc, fs⟩, t⟩, hy, h⟩ := Option.bind_eq_some_iff.mp h
  obtain ⟨⟨⟨rc', fs'⟩, t'⟩, hz, h⟩ := Option.bind_eq_some_iff.mp h
  obtain ⟨hnext, hrc⟩ := Prod.mk.inj (Option.some.inj h)
  obtain ⟨hn, hn'⟩ := Prod.mk.inj hnext
  obtain ⟨rfl, rfl⟩ := Prod.mk.inj hrc
  have hfits : Fits x.1 [65] := fun _ _ => by
    rw [hn]
    decide
  have hfits' : Fits fs [66, 67] := fun _ _ => by
    rw [hn']
    decide
  obtain ⟨fs₀, hx', -⟩ := mount_saved sampleFs sampleFormatted_onDisk
  obtain rfl := Option.some.inj (hx'.symm.trans hx)
  have hr := FaultyRun.write (.boot sampleFormatted_onDisk (ends_of_exec hx exceptMeta)) sampleWorld_name
    (by decide) (by decide) hfits (ends_of_exec hy exceptMetaWrites)
  rw [sample_data] at hr
  have hr' := FaultyRun.write (w := sampleWorld t.disk) hr sampleWorld_second (by decide) (by decide) hfits'
    (ends_of_refusing (fun s l => ⟨by simp [superLba], by simp [dirLba]⟩) hz)
  have hds : (Files.after (fun _ => none) [65] [66, 67] 0).after [66, 67] (dataBytes (sampleWorld t.disk).mem 0x80010 2)
      (-1) [65] = some [66, 67] := by simp [Files.after]
  exact ⟨_, fs', sampleWorld t'.disk, hr', hds, by simp [Files.after],
    acknowledged_survives (w := sampleWorld t'.disk) hr' sampleWorld_name hds 0x80020 2⟩

/-- The write of the directory fails, and `fs_write` returns 0 all the same: the file is gone with the
next mount. -/
theorem directory_write_lost :
    ∃ m fs w, FaultyRun (fun _ => True) (fun _ => True) (fun _ _ => True) m fs w.disk ∧
      CString w.mem 0x80000 [65] ∧ m [65] = some [66, 67] ∧
      ∃ t, exec (fsRead 0x80000 0x80020 2 fs) w = some ((-1, none), t) := by
  have h : ((exec (fsInit sampleFs) sampleFormatted).bind fun x =>
      ((fsWrite 0x80000 0x80010 2 x.1).run (refusing dirLba) x.2).bind fun y =>
      (exec (fsInit y.1.2) y.2).bind fun z =>
      (exec (fsRead 0x80000 0x80020 2 z.1) (sampleWorld z.2.disk)).bind fun r =>
      some (y.1.1, r.1)) = some ((0 : ℤ), (-1 : ℤ), (none : Option Word)) := by decide +kernel
  obtain ⟨x, hx, h⟩ := Option.bind_eq_some_iff.mp h
  obtain ⟨⟨⟨rc, fs⟩, t⟩, hy, h⟩ := Option.bind_eq_some_iff.mp h
  obtain ⟨z, hz, h⟩ := Option.bind_eq_some_iff.mp h
  obtain ⟨⟨r, u⟩, hread, h⟩ := Option.bind_eq_some_iff.mp h
  obtain ⟨rfl, rfl⟩ := Prod.mk.inj (Option.some.inj h)
  obtain ⟨fs₀, hx', _⟩ := mount_saved sampleFs sampleFormatted_onDisk
  obtain rfl := Option.some.inj (hx'.symm.trans hx)
  have hboot : FaultyRun (fun _ => True) (fun _ => True) (fun _ _ => True) _ fs₀ sampleFormatted.disk :=
    .boot sampleFormatted_onDisk (ends_of_exec hx _)
  have hr := (hboot.write sampleWorld_name (by decide) (by decide) trivial
    (ends_of_refusing (fun _ => trivial) hy)).init
    (ends_of_exec hz _)
  rw [sample_data] at hr
  exact ⟨_, z.1, sampleWorld z.2.disk, hr, sampleWorld_name, by simp [Files.after], u, hread⟩

end PyroOS
