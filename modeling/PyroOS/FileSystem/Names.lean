import PyroOS.FileSystem.Refinement

/-! File names: what is stored of them, and which names find their file again. -/

namespace PyroOS

open Interaction

def storedName (e : FsEntry) : List Byte := (List.ofFn e.name).takeWhile (· ≠ 0)

inductive Rewrites (nm : List Byte) : Fs → Disk → Fs → Disk → Prop
  | none {fs : Fs} {d : Disk} : Rewrites nm fs d fs d
  | write {fs fs' fs'' : Fs} {d : Disk} {w t : World} {name data size : Word} {rc : ℤ} :
    Rewrites nm fs d fs' w.disk → CString w.mem name nm →
    exec (fsWrite name data size fs') w = some ((rc, fs''), t) → Rewrites nm fs d fs'' t.disk

variable {may : Req → Prop} {m : Files} {fs fs' : Fs} {d d' : Disk} {w t : World} {nm : List Byte} {i : Fin 16}
  {name data size buf max : Word} {e : FsEntry}

/-! ### What any call does to the directory -/

def Absent (fs : Fs) (nm : List Byte) : Prop := ∀ i, (fs.dir i).used ≠ 0 → ¬ Spells (fs.nameAt i) nm

structure SameNames (fs fs' : Fs) : Prop where
  super : fs'.super = fs.super
  used : ∀ j, (fs'.dir j).used = (fs.dir j).used
  name : ∀ j, (fs'.dir j).name = (fs.dir j).name

lemma SameNames.refl (fs : Fs) : SameNames fs fs := ⟨rfl, fun _ => rfl, fun _ => rfl⟩

lemma SameNames.usedEntries (h : SameNames fs fs') : usedEntries fs'.dir = usedEntries fs.dir :=
  usedEntries_congr fun i => by rw [h.used]

lemma sameNames_withSize (fs : Fs) (i : Fin 16) (size : Word) :
    SameNames fs (fs.setEntry i ((fs.dir i).withSize size)) := by
  have hfield : ∀ j, ((fs.setEntry i ((fs.dir i).withSize size)).dir j).used = (fs.dir j).used ∧
      ((fs.setEntry i ((fs.dir i).withSize size)).dir j).name = (fs.dir j).name := by
    intro j
    by_cases hj : j = i
    · rw [Fs.setEntry, hj]
      dsimp only
      rw [Function.update_self]
      exact ⟨rfl, rfl⟩
    · rw [Fs.setEntry]
      dsimp only
      rw [Function.update_of_ne hj]
      exact ⟨rfl, rfl⟩
  exact ⟨rfl, fun j => (hfield j).1, fun j => (hfield j).2⟩

inductive WriteOutcome (fs : Fs) (w : World) (nm : List Byte) : ℤ × Fs → World → Prop
  | found {i : Fin 16} {r : ℤ × Fs} {t : World} : (fs.dir i).used ≠ 0 → Spells (fs.nameAt i) nm →
    SameNames fs r.2 → WriteOutcome fs w nm r t
  | full : Absent fs nm → (∀ i, (fs.dir i).used ≠ 0) → WriteOutcome fs w nm (-1, fs) w
  | created {i : Fin 16} {r : ℤ × Fs} {t : World} : Absent fs nm → (fs.dir i).used = 0 →
    SameNames (fs.withNew i (copied (fs.dir i).byte nm nameLen)) r.2 → WriteOutcome fs w nm r t

lemma meets_put_written (fs : Fs) (i : Fin 16) (data size : Word) :
    (fs.put i data size).Meets (Transfer may) (fun _ => True) (fun _ => True)
      (fun r t => t.mem = w.mem ∧ SameNames fs r.2) w := by
  have hsize := (clamp_toNat size).le.trans (min_le_right _ _)
  have hn := sectors_toNat hsize
  refine Prog.Meets.bind (meets_writeSectors w.mem (fun _ t => t.mem = w.mem) (by omega) rfl (fun _ _ => trivial) ?_ ?_)
  · intro s t _ ht
    exact ⟨ht, trivial, trivial, trivial, ht, fun _ => ⟨trivial, ht, .refl fs⟩⟩
  · intro t ht
    exact ⟨trivial, Prog.Meets.bind (meets_ataWrite trivial trivial trivial ⟨trivial, ht, sameNames_withSize fs i _⟩
      fun _ => ⟨trivial, ht, sameNames_withSize fs i _⟩)⟩

lemma meets_fsWrite_written (hs : CString w.mem name nm) (data size : Word) :
    (fsWrite name data size fs).Meets (Transfer may) (fun _ => True) (fun _ => True)
      (fun r t => t.mem = w.mem ∧ WriteOutcome fs w nm r t) w := by
  refine Prog.Meets.bind (meets_find hs hs.length_lt trivial (fun _ _ => trivial) (fun i hi hsp => ?_) fun hno => ?_)
  · exact (meets_put_written fs i data size).mono fun r t _ h => ⟨h.1, .found hi hsp h.2⟩
  · have habs : Absent fs nm := fun i => hno i (List.mem_finRange i)
    cases hfree : fs.firstFree with
    | none => exact ⟨trivial, rfl, .full habs (firstFree_none hfree)⟩
    | some i =>
      have hput : ∀ u : World, u.mem = w.mem →
          ((fs.withNew i (copied (fs.dir i).byte nm nameLen)).put i data size).Meets (Transfer may) (fun _ => True)
            (fun _ => True) (fun r t => t.mem = w.mem ∧ WriteOutcome fs w nm r t) u := fun u hu =>
        (meets_put_written _ i data size).mono fun r t _ h =>
          ⟨h.1.trans hu, .created habs (firstFree_some hfree) h.2⟩
      exact Prog.Meets.bind (meets_create hs trivial (fun _ _ => trivial) rfl trivial trivial (hput _ rfl)
        fun _ => hput _ rfl)

lemma meets_fsRead_absent (hs : CString w.mem name nm) (habs : Absent fs nm) (buf max : Word) :
    (fsRead name buf max fs).Meets (Transfer may) (fun _ => True) (fun _ => True)
      (fun r t => r = (-1, none) ∧ t = w) w :=
  Prog.Meets.bind (meets_find hs hs.length_lt trivial (fun _ _ => trivial) (fun i hi hsp => (habs i hi hsp).elim)
    fun _ => ⟨trivial, rfl, rfl⟩)

lemma exec_fsRead_absent (hs : CString w.mem name nm) (habs : Absent fs nm) (buf max : Word) :
    exec (fsRead name buf max fs) w = some ((-1, none), w) := by
  obtain ⟨r, t, hrun, rfl, rfl⟩ := exec_of_meets (meets_fsRead_absent hs habs buf max)
  exact hrun

/-! ### Names that are too long -/

def NamesEnd (fs : Fs) : Prop := ∀ i, (fs.dir i).used ≠ 0 → ∃ j : Fin 20, (fs.dir i).name j = 0

lemma FsEntry.byte_name (e : FsEntry) (j : Fin 20) : e.byte j = e.name j := dif_pos j.isLt

lemma NamesEnd.absent (h : NamesEnd fs) (hz : ∀ b ∈ nm, b ≠ 0) (hlong : 20 ≤ nm.length) : Absent fs nm := by
  intro i hi hsp
  obtain ⟨j, hj⟩ := h i hi
  have hlt : j.val < nm.length := lt_of_lt_of_le j.isLt hlong
  have hbyte : fs.nameAt i j = 0 := by
    rw [Fs.nameAt, if_pos (by omega), sectorByte_dir fs.dir i (by omega), FsEntry.byte_name, hj]
  exact hz _ (List.getElem_mem hlt) ((hsp.1 j hlt).symm.trans hbyte)

lemma NamesEnd.congr (h : NamesEnd fs) (hs : SameNames fs fs') : NamesEnd fs' := by
  intro i hi
  rw [hs.used] at hi
  rw [hs.name]
  exact h i hi

lemma NamesEnd.withNew (h : NamesEnd fs) (i : Fin 16) (nm : List Byte) :
    NamesEnd (fs.withNew i (copied (fs.dir i).byte nm nameLen)) := by
  intro j hj
  by_cases hji : j = i
  · have hlt : min 19 nm.length < 20 := by omega
    refine ⟨⟨min 19 nm.length, hlt⟩, ?_⟩
    rw [Fs.withNew, hji]
    dsimp only
    rw [Function.update_self]
    change copied (fs.dir i).byte nm nameLen (min (nameLen - 1) nm.length) = 0
    rw [copied, if_neg (lt_irrefl _), if_pos rfl]
  · rw [Fs.withNew] at hj ⊢
    dsimp only at hj ⊢
    rw [Function.update_of_ne hji] at hj ⊢
    exact h j hj

lemma NamesEnd.written {r : ℤ × Fs} (h : NamesEnd fs) (hw : WriteOutcome fs w nm r t) : NamesEnd r.2 := by
  cases hw with
  | found _ _ hs => exact h.congr hs
  | full _ _ => exact h
  | created _ _ hs => exact (h.withNew _ nm).congr hs

lemma Table.terminated {next : Word} (h : Table next fs.dir) : NamesEnd fs := by
  intro i hi
  obtain ⟨nm, hnm, hn⟩ := h.named i hi
  refine ⟨⟨nm.length, Nat.lt_succ_of_le hnm.1⟩, ?_⟩
  rw [← FsEntry.byte_name]
  exact hn.2

/-! ### Names that fit -/

lemma absent_iff (hlen : nm.length ≤ 19) : Absent fs nm ↔ ∀ i, (fs.dir i).used ≠ 0 → ¬ Named (fs.dir i) nm :=
  forall₂_congr fun _ _ => not_congr (spells_nameAt hlen)

lemma SameNames.absent (h : SameNames fs fs') (hlen : nm.length ≤ 19) : Absent fs' nm ↔ Absent fs nm := by
  rw [absent_iff hlen, absent_iff hlen]
  refine forall_congr' fun i => ?_
  rw [h.used, named_congr hlen (h.name i)]

lemma not_absent_new (hnm : IsName nm) : ¬ Absent (fs.withNew i (copied (fs.dir i).byte nm nameLen)) nm := by
  rw [absent_iff hnm.1]
  intro h
  refine h i ?_ ?_ <;> rw [Fs.withNew] <;> dsimp only <;> rw [Function.update_self]
  · exact (by decide : (1 : Word) ≠ 0)
  · exact named_new hnm _

lemma Rewrites.card_le (hlen : nm.length ≤ 19) (h : Rewrites nm fs d fs' d') :
    (usedEntries fs'.dir).card ≤ (usedEntries fs.dir).card + 1 := by
  suffices hinv : (usedEntries fs'.dir).card ≤ (usedEntries fs.dir).card ∨
      (usedEntries fs'.dir).card ≤ (usedEntries fs.dir).card + 1 ∧ ¬ Absent fs' nm by omega
  induction h with
  | none => exact .inl le_rfl
  | @write fs' fs'' d w t name data size rc _ hs hrun ih =>
    obtain ⟨r, u, hrun', _, hw⟩ := exec_of_meets (meets_fsWrite_written hs data size)
    obtain ⟨rfl, rfl⟩ := Prod.mk.inj (Option.some.inj (hrun'.symm.trans hrun))
    cases hw with
    | found hi hsp hsame =>
      rw [hsame.usedEntries, hsame.absent hlen]
      exact ih
    | full _ _ => exact ih
    | created habs hi hsame =>
      rw [hsame.usedEntries, hsame.absent hlen, usedEntries_new hi]
      rcases ih with ih | ⟨_, hno⟩
      · exact .inr ⟨by omega, not_absent_new (hs.isName hlen)⟩
      · exact (hno habs).elim

lemma storedName_eq (hnm : IsName nm) (hn : Named e nm) : storedName e = nm := by
  have hlen : nm.length < (List.ofFn e.name).length := by
    rw [List.length_ofFn]
    exact Nat.lt_succ_of_le hnm.1
  have hget : ∀ k (hk : k < (List.ofFn e.name).length), (List.ofFn e.name)[k] = e.byte k := by
    intro k hk
    rw [List.getElem_ofFn]
    exact (e.byte_name _).symm
  have htake : (List.ofFn e.name).take nm.length = nm := by
    refine List.ext_getElem (by rw [List.length_take]; omega) fun k h₁ h₂ => ?_
    rw [List.getElem_take, hget, hn.1 k h₂]
  have hsplit : List.ofFn e.name = nm ++ 0 :: (List.ofFn e.name).drop (nm.length + 1) := by
    conv_lhs => rw [← List.take_append_drop nm.length (List.ofFn e.name), htake, List.drop_eq_getElem_cons hlen,
      hget _ hlen, hn.2]
  rw [storedName, hsplit, List.takeWhile_append_of_pos fun b hb => by simpa using hnm.2 b hb,
    List.takeWhile_cons_of_neg (by decide), List.append_nil]

theorem names_identify (h : Session m fs w.disk) :
    (∀ name nm data size fs' t, CString w.mem name nm → exec (fsWrite name data size fs) w = some ((0, fs'), t) →
      ((∀ buf max, exec (fsRead name buf max fs') t = some ((0, some (BitVec.ofNat 32
        (min max.toNat (dataBytes w.mem data size).length))), delivered t buf max (dataBytes w.mem data size))) ↔
        nm.length ≤ 19)) ∧
    (∀ nm fs' d', nm.length ≤ 19 → Rewrites nm fs w.disk fs' d' →
      (usedEntries fs'.dir).card ≤ (usedEntries fs.dir).card + 1) ∧
    ∀ i j, i ≠ j → (fs.dir i).used ≠ 0 → (fs.dir j).used ≠ 0 → storedName (fs.dir i) ≠ storedName (fs.dir j) := by
  have hm := h.models
  have ht := hm.mounted.table
  refine ⟨fun name nm data size fs' t hs hrun => ?_, fun nm fs' d' hlen hr => hr.card_le hlen,
    fun i j hij hi hj he => ?_⟩
  · obtain ⟨r, u, hrun', hmem, hw⟩ := exec_of_meets (meets_fsWrite_written hs data size)
    obtain ⟨rfl, rfl⟩ := Prod.mk.inj (Option.some.inj (hrun'.symm.trans hrun))
    have hs' : CString u.mem name nm := by rw [hmem]; exact hs
    constructor
    · intro hread
      by_contra hlong
      have hgone := exec_fsRead_absent hs' ((ht.terminated.written hw).absent hs.ne_zero (by omega)) 0 0
      rw [hread 0 0] at hgone
      simp at hgone
    · intro hlen buf max
      obtain ⟨_, _, _, hrun', hm', _⟩ := hm.write data size hs hlen
      obtain ⟨hr, rfl⟩ := Prod.mk.inj (Option.some.inj (hrun'.symm.trans hrun))
      obtain ⟨rfl, rfl⟩ := Prod.mk.inj hr
      rw [if_pos rfl] at hm'
      rcases hm'.read buf max hs' hlen with ⟨hno, _⟩ | ⟨ds, hds, hread⟩
      · rw [Function.update_self] at hno
        cases hno
      · rw [Function.update_self] at hds
        rw [hread, Option.some.inj hds]
  · obtain ⟨nm, hnm, hn⟩ := ht.named i hi
    obtain ⟨nm', hnm', hn'⟩ := ht.named j hj
    rw [storedName_eq hnm hn, storedName_eq hnm' hn'] at he
    subst he
    exact hij (ht.unique i j nm hnm hi hj hn hn')

def longNameWorld : World :=
  { sampleFormatted with mem := put sampleFormatted.mem 0x80030 (List.replicate 20 0x41 ++ [0]) }

theorem names_identify_sample : Session (fun _ => none) sampleFs.blank sampleFormatted.disk ∧
    ∃ fs t, exec (fsWrite 0x80000 0x80010 2 sampleFs.blank) sampleFormatted = some ((0, fs), t) ∧
      ∀ buf max, exec (fsRead 0x80000 buf max fs) t =
        some ((0, some (BitVec.ofNat 32 (min max.toNat 2))), delivered t buf max [66, 67]) := by
  have h : Session (fun _ => none) sampleFs.blank sampleFormatted.disk := .format (by decide) sample_format
  obtain ⟨fs, t, hrun, _⟩ := sample_write
  have hread := ((names_identify h).1 _ _ _ _ _ _ sampleWorld_name hrun).mpr (by decide)
  rw [sample_data] at hread
  exact ⟨h, fs, t, hrun, hread⟩

/-- Two writes of one name of 20 characters: the file cannot be read, and takes two entries. -/
theorem long_name_lost : CString longNameWorld.mem 0x80030 (List.replicate 20 0x41) ∧
    ∃ fs₁ t₁ fs₂ t₂, exec (fsWrite 0x80030 0x80010 2 sampleFs.blank) longNameWorld = some ((0, fs₁), t₁) ∧
      (exec (fsRead 0x80030 0x80020 2 fs₁) t₁).map (·.1) = some (-1, none) ∧
      exec (fsWrite 0x80030 0x80010 2 fs₁) t₁ = some ((0, fs₂), t₂) ∧
      (fs₂.dir 0).used ≠ 0 ∧ (fs₂.dir 1).used ≠ 0 ∧ storedName (fs₂.dir 0) = storedName (fs₂.dir 1) := by
  refine ⟨by unfold CString; decide +kernel, ?_⟩
  have h : ((exec (fsWrite 0x80030 0x80010 2 sampleFs.blank) longNameWorld).bind fun x =>
      (exec (fsRead 0x80030 0x80020 2 x.1.2) x.2).bind fun y =>
        (exec (fsWrite 0x80030 0x80010 2 x.1.2) x.2).map fun z =>
        ((x.1.1, y.1, z.1.1), ((z.1.2.dir 0).used, (z.1.2.dir 1).used),
          decide (storedName (z.1.2.dir 0) = storedName (z.1.2.dir 1)))) =
      some ((0, (-1, none), 0), (1, 1), true) := by decide +kernel
  obtain ⟨⟨⟨rc₁, fs₁⟩, t₁⟩, hx, h⟩ := Option.bind_eq_some_iff.mp h
  obtain ⟨⟨r, u⟩, hy, h⟩ := Option.bind_eq_some_iff.mp h
  obtain ⟨⟨⟨rc₂, fs₂⟩, t₂⟩, hz, h⟩ := Option.map_eq_some_iff.mp h
  simp only [Prod.mk.injEq, decide_eq_true_eq] at h
  obtain ⟨⟨rfl, rfl, rfl⟩, ⟨hu₀, hu₁⟩, hname⟩ := h
  refine ⟨fs₁, t₁, fs₂, t₂, hx, by rw [hy]; rfl, hz, ?_, ?_, hname⟩
  · rw [hu₀]
    decide
  · rw [hu₁]
    decide

end PyroOS
