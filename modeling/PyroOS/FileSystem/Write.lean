import PyroOS.FileSystem.Table

/-! Writing files: what every execution of `fs_write` does, also if it is cut short or a transfer of
data fails. -/

namespace PyroOS

open Interaction

variable {may : Req → Prop} {nm ds : List Byte} {fs fs' : Fs} {d d' : Disk} {i : Fin 16} {w t : World}
  {name data size start : Word} {H : List Byte → List Byte → Prop} {mem : Word → Byte}

def Kept (H : List Byte → List Byte → Prop) (d : Disk) : Prop :=
  ∀ nm ds, H nm ds → IsName nm ∧ Holds d (dirOf (d 100)) nm ds

structure Near (H : List Byte → List Byte → Prop) (mem : Word → Byte) (t : World) : Prop where
  mem : t.mem = mem
  onDisk : OnDisk t.disk
  kept : Kept H t.disk

def dataBytes (mem : Word → Byte) (data size : Word) : List Byte :=
  (List.range (min size.toNat 16384)).map fun j => mem (addr data j)

def SameUse (fs fs' : Fs) : Prop :=
  fs'.super.nextFreeLba = fs.super.nextFreeLba ∧ ∀ j, (fs'.dir j).used = 0 ↔ (fs.dir j).used = 0

def Grown (fs fs' : Fs) : Prop :=
  SameUse fs fs' ∨ ∃ i nm, (fs.dir i).used = 0 ∧ SameUse (fs.withNew i nm) fs'

structure Wrote (may : Req → Prop) (H : List Byte → List Byte → Prop) (fs : Fs) (w : World)
    (nm ds : List Byte) (r : ℤ × Fs) (t : World) : Prop where
  mem : t.mem = w.mem
  mounted : Mounted r.2 t.disk
  kept : Kept H t.disk
  others : ∀ nm' ds', IsName nm' → nm' ≠ nm → (Holds t.disk r.2.dir nm' ds' ↔ Holds w.disk fs.dir nm' ds')
  outcome : (r.1 = 0 ∧ r.2.dir = dirOf (t.disk 100) ∧ Holds t.disk r.2.dir nm ds) ∨
    (r.1 = -1 ∧ ∃ e, may e) ∨
    (r = (-1, fs) ∧ t = w ∧ ∀ i, (fs.dir i).used ≠ 0 ∧ ¬ Named (fs.dir i) nm)

lemma Mounted.congr (h : Mounted fs d) (h₁ : d' 99 = d 99) (h₂ : d' 100 = d 100) : Mounted fs d' := by
  refine ⟨by rw [h₁]; exact h.super, h.magic, h.table, ?_, ?_⟩
  · rw [h₂]
    exact h.flushed
  · rw [h₂]
    exact h.sizes

@[simp] lemma ataSector_super : ataSector superLba = 99 := by rw [ataSector_eq]; decide
@[simp] lemma ataSector_dir : ataSector dirLba = 100 := by rw [ataSector_eq]; decide

/-! ### The data of one file -/

def filled (d : Disk) (start : Word) (f : ℕ → Sector) (s : ℕ) : Disk := fun x =>
  if start.toNat ≤ x ∧ x < start.toNat + s then f (x - start.toNat) else d x

lemma filled_zero (f : ℕ → Sector) : filled d start f 0 = d := by
  funext x
  rw [filled, if_neg (by omega)]

lemma filled_succ (f : ℕ → Sector) (s : ℕ) :
    Function.update (filled d start f s) (start.toNat + s) (f s) = filled d start f (s + 1) := by
  funext x
  by_cases hx : x = start.toNat + s
  · rw [hx, Function.update_self, filled, if_pos (by omega), Nat.add_sub_cancel_left]
  · rw [Function.update_of_ne hx, filled, filled]
    exact if_congr (by omega) rfl rfl

lemma filled_outside (f : ℕ → Sector) {s x : ℕ} (hs : s ≤ 32)
    (hx : x < start.toNat ∨ start.toNat + 32 ≤ x) : filled d start f s x = d x :=
  if_neg (by omega)

lemma Named.slot_ne {dir : Dir} {j : Fin 16} {nm' : List Byte} (hn : Named (dir i) nm) (hnm : IsName nm)
    (hnm' : IsName nm') (hne : nm' ≠ nm) (hnj : Named (dir j) nm') : j ≠ i := by
  rintro rfl
  exact hne (hnj.unique hn hnm'.2 hnm.2)

lemma Mounted.fill (h : Mounted fs d) (hi : (fs.dir i).used ≠ 0) (hn : Named (fs.dir i) nm) (hnm : IsName nm)
    (hk : Kept H d) (hH : ∀ ds, ¬ H nm ds)
    (hd : ∀ x, x < (fs.dir i).startLba.toNat ∨ (fs.dir i).startLba.toNat + 32 ≤ x → d' x = d x) :
    Mounted fs d' ∧ Kept H d' ∧
      ∀ nm' ds', IsName nm' → nm' ≠ nm → (Holds d' fs.dir nm' ds' ↔ Holds d fs.dir nm' ds') := by
  have hs := h.table.slot i hi
  have h₁ : d' 99 = d 99 := hd 99 (by omega)
  have h₂ : d' 100 = d 100 := hd 100 (by omega)
  have hsame : ∀ j nm', IsName nm' → nm' ≠ nm → (fs.dir j).used ≠ 0 → Named (fs.dir j) nm' →
      content d' (fs.dir j) = content d (fs.dir j) := fun j nm' hnm' hnn hj hnj =>
    h.table.content_other (hn.slot_ne hnm hnm' hnn hnj) hi hj hd
  refine ⟨h.congr h₁ h₂, fun nm' ds' hh => ?_, fun nm' ds' hnm' hnn => ?_⟩
  · obtain ⟨hnm', j, hj, hnj, rfl⟩ := hk nm' ds' hh
    have hnn : nm' ≠ nm := by
      rintro rfl
      exact hH _ hh
    have he := h.flushed j hj
    refine ⟨hnm', j, by rwa [h₂], by rwa [h₂], ?_⟩
    rw [h₂, ← he]
    exact hsame j nm' hnm' hnn (by rwa [he]) (by rwa [he])
  · constructor
    · rintro ⟨j, hj, hnj, rfl⟩
      exact ⟨j, hj, hnj, (hsame j nm' hnm' hnn hj hnj).symm⟩
    · rintro ⟨j, hj, hnj, rfl⟩
      exact ⟨j, hj, hnj, hsame j nm' hnm' hnn hj hnj⟩

lemma content_filled {e : FsEntry} {n : ℕ} (h : e.startLba.toNat + 32 ≤ 2 ^ 28) (hsize : size.toNat ≤ 16384)
    (hn : (size.toNat + 511) / 512 ≤ n) (he : e.size = size)
    (hd : ∀ s < n, s < 32 → d (e.startLba.toNat + s) = dataSector mem data size s) :
    content d e = dataBytes mem data size := by
  rw [content, dataBytes, he, min_eq_left hsize]
  refine List.map_congr_left fun k hk => ?_
  rw [List.mem_range] at hk
  rw [fileByte, slot_sector h (by omega), hd _ (by omega) (by omega), sectorByte, dif_pos (by omega),
    dataSector, if_pos (by simp only; omega)]
  congr 2
  simp only
  omega

lemma clamp_toNat (size : Word) :
    (if slotSectors * 512 < size then slotSectors * 512 else size).toNat = min size.toNat 16384 := by
  have hk : (slotSectors * 512).toNat = 16384 := by decide
  split
  · rename_i h
    rw [BitVec.lt_def, hk] at h
    rw [hk]
    omega
  · rename_i h
    rw [BitVec.lt_def, hk] at h
    omega

lemma dataBytes_clamp (mem : Word → Byte) (data size : Word) :
    dataBytes mem data (if slotSectors * 512 < size then slotSectors * 512 else size) =
      dataBytes mem data size := by
  rw [dataBytes, clamp_toNat, dataBytes, min_assoc, min_self]

lemma sectors_toNat {size : Word} (hs : size.toNat ≤ 16384) :
    (if sectorsOf size = 0 then 1 else sectorsOf size).toNat = max 1 ((size.toNat + 511) / 512) := by
  have hn := sectorsOf_toNat size (by omega)
  split
  · rename_i h
    rw [h] at hn
    change 0 = _ at hn
    change 1 = _
    omega
  · rename_i h
    have hne : (sectorsOf size).toNat ≠ 0 := fun hz => h (BitVec.eq_of_toNat_eq hz)
    omega

lemma Mounted.flush (h : Mounted fs d) (hi : (fs.dir i).used ≠ 0) (hn : Named (fs.dir i) nm) (hnm : IsName nm)
    (hk : Kept H d) (hH : ∀ ds, ¬ H nm ds) (hs : size.toNat ≤ 16384)
    (hfs : fs' = fs.setEntry i ((fs.dir i).withSize size))
    (hd : d' = Function.update d 100 (Dir.sector fs'.dir)) :
    Mounted fs' d' ∧ Kept H d' ∧ fs'.dir = dirOf (d' 100) ∧
      (∀ nm' ds', IsName nm' → nm' ≠ nm → (Holds d' fs'.dir nm' ds' ↔ Holds d fs.dir nm' ds')) ∧
      SameUse fs fs' := by
  have h₁ : d' 99 = d 99 := by rw [hd, Function.update_of_ne (by decide)]
  have h₂ : dirOf (d' 100) = fs'.dir := by rw [hd, Function.update_self, dirOf_sector]
  have hsuper : fs'.super = fs.super := by rw [hfs]; rfl
  have hself : fs'.dir i = (fs.dir i).withSize size := by rw [hfs]; exact Function.update_self ..
  have hother : ∀ j, j ≠ i → fs'.dir j = fs.dir j := by
    intro j hj
    rw [hfs]
    exact Function.update_of_ne hj ..
  have htable : Table fs'.super.nextFreeLba fs'.dir := by
    rw [hsuper, hfs]
    exact h.table.resize i hs
  have hcontent : ∀ j, (fs.dir j).used ≠ 0 → content d' (fs.dir j) = content d (fs.dir j) := fun j hj =>
    hd ▸ h.table.content_update hj le_rfl _
  refine ⟨⟨by rw [h₁, hsuper]; exact h.super, by rw [hsuper]; exact h.magic, htable, fun j _ => by rw [h₂],
    fun j => by rw [h₂]; exact htable.size_le j⟩, fun nm' ds' hh => ?_, h₂.symm, fun nm' ds' hnm' hnn => ?_,
    by rw [hsuper], fun j => ?_⟩
  · obtain ⟨hnm', j, hj, hnj, rfl⟩ := hk nm' ds' hh
    have hnn : nm' ≠ nm := by
      rintro rfl
      exact hH _ hh
    have he := h.flushed j hj
    rw [← he] at hj hnj ⊢
    have hji := hother j (hn.slot_ne hnm hnm' hnn hnj)
    rw [h₂]
    exact ⟨hnm', j, by rwa [hji], by rwa [hji], by rw [hji]; exact hcontent j hj⟩
  · constructor
    · rintro ⟨j, hj, hnj, rfl⟩
      have hji : j ≠ i := by
        rintro rfl
        rw [hself] at hnj
        have hold : Named (fs.dir j) nm' := (named_withSize hnm'.1 size).mp hnj
        exact hnn (hold.unique hn hnm'.2 hnm.2)
      rw [hother j hji] at hj hnj ⊢
      exact ⟨j, hj, hnj, (hcontent j hj).symm⟩
    · rintro ⟨j, hj, hnj, rfl⟩
      have hji := hother j (hn.slot_ne hnm hnm' hnn hnj)
      exact ⟨j, by rwa [hji], by rwa [hji], by rw [hji]; exact hcontent j hj⟩
  · by_cases hj : j = i
    · rw [hj, hself]
      rfl
    · rw [hother j hj]

lemma meets_put (hm : Mounted fs w.disk) (hi : (fs.dir i).used ≠ 0) (hn : Named (fs.dir i) nm)
    (hnm : IsName nm) (hk : Kept H w.disk) (hH : ∀ ds, ¬ H nm ds)
    (hmay : ∀ s, ¬ may (.ataWrite dirLba s)) :
    (fs.put i data size).Meets (Transfer may) (fun _ => True) (Near H w.mem)
      (fun r t => Wrote may H fs w nm (dataBytes w.mem data size) r t ∧ SameUse fs r.2) w := by
  rw [← dataBytes_clamp, Fs.put]
  have hsize := (clamp_toNat size).le.trans (min_le_right _ _)
  generalize (if slotSectors * 512 < size then slotSectors * 512 else size) = sz at hsize ⊢
  have hnsec := sectors_toNat hsize
  have hslot := hm.table.slot_le hi
  set start := (fs.dir i).startLba with hstart
  set f := dataSector w.mem data sz with hf
  have hfill : ∀ s ≤ 32, Mounted fs (filled w.disk start f s) ∧ Kept H (filled w.disk start f s) ∧
      ∀ nm' ds', IsName nm' → nm' ≠ nm →
        (Holds (filled w.disk start f s) fs.dir nm' ds' ↔ Holds w.disk fs.dir nm' ds') := fun s hs =>
    hm.fill hi hn hnm hk hH fun x hx => filled_outside f hs hx
  have hnear : ∀ s ≤ 32, Near H w.mem { w with disk := filled w.disk start f s } := fun s hs =>
    ⟨rfl, (hfill s hs).1.onDisk, (hfill s hs).2.1⟩
  have hset : ∀ s < 32, ({ w with disk := filled w.disk start f s } : World).setSector (addr start s) (f s) =
      { w with disk := filled w.disk start f (s + 1) } := by
    intro s hs
    rw [World.setSector, slot_sector hslot hs, ← filled_succ f s]
  refine Prog.Meets.bind (meets_writeSectors w.mem
    (fun s t => t = { w with disk := filled w.disk start f s }) (by omega) ?_ (fun _ _ => trivial) ?_ ?_)
  · rw [filled_zero]
  · rintro s t hs rfl
    rw [hset s (by omega)]
    refine ⟨rfl, hnear s (by omega), trivial, hnear (s + 1) (by omega), rfl, fun hfail => ⟨hnear s (by omega), ?_⟩⟩
    obtain ⟨h₁, h₂, h₃⟩ := hfill s (by omega)
    exact ⟨⟨rfl, h₁, h₂, h₃, Or.inr (Or.inl ⟨rfl, _, hfail⟩)⟩, rfl, fun _ => Iff.rfl⟩
  · rintro t rfl
    generalize hnn : (if sectorsOf sz = 0 then 1 else sectorsOf sz).toNat = n at hnsec ⊢
    refine ⟨hnear n (by omega), Prog.Meets.bind ?_⟩
    obtain ⟨h₁, h₂, h₃⟩ := hfill n (by omega)
    set fs' := fs.setEntry i ((fs.dir i).withSize sz) with hfs
    have hself : fs'.dir i = (fs.dir i).withSize sz := Function.update_self ..
    obtain ⟨g₁, g₂, g₃, g₄, g₅⟩ := h₁.flush hi hn hnm h₂ hH hsize hfs rfl
    have hdir : ({ w with disk := filled w.disk start f n } : World).setSector dirLba (Dir.sector fs'.dir) =
        { w with disk := Function.update (filled w.disk start f n) 100 (Dir.sector fs'.dir) } := by
      rw [World.setSector, ataSector_dir]
    have hgood : Near H w.mem
        { w with disk := Function.update (filled w.disk start f n) 100 (Dir.sector fs'.dir) } :=
      ⟨rfl, g₁.onDisk, g₂⟩
    refine meets_ataWrite (hnear n (by omega)) trivial (by rw [hdir]; exact hgood) ?_
      fun hfail => (hmay _ hfail).elim
    rw [hdir]
    refine ⟨hgood, ⟨rfl, g₁, g₂, fun nm' ds' hnm' hnn' => ?_, Or.inl ⟨rfl, g₃, i, ?_, ?_, ?_⟩⟩, g₅⟩
    · exact (g₄ nm' ds' hnm' hnn').trans (h₃ nm' ds' hnm' hnn')
    · rw [hself]
      exact hi
    · rw [hself]
      exact (named_withSize hnm.1 sz).mpr hn
    · have hend : ((fs.dir i).withSize sz).startLba.toNat + 32 ≤ 2 ^ 28 := hslot
      have hge : 101 ≤ start.toNat := (hm.table.slot i hi).1
      rw [hself]
      refine content_filled (n := n) hend hsize (by omega) rfl fun s hs hs' => ?_
      dsimp only
      rw [show ((fs.dir i).withSize sz).startLba = start from rfl, Function.update_of_ne (by omega), filled,
        if_pos (by omega), Nat.add_sub_cancel_left]

/-! ### New files -/

lemma Table.add {next : Word} {dir : Dir} {e : FsEntry} (h : Table next dir) (i : Fin 16)
    (hroom : next.toNat + 32 ≤ 2 ^ 28) (hnm : IsName nm) (hn : Named e nm) (hstart : e.startLba = next)
    (hsize : e.size.toNat ≤ 16384) (hnew : ∀ j, (dir j).used ≠ 0 → ¬ Named (dir j) nm) :
    Table (next + slotSectors) (Function.update dir i e) := by
  have hnext : (next + slotSectors).toNat = next.toNat + 32 := by
    rw [BitVec.toNat_add_of_lt (by change next.toNat + 32 < 2 ^ 32; omega)]
    rfl
  have hge := h.next_ge
  have hother : ∀ j, j ≠ i → Function.update dir i e j = dir j := fun j hj => Function.update_of_ne hj ..
  have hself : Function.update dir i e i = e := Function.update_self ..
  have hnot : ∀ j nm', IsName nm' → (dir j).used ≠ 0 → Named (dir j) nm' → Named e nm' → False := by
    intro j nm' hnm' hj hnj hne
    rw [hne.unique hn hnm'.2 hnm.2] at hnj
    exact hnew j hj hnj
  refine ⟨by omega, by omega, fun j => ?_, fun j hj => ?_, fun j hj => ?_, fun j l hjl hj hl => ?_,
    fun j l nm' hnm' hj hl hnj hnl => ?_⟩
  · by_cases hji : j = i
    · rw [hji, hself]
      exact hsize
    · rw [hother j hji]
      exact h.size_le j
  · by_cases hji : j = i
    · rw [hji, hself, hstart, hnext]
      omega
    · rw [hother j hji] at hj ⊢
      have hs := h.slot j hj
      omega
  · by_cases hji : j = i
    · rw [hji, hself]
      exact ⟨nm, hnm, hn⟩
    · rw [hother j hji] at hj ⊢
      exact h.named j hj
  · by_cases hji : j = i
    · have hli : l ≠ i := fun hh => hjl (hji.trans hh.symm)
      rw [hother l hli] at hl ⊢
      rw [hji, hself, hstart]
      exact Or.inr (h.slot l hl).2
    · rw [hother j hji] at hj ⊢
      by_cases hli : l = i
      · rw [hli, hself, hstart]
        exact Or.inl (h.slot j hj).2
      · rw [hother l hli] at hl ⊢
        exact h.disjoint j l hjl hj hl
  · by_cases hji : j = i
    · by_cases hli : l = i
      · rw [hji, hli]
      · rw [hji, hself] at hnj
        rw [hother l hli] at hl hnl
        exact (hnot l nm' hnm' hl hnl hnj).elim
    · rw [hother j hji] at hj hnj
      by_cases hli : l = i
      · rw [hli, hself] at hnl
        exact (hnot j nm' hnm' hj hnj hnl).elim
      · rw [hother l hli] at hl hnl
        exact h.unique j l nm' hnm' hj hl hnj hnl

lemma Mounted.create (h : Mounted fs d) (hi : (fs.dir i).used = 0) (hnm : IsName nm)
    (hnew : ∀ j, (fs.dir j).used ≠ 0 → ¬ Named (fs.dir j) nm)
    (hroom : fs.super.nextFreeLba.toNat + 32 ≤ 2 ^ 28) (hk : Kept H d)
    (hfs : fs' = fs.withNew i (copied (fs.dir i).byte nm nameLen))
    (hd : d' = Function.update d 99 fs'.super.sector) :
    Mounted fs' d' ∧ Kept H d' ∧
      (∀ nm' ds', IsName nm' → nm' ≠ nm → (Holds d' fs'.dir nm' ds' ↔ Holds d fs.dir nm' ds')) ∧
      (fs'.dir i).used ≠ 0 ∧ Named (fs'.dir i) nm := by
  have h₁ : superOf (d' 99) = fs'.super := by rw [hd, Function.update_self, superOf_sector]
  have h₂ : d' 100 = d 100 := by rw [hd, Function.update_of_ne (by decide)]
  have hused : (fs'.dir i).used = 1 := by
    rw [hfs]
    simp only [Fs.withNew, Function.update_self]
  have hnamed : Named (fs'.dir i) nm := by
    rw [hfs]
    simp only [Fs.withNew, Function.update_self]
    exact named_new hnm _
  have hother : ∀ j, j ≠ i → fs'.dir j = fs.dir j := by
    intro j hj
    rw [hfs]
    exact Function.update_of_ne hj ..
  have htable : Table fs'.super.nextFreeLba fs'.dir := by
    rw [hfs]
    exact h.table.add i hroom hnm (named_new hnm _) rfl (h.table.size_le i) hnew
  have hne : ∀ j, (fs.dir j).used ≠ 0 → j ≠ i := by
    rintro j hj rfl
    exact hj hi
  have hcontent : ∀ j, (fs.dir j).used ≠ 0 → content d' (fs.dir j) = content d (fs.dir j) := fun j hj =>
    hd ▸ h.table.content_update hj (by decide) _
  have hdisk : ∀ j, (dirOf (d 100) j).used ≠ 0 → (fs.dir j).used ≠ 0 := fun j hj => by
    rwa [h.flushed j hj]
  refine ⟨⟨h₁, by rw [hfs]; exact h.magic, htable, fun j hj => ?_, by rw [h₂]; exact h.sizes⟩,
    fun nm' ds' hh => ?_, fun nm' ds' hnm' hnn => ⟨?_, ?_⟩, by rw [hused]; decide, hnamed⟩
  · rw [h₂] at hj ⊢
    rw [hother j (hne j (hdisk j hj)), h.flushed j hj]
  · obtain ⟨hnm', j, hj, hnj, rfl⟩ := hk nm' ds' hh
    rw [h₂]
    refine ⟨hnm', j, hj, hnj, ?_⟩
    rw [← h.flushed j hj]
    exact hcontent j (hdisk j hj)
  · rintro ⟨j, hj, hnj, rfl⟩
    have hji : j ≠ i := hnamed.slot_ne hnm hnm' hnn hnj
    rw [hother j hji] at hj hnj ⊢
    exact ⟨j, hj, hnj, (hcontent j hj).symm⟩
  · rintro ⟨j, hj, hnj, rfl⟩
    have hji := hother j (hne j hj)
    exact ⟨j, by rwa [hji], by rwa [hji], by rw [hji]; exact hcontent j hj⟩

lemma meets_fsWrite (may : Req → Prop) (data size : Word) (hm : Mounted fs w.disk)
    (hs : CString w.mem name nm) (hlen : nm.length ≤ 19) (hk : Kept H w.disk) (hH : ∀ ds, ¬ H nm ds)
    (hmay : ∀ s, ¬ may (.ataWrite superLba s) ∧ ¬ may (.ataWrite dirLba s))
    (hroom : (∀ j, (fs.dir j).used ≠ 0 → ¬ Named (fs.dir j) nm) → fs.firstFree ≠ none →
      fs.super.nextFreeLba.toNat + 32 ≤ 2 ^ 28) :
    (fsWrite name data size fs).Meets (Transfer may) (fun _ => True) (Near H w.mem)
      (fun r t => Wrote may H fs w nm (dataBytes w.mem data size) r t ∧ Grown fs r.2) w := by
  have hnm := hs.isName hlen
  have hnear : Near H w.mem w := ⟨rfl, hm.onDisk, hk⟩
  refine Prog.Meets.bind (meets_find hs (by omega) hnear (fun _ _ => trivial) (fun i hi hsp => ?_) fun hno => ?_)
  · exact (meets_put hm hi ((spells_nameAt hlen).mp hsp) hnm hk hH fun s => (hmay s).2).mono
      fun r t _ h => ⟨h.1, Or.inl h.2⟩
  · have hnew : ∀ j, (fs.dir j).used ≠ 0 → ¬ Named (fs.dir j) nm := fun j hj hn =>
      hno j (List.mem_finRange j) hj ((spells_nameAt hlen).mpr hn)
    cases hfree : fs.firstFree with
    | none =>
      refine ⟨hnear, ⟨rfl, hm, hk, fun _ _ _ _ => Iff.rfl, Or.inr (Or.inr ⟨rfl, rfl, fun i => ?_⟩)⟩,
        Or.inl ⟨rfl, fun _ => Iff.rfl⟩⟩
      exact ⟨firstFree_none hfree i, hnew i (firstFree_none hfree i)⟩
    | some i =>
      have hi := firstFree_some hfree
      set fs₁ := fs.withNew i (copied (fs.dir i).byte nm nameLen) with hfs
      obtain ⟨h₁, h₂, h₃, h₄, h₅⟩ := hm.create hi hnm hnew (hroom hnew (by rw [hfree]; simp)) hk hfs rfl
      have hset : w.setSector superLba fs₁.super.sector =
          { w with disk := Function.update w.disk 99 fs₁.super.sector } := by
        rw [World.setSector, ataSector_super]
      have hgood : Near H w.mem (w.setSector superLba fs₁.super.sector) := by
        rw [hset]
        exact ⟨rfl, h₁.onDisk, h₂⟩
      refine Prog.Meets.bind (meets_create hs hnear (fun _ _ => trivial) hfs trivial hgood ?_
        fun hf => ((hmay _).1 hf).elim)
      rw [hset]
      refine (meets_put (w := { w with disk := Function.update w.disk 99 fs₁.super.sector }) h₁ h₄ h₅ hnm h₂ hH
        fun s => (hmay s).2).mono fun r t _ h => ⟨⟨h.1.mem, h.1.mounted, h.1.kept, fun nm' ds' hnm' hnn => ?_, ?_⟩,
          Or.inr ⟨i, _, hi, h.2⟩⟩
      · exact (h.1.others nm' ds' hnm' hnn).trans (h₃ nm' ds' hnm' hnn)
      · rcases h.1.outcome with ho | ho | ⟨_, _, ho⟩
        · exact Or.inl ho
        · exact Or.inr (Or.inl ho)
        · exact ((ho i).2 h₅).elim

end PyroOS
