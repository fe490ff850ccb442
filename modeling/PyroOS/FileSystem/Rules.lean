import PyroOS.FileSystem.Calls

/-! Rules for the parts of the file system calls, for any machine and any set of allowed requests. -/

namespace PyroOS

open Interaction

variable {may allowed : Req → Prop} {good : World → Prop} {w : World} {nm : List Byte} {fs : Fs}
  {i : Fin 16} {name start data size : Word} {n : ℕ}

/-! ### Sizes and sectors -/

lemma chunkOf_toNat (size : Word) {s : ℕ} (hs : s * 512 < 2 ^ 32) :
    (chunkOf size (BitVec.ofNat 32 (s * 512))).toNat = min 512 (size.toNat - s * 512) := by
  have hoff : (BitVec.ofNat 32 (s * 512)).toNat = s * 512 := by
    rw [BitVec.toNat_ofNat, Nat.mod_eq_of_lt hs]
  have hlt := size.isLt
  simp only [chunkOf, BitVec.lt_def, hoff]
  split
  · rename_i h
    have hsub : (size - BitVec.ofNat 32 (s * 512)).toNat = size.toNat - s * 512 := by
      rw [BitVec.toNat_sub_of_le (BitVec.le_def.mpr (by omega)), hoff]
    rw [hsub]
    split
    · rename_i h'
      change 512 < _ at h'
      change 512 = _
      omega
    · rename_i h'
      change ¬ 512 < _ at h'
      omega
  · rename_i h
    rw [if_neg (by decide), show ((0 : Word)).toNat = 0 from rfl]
    omega

lemma sectorsOf_toNat (size : Word) (hs : size.toNat + 511 < 2 ^ 32) :
    (sectorsOf size).toNat = (size.toNat + 511) / 512 := by
  rw [sectorsOf, BitVec.toNat_udiv, BitVec.toNat_add_of_lt hs]
  rfl

def dataSector (mem : Word → Byte) (data size : Word) (s : ℕ) : Sector := fun j =>
  if s * 512 + j.val < size.toNat then mem (addr data (s * 512 + j)) else 0

/-! ### Looking a name up -/

lemma meets_find {l : List (Fin 16)} {post : Option (Fin 16) → World → Prop}
    (hs : CString w.mem name nm) (hlen : nm.length < 2 ^ 32) (hg : good w)
    (ha : ∀ j ≤ nm.length, allowed (.load (addr name j)))
    (hsome : ∀ i, (fs.dir i).used ≠ 0 → Spells (fs.nameAt i) nm → post (some i) w)
    (hnone : (∀ i ∈ l, (fs.dir i).used ≠ 0 → ¬ Spells (fs.nameAt i) nm) → post none w) :
    (fs.find name l).Meets (Transfer may) allowed good post w := by
  induction l with
  | nil => exact ⟨hg, hnone nofun⟩
  | cons i l ih =>
    rw [Fs.find]
    by_cases hu : (fs.dir i).used = 0
    · rw [if_pos hu]
      refine ih fun hl => hnone fun j hj hju => ?_
      rcases List.mem_cons.mp hj with rfl | hj
      · exact (hju hu).elim
      · exact hl j hj hju
    · rw [if_neg hu]
      refine Prog.Meets.bind (meets_strcmp hs hlen hg ha fun r hr => ?_)
      by_cases hz : r = 0
      · rw [if_pos hz]
        exact ⟨hg, hsome i hu (hr.mp hz)⟩
      · rw [if_neg hz]
        refine ih fun hl => hnone fun j hj hju => ?_
        rcases List.mem_cons.mp hj with rfl | hj
        · exact fun hsp => hz (hr.mpr hsp)
        · exact hl j hj hju

lemma firstFree_some {fs : Fs} (h : fs.firstFree = some i) : (fs.dir i).used = 0 := by
  simpa using List.find?_some h

lemma firstFree_none {fs : Fs} (h : fs.firstFree = none) (i : Fin 16) : (fs.dir i).used ≠ 0 := by
  simpa using List.find?_eq_none.mp h i (List.mem_finRange i)

lemma meets_create {post : Fs → World → Prop} (hs : CString w.mem name nm) (hg : good w)
    (ha : ∀ j ≤ nm.length, allowed (.load (addr name j))) {fs' : Fs}
    (hfs : fs' = fs.withNew i (copied (fs.dir i).byte nm nameLen))
    (haw : allowed (.ataWrite superLba fs'.super.sector)) (hg' : good (w.setSector superLba fs'.super.sector))
    (hp : post fs' (w.setSector superLba fs'.super.sector))
    (hf : may (.ataWrite superLba fs'.super.sector) → post fs' w) :
    (fs.create i name).Meets (Transfer may) allowed good post w := by
  subst hfs
  refine Prog.Meets.bind (meets_strncpyZ hs hg ha (Prog.Meets.bind ?_))
  exact meets_ataWrite hg haw hg' ⟨hg', hp⟩ fun hm => ⟨hg, hf hm⟩

/-! ### Moving data -/

lemma meets_writeSectors {post : Bool → World → Prop} (mem : Word → Byte) (inv : ℕ → World → Prop)
    (hn : n * 512 ≤ 2 ^ 32) (h₀ : inv 0 w) (hload : ∀ j < size.toNat, allowed (.load (addr data j)))
    (hstep : ∀ s t, s < n → inv s t → t.mem = mem ∧ good t ∧
      allowed (.ataWrite (addr start s) (dataSector mem data size s)) ∧
      good (t.setSector (addr start s) (dataSector mem data size s)) ∧
      inv (s + 1) (t.setSector (addr start s) (dataSector mem data size s)) ∧
      (may (.ataWrite (addr start s) (dataSector mem data size s)) → post false t))
    (hend : ∀ t, inv n t → good t ∧ post true t) :
    (writeSectors start data size n).Meets (Transfer may) allowed good post w := by
  refine Prog.meets_iterate (fun r s t => r + s = n ∧ inv s t) ?_ ?_ _ _ _ ⟨rfl, h₀⟩
  · rintro r s t ⟨hr, hi⟩
    obtain ⟨hmem, hg, haw, hg', hi', hf⟩ := hstep s t (by omega) hi
    have hchunk := chunkOf_toNat size (show s * 512 < 2 ^ 32 by omega)
    have hsector : (fun j : Fin 512 => if j.val < (chunkOf size (BitVec.ofNat 32 (s * 512))).toNat
        then t.mem (addr (data + BitVec.ofNat 32 (s * 512)) j) else 0) = dataSector mem data size s := by
      funext j
      rw [dataSector, addr_add, hmem, hchunk]
      exact if_congr (by omega) rfl rfl
    refine Prog.Meets.bind (meets_memcpyFrom hg ?_ (Prog.Meets.bind ?_))
    · intro j hj
      rw [addr_add]
      exact hload _ (by omega)
    · rw [hsector]
      refine meets_ataWrite hg haw hg' ⟨hg', by omega, hi'⟩ fun hm => ⟨hg, hf hm⟩
  · rintro s t ⟨hr, hi⟩
    rw [zero_add] at hr
    subst hr
    exact ⟨(hend t hi).1, (hend t hi).2⟩

def fileByte (d : Disk) (start : Word) (j : ℕ) : Byte :=
  sectorByte (d (ataSector (addr start (j / 512)))) (j % 512)

lemma meets_readSectors {post : Bool → World → Prop} {buf : Word} (hsize : size.toNat + 511 < 2 ^ 32)
    (hn : n = (size.toNat + 511) / 512)
    (hg : ∀ j ≤ size.toNat, good { w with mem := blit w.mem buf j (fileByte w.disk start) })
    (hread : ∀ s < n, allowed (.ataRead (addr start s)))
    (hstore : ∀ j < size.toNat, ∀ b, allowed (.store (addr buf j) b))
    (hp : post true { w with mem := blit w.mem buf size.toNat (fileByte w.disk start) })
    (hf : ∀ s < n, may (.ataRead (addr start s)) →
      post false { w with mem := blit w.mem buf (s * 512) (fileByte w.disk start) }) :
    (readSectors start buf size n).Meets (Transfer may) allowed good post w := by
  refine Prog.meets_iterate (fun r s t => r + s = n ∧
    t = { w with mem := blit w.mem buf (min (s * 512) size.toNat) (fileByte w.disk start) })
    ?_ ?_ _ _ _ ⟨rfl, by rw [Nat.zero_mul, Nat.zero_min, blit_zero]⟩
  · rintro r s t ⟨hr, rfl⟩
    have hs : min (s * 512) size.toNat = s * 512 := by omega
    have hlt : s * 512 < 2 ^ 32 := by omega
    have hchunk := chunkOf_toNat size hlt
    rw [hs]
    have hgs := hg (s * 512) (by omega)
    refine Prog.Meets.bind (meets_ataRead hgs (hread s (by omega)) ?_ fun hm => ⟨hgs, hf s (by omega) hm⟩)
    -- The bytes of this sector continue what has been copied so far.
    have hbytes : ∀ j < (chunkOf size (BitVec.ofNat 32 (s * 512))).toNat,
        sectorByte (w.disk (ataSector (addr start s))) j = fileByte w.disk start (s * 512 + j) := by
      intro j hj
      rw [fileByte, show (s * 512 + j) / 512 = s by omega, show (s * 512 + j) % 512 = j by omega]
    have hblit : ∀ j ≤ (chunkOf size (BitVec.ofNat 32 (s * 512))).toNat,
        blit (blit w.mem buf (s * 512) (fileByte w.disk start)) (buf + BitVec.ofNat 32 (s * 512)) j
          (sectorByte (w.disk (ataSector (addr start s)))) =
        blit w.mem buf (s * 512 + j) (fileByte w.disk start) := fun j hj =>
      blit_append _ _ (by omega) fun k hk => hbytes k (by omega)
    refine Prog.Meets.bind (meets_memcpyTo (by omega) ?_ ?_ ?_)
    · intro j hj
      simp only [hblit j hj]
      exact hg _ (by omega)
    · intro j hj
      rw [hchunk, lt_min_iff] at hj
      rw [addr_add]
      exact hstore (s * 512 + j) (Nat.add_lt_of_lt_sub' hj.2) _
    · simp only [hblit _ le_rfl]
      refine ⟨hg _ (by omega), by omega, ?_⟩
      rw [show s * 512 + (chunkOf size (BitVec.ofNat 32 (s * 512))).toNat =
        min ((s + 1) * 512) size.toNat by omega]
  · rintro s t ⟨hr, rfl⟩
    rw [show min (s * 512) size.toNat = size.toNat by omega]
    exact ⟨hg _ le_rfl, hp⟩

end PyroOS
