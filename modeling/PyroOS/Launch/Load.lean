import PyroOS.Launch.Elf

/-! What `elf_load` leaves in memory. -/

namespace PyroOS

open Interaction Kernel

/-! ### Headers in memory -/

def halfAt (mem : Word → Byte) (a : Word) : ℕ := (mem (addr a 0)).toNat + 2 ^ 8 * (mem (addr a 1)).toNat

def word32 (mem : Word → Byte) (a : Word) : Word := wordAt fun j => mem (addr a j)

def phdrAt (mem : Word → Byte) (ph : Word) (i : ℕ) : Phdr :=
  let e := addr ph (i * phdrSize)
  ⟨word32 mem (addr e 0), word32 mem (addr e 4), word32 mem (addr e 8), word32 mem (addr e 16),
    word32 mem (addr e 20), word32 mem (addr e 24)⟩

def phnumOf (mem : Word → Byte) (image : Word) : ℕ := halfAt mem (addr image 44)
def phoffOf (mem : Word → Byte) (image : Word) : Word := word32 mem (addr image 28)
def elfEntry (mem : Word → Byte) (image : Word) : Word := word32 mem (addr image 24)

def phdrsOf (mem : Word → Byte) (image : Word) : List Phdr :=
  (List.range (phnumOf mem image)).map (phdrAt mem (image + phoffOf mem image))

def putSegment (file : ℕ → Byte) (mem : Word → Byte) (p : Phdr) : Word → Byte :=
  blit mem p.vaddr p.memsz.toNat fun j => if j < p.filesz.toNat then file (p.offset.toNat + j) else 0

def loaded (file : ℕ → Byte) (mem : Word → Byte) (ps : List Phdr) : Word → Byte :=
  (ps.filter Phdr.loads).foldl (putSegment file) mem

def fileOf (mem : Word → Byte) (image : Word) (j : ℕ) : Byte := mem (addr image j)

def Phdr.Covers (p : Phdr) (x : Word) : Prop := (x - p.vaddr).toNat < p.memsz.toNat

instance (p : Phdr) (x : Word) : Decidable (p.Covers x) := inferInstanceAs (Decidable (_ < _))

variable {may allowed : Req → Prop} {w : World} {image ph a size lo hi dst src : Word} {n : ℕ}
  {mem mem' : Word → Byte} {file : ℕ → Byte} {p : Phdr} {ps : List Phdr}

lemma halfAt_lt (mem : Word → Byte) (a : Word) : halfAt mem a < 2 ^ 16 := by
  have h₀ := (mem (addr a 0)).isLt
  have h₁ := (mem (addr a 1)).isLt
  rw [halfAt]
  omega

/-! ### Reading -/

lemma meets_load16 {post : ℕ → World → Prop} (ha : ∀ j < 2, allowed (.load (addr a j)))
    (hp : post (halfAt w.mem a) w) :
    (load16 a).Meets (Transfer may) allowed (fun _ => True) post w :=
  Prog.Meets.bind (meets_load trivial (ha 0 (by decide)) (Prog.Meets.bind (meets_load trivial (ha 1 (by decide))
    ⟨trivial, hp⟩)))

lemma meets_load32 {post : Word → World → Prop} (ha : ∀ j < 4, allowed (.load (addr a j)))
    (hp : post (word32 w.mem a) w) :
    (load32 a).Meets (Transfer may) allowed (fun _ => True) post w :=
  Prog.Meets.bind (meets_load trivial (ha 0 (by decide)) (Prog.Meets.bind (meets_load trivial (ha 1 (by decide))
    (Prog.Meets.bind (meets_load trivial (ha 2 (by decide)) (Prog.Meets.bind (meets_load trivial (ha 3 (by decide))
      ⟨trivial, hp⟩)))))))

lemma meets_readPhdr {post : Phdr → World → Prop} {i : ℕ}
    (ha : ∀ j < phdrSize, allowed (.load (addr (addr ph (i * phdrSize)) j))) (hp : post (phdrAt w.mem ph i) w) :
    (readPhdr ph i).Meets (Transfer may) allowed (fun _ => True) post w := by
  have hfield : ∀ k, k + 4 ≤ phdrSize → ∀ j < 4, allowed (.load (addr (addr (addr ph (i * phdrSize)) k) j)) := by
    intro k hk j hj
    rw [addr_addr (addr ph (i * phdrSize))]
    exact ha _ (by omega)
  refine Prog.Meets.bind (meets_load32 (hfield 0 (by decide)) ?_)
  refine Prog.Meets.bind (meets_load32 (hfield 4 (by decide)) ?_)
  refine Prog.Meets.bind (meets_load32 (hfield 8 (by decide)) ?_)
  refine Prog.Meets.bind (meets_load32 (hfield 16 (by decide)) ?_)
  refine Prog.Meets.bind (meets_load32 (hfield 20 (by decide)) ?_)
  exact Prog.Meets.bind (meets_load32 (hfield 24 (by decide)) ⟨trivial, hp⟩)

lemma meets_forPhdrs {τ α : Type} {done : τ → α} {body : Phdr → τ → Kernel (τ ⊕ α)} {x : τ}
    {post : α → World → Prop} (hnum : ∀ j < 2, allowed (.load (addr (addr image 44) j)))
    (htab : ∀ i < phnumOf w.mem image, ∀ j < phdrSize, allowed (.load (addr (addr ph (i * phdrSize)) j)))
    (inv : ℕ → τ → World → Prop)
    (hstable : ∀ i x t, inv i x t → phnumOf t.mem image = phnumOf w.mem image ∧
      (i < phnumOf w.mem image → phdrAt t.mem ph i = phdrAt w.mem ph i))
    (hbody : ∀ i x t, i < phnumOf w.mem image → inv i x t →
      (body (phdrAt w.mem ph i) x).Meets (Transfer may) allowed (fun _ => True)
        (fun r u => match r with
          | .inl y => inv (i + 1) y u
          | .inr a => post a u) t)
    (hdone : ∀ x t, inv (phnumOf w.mem image) x t → post (done x) t) (h₀ : inv 0 x w) :
    (forPhdrs image ph done body x).Meets (Transfer may) allowed (fun _ => True) post w := by
  have hlt : phnumOf w.mem image < 2 ^ 16 := halfAt_lt _ _
  refine Prog.meets_iterate
    (fun m s t => m + s.1 = 2 ^ 16 ∧ s.1 ≤ phnumOf w.mem image ∧ inv s.1 s.2 t) ?_ ?_ _ _ _
    ⟨Nat.add_zero _, Nat.zero_le _, h₀⟩
  · rintro m s t ⟨hm, hs, hi⟩
    obtain ⟨hsame, hphdr⟩ := hstable s.1 s.2 t hi
    have hsame' : halfAt t.mem (addr image 44) = phnumOf w.mem image := hsame
    refine Prog.Meets.bind (meets_load16 hnum ?_)
    rw [hsame']
    by_cases hn : s.1 < phnumOf w.mem image
    · rw [if_pos hn]
      refine Prog.Meets.bind (meets_readPhdr (htab s.1 hn) ?_)
      rw [hphdr hn]
      refine Prog.Meets.bind ((hbody s.1 s.2 t hn hi).mono fun r u _ hr => ?_)
      cases r with
      | inl y => exact ⟨trivial, by dsimp only; omega, hn, hr⟩
      | inr a => exact ⟨trivial, hr⟩
    · rw [if_neg hn]
      have he : s.1 = phnumOf w.mem image := by omega
      rw [he] at hi
      exact ⟨trivial, hdone _ _ hi⟩
  · rintro s t ⟨hm, hs, _⟩
    omega

/-! ### The image

From here on only bytes of the image are read. -/

section

variable (ha : ∀ j < size.toNat, allowed (.load (addr image j)))
include ha

lemma image_field {k m : ℕ} (hk : k + m ≤ size.toNat) : ∀ j < m, allowed (.load (addr (addr image k) j)) := by
  intro j hj
  rw [addr_addr]
  exact ha _ (by omega)

lemma image_phdr {q : Word} {n : ℕ} (hq : q.toNat + n * phdrSize ≤ size.toNat) :
    ∀ i < n, ∀ j < phdrSize, allowed (.load (addr (addr (image + q) (i * phdrSize)) j)) := by
  intro i hi j hj
  rw [addr_offset, addr_addr]
  have hle : (i + 1) * phdrSize ≤ n * phdrSize := Nat.mul_le_mul_right _ hi
  rw [Nat.add_mul] at hle
  exact ha _ (by omega)

end

/-! ### Validation -/

structure Valid (mem : Word → Byte) (image size : Word) : Prop where
  header : ehdrSize ≤ size.toNat
  table : (phoffOf mem image).toNat + phnumOf mem image * phdrSize ≤ size.toNat
  segment : ∀ p ∈ phdrsOf mem image, p.type = ptLoad →
    p.filesz.toNat ≤ p.memsz.toNat ∧ p.offset.toNat + p.filesz.toNat ≤ size.toNat

section

variable (ha : ∀ j < size.toNat, allowed (.load (addr image j))) (hsize : ehdrSize ≤ size.toNat)
include ha hsize

lemma meets_validateIdent {post : ElfStatus → World → Prop} (hp : ∀ st, post st w) :
    (validateIdent image).Meets (Transfer may) allowed (fun _ => True) post w := by
  rw [ehdrSize] at hsize
  refine Prog.Meets.bind (meets_load trivial (ha 0 (by omega)) ?_)
  refine Prog.Meets.bind (meets_load trivial (ha 1 (by omega)) ?_)
  refine Prog.Meets.bind (meets_load trivial (ha 2 (by omega)) ?_)
  refine Prog.Meets.bind (meets_load trivial (ha 3 (by omega)) ?_)
  split
  · exact ⟨trivial, hp _⟩
  · refine Prog.Meets.bind (meets_load trivial (ha 4 (by omega)) ?_)
    refine Prog.Meets.bind (meets_load trivial (ha 5 (by omega)) ?_)
    split <;> exact ⟨trivial, hp _⟩

lemma meets_validateKind {post : ElfStatus → World → Prop} (hbad : ∀ st, st ≠ .ok → post st w)
    (hok : halfAt w.mem (addr image 42) = phdrSize → post .ok w) :
    (validateKind image).Meets (Transfer may) allowed (fun _ => True) post w := by
  rw [ehdrSize] at hsize
  refine Prog.Meets.bind (meets_load16 (image_field ha (by omega)) ?_)
  split
  · exact ⟨trivial, hbad _ (by decide)⟩
  refine Prog.Meets.bind (meets_load16 (image_field ha (by omega)) ?_)
  split
  · exact ⟨trivial, hbad _ (by decide)⟩
  refine Prog.Meets.bind (meets_load16 (image_field ha (by omega)) ?_)
  refine Prog.Meets.bind (meets_load16 (image_field ha (by omega)) ?_)
  split
  · exact ⟨trivial, hbad _ (by decide)⟩
  · rename_i h
    rw [not_or, not_not] at h
    exact ⟨trivial, hok h.2⟩

lemma meets_validateTable {post : ElfStatus → World → Prop}
    (hent : halfAt w.mem (addr image 42) = phdrSize) (hbad : ∀ st, st ≠ .ok → post st w)
    (hok : Valid w.mem image size → post .ok w) :
    (validateTable image size).Meets (Transfer may) allowed (fun _ => True) post w := by
  have hfield := hsize
  rw [ehdrSize] at hfield
  refine Prog.Meets.bind (meets_load32 (image_field ha (by omega)) ?_)
  refine Prog.Meets.bind (meets_load16 (image_field ha (by omega)) ?_)
  refine Prog.Meets.bind (meets_load16 (image_field ha (by omega)) ?_)
  rw [hent]
  split
  · exact ⟨trivial, hbad _ (by decide)⟩
  rename_i htable
  have htable' : (phoffOf w.mem image).toNat + phnumOf w.mem image * phdrSize ≤ size.toNat := not_lt.mp htable
  refine Prog.Meets.bind (meets_load32 (image_field ha (by omega)) ?_)
  refine meets_forPhdrs (image_field ha (by omega)) (image_phdr ha htable')
    (fun i _ t => t = w ∧ ∀ j < i, (phdrAt w.mem (image + phoffOf w.mem image) j).type =
      ptLoad → (phdrAt w.mem (image + phoffOf w.mem image) j).filesz.toNat ≤
        (phdrAt w.mem (image + phoffOf w.mem image) j).memsz.toNat ∧
      (phdrAt w.mem (image + phoffOf w.mem image) j).offset.toNat +
        (phdrAt w.mem (image + phoffOf w.mem image) j).filesz.toNat ≤ size.toNat)
    ?_ ?_ ?_ ⟨rfl, fun j hj => (Nat.not_lt_zero j hj).elim⟩
  · rintro i x t ⟨rfl, _⟩
    exact ⟨rfl, fun _ => rfl⟩
  · rintro i x t hi ⟨rfl, hpre⟩
    rw [validatePhdr]
    split
    · rename_i hty
      refine ⟨trivial, rfl, fun j hj => ?_⟩
      rcases Nat.lt_succ_iff_lt_or_eq.mp hj with hj | rfl
      · exact hpre j hj
      · exact fun h => (hty h).elim
    split
    · exact ⟨trivial, hbad _ (by decide)⟩
    split
    · exact ⟨trivial, hbad _ (by decide)⟩
    · rename_i hmem hoff
      refine ⟨trivial, rfl, fun j hj => ?_⟩
      rcases Nat.lt_succ_iff_lt_or_eq.mp hj with hj | rfl
      · exact hpre j hj
      · rw [BitVec.lt_def] at hmem
        exact fun _ => ⟨not_lt.mp hmem, not_lt.mp hoff⟩
  · rintro x t ⟨rfl, hall⟩
    split
    · exact hbad _ (by decide)
    · refine hok ⟨hsize, htable', fun p hp => ?_⟩
      obtain ⟨j, hj, rfl⟩ := List.mem_map.mp hp
      exact hall j (List.mem_range.mp hj)

end

lemma meets_elfValidate {post : ElfStatus → World → Prop} (ha : ∀ j < size.toNat, allowed (.load (addr image j)))
    (hbad : ∀ st, st ≠ .ok → post st w) (hok : Valid w.mem image size → post .ok w) :
    (elfValidate image size).Meets (Transfer may) allowed (fun _ => True) post w := by
  rw [elfValidate]
  split
  · exact ⟨trivial, hbad _ (by decide)⟩
  rename_i hsize
  rw [not_or, not_lt] at hsize
  refine Prog.Meets.bind (meets_validateIdent ha hsize.2 fun st => ?_)
  split
  · rename_i hst
    exact ⟨trivial, hbad _ hst⟩
  refine Prog.Meets.bind (meets_validateKind ha hsize.2 (fun st hst => ?_) fun hent => ?_)
  · rw [if_pos hst]
    exact ⟨trivial, hbad _ hst⟩
  · rw [if_neg (not_not.mpr rfl)]
    exact meets_validateTable ha hsize.2 hent hbad hok

lemma exec_elfValidate (w : World) (image size : Word) : ∃ st, exec (elfValidate image size) w = some (st, w) ∧
    (st = .ok → Valid w.mem image size) := by
  have h : (elfValidate image size).Meets (Transfer fun _ => False) (fun _ => True) (fun _ => True)
      (fun st t => t = w ∧ (st = .ok → Valid w.mem image size)) w :=
    meets_elfValidate (fun _ _ => trivial) (fun _ h => ⟨rfl, fun h' => (h h').elim⟩) fun hv => ⟨rfl, fun _ => hv⟩
  obtain ⟨st, t, hrun, rfl, hok⟩ := exec_of_meets h
  exact ⟨st, hrun, hok⟩

/-! ### Loading -/

def Apart (image size lo hi : Word) : Prop := ∀ j < size.toNat, addr image j < lo ∨ hi ≤ addr image j

def InWindow (lo hi : Word) (ps : List Phdr) : Prop :=
  ∀ p ∈ ps, p.loads → lo.toNat ≤ p.vaddr.toNat ∧ p.vaddr.toNat + p.memsz.toNat ≤ hi.toNat

lemma covers_iff {x : Word} (h : p.vaddr.toNat + p.memsz.toNat ≤ 2 ^ 32) :
    p.Covers x ↔ p.vaddr.toNat ≤ x.toNat ∧ x.toNat < p.vaddr.toNat + p.memsz.toNat := sub_lt_iff h

lemma InWindow.covers (h : InWindow lo hi ps) (hp : p ∈ ps) (hl : p.loads) {x : Word} (hx : p.Covers x) :
    lo ≤ x ∧ x < hi := by
  obtain ⟨hlo, hhi⟩ := h p hp hl
  have hlt := hi.isLt
  rw [covers_iff (by omega)] at hx
  rw [BitVec.le_def, BitVec.lt_def]
  omega

lemma putSegment_outside {x : Word} (h : ¬ p.Covers x) : putSegment file mem p x = mem x := if_neg h

lemma loaded_concat : loaded file mem (ps ++ [p]) =
    if p.loads then putSegment file (loaded file mem ps) p else loaded file mem ps := by
  rw [loaded, List.filter_append, List.foldl_append, List.filter_singleton]
  cases p.loads <;> rfl

lemma loaded_range_succ {f : ℕ → Phdr} {i : ℕ} : loaded file mem ((List.range (i + 1)).map f) =
    if (f i).loads then putSegment file (loaded file mem ((List.range i).map f)) (f i)
    else loaded file mem ((List.range i).map f) := by
  rw [List.range_succ, List.map_append, List.map_singleton, loaded_concat]

lemma loaded_outside {x : Word} (h : ∀ p ∈ ps, p.loads → ¬ p.Covers x) : loaded file mem ps x = mem x := by
  induction ps using List.reverseRecOn with
  | nil => rfl
  | append_singleton ps p ih =>
    have hpre := ih fun q hq => h q (List.mem_append_left _ hq)
    rw [loaded_concat]
    split
    · rename_i hl
      rw [putSegment_outside (h p (List.mem_append_right _ List.mem_cons_self) hl), hpre]
    · exact hpre

lemma InWindow.loaded_outside (h : InWindow lo hi ps) {x : Word} (hx : x < lo ∨ hi ≤ x) :
    loaded file mem ps x = mem x := by
  refine PyroOS.loaded_outside fun p hp hl hc => ?_
  obtain ⟨h₁, h₂⟩ := h.covers hp hl hc
  rw [BitVec.le_def] at h₁ hx
  rw [BitVec.lt_def] at h₂ hx
  omega

section

variable (h : ∀ j < size.toNat, mem' (addr image j) = mem (addr image j))
include h

lemma halfAt_congr {k : ℕ} (hk : k + 2 ≤ size.toNat) :
    halfAt mem' (addr image k) = halfAt mem (addr image k) := by
  rw [halfAt, halfAt, addr_addr, addr_addr, h _ (by omega), h _ (by omega)]

lemma word32_congr {k : ℕ} (hk : k + 4 ≤ size.toNat) :
    word32 mem' (addr image k) = word32 mem (addr image k) := by
  simp only [word32, wordAt, addr_addr]
  rw [h _ (by omega), h _ (by omega), h _ (by omega), h _ (by omega)]

lemma phdrAt_congr {q : Word} {i : ℕ} (hi : q.toNat + (i + 1) * phdrSize ≤ size.toNat) :
    phdrAt mem' (image + q) i = phdrAt mem (image + q) i := by
  have hw : ∀ k, k + 4 ≤ phdrSize → word32 mem' (addr (addr (image + q) (i * phdrSize)) k) =
      word32 mem (addr (addr (image + q) (i * phdrSize)) k) := by
    intro k hk
    rw [addr_offset, addr_addr]
    refine word32_congr h ?_
    rw [Nat.add_mul] at hi
    omega
  simp only [phdrAt, hw 0 (by decide), hw 4 (by decide), hw 8 (by decide), hw 16 (by decide),
    hw 20 (by decide), hw 24 (by decide)]

end

lemma phdrsOf_congr (hv : Valid mem image size) (h : ∀ j < size.toNat, mem' (addr image j) = mem (addr image j)) :
    phdrsOf mem' image = phdrsOf mem image := by
  have hsize := hv.header
  rw [ehdrSize] at hsize
  have hnum : phnumOf mem' image = phnumOf mem image := halfAt_congr h (by omega)
  have hoff : phoffOf mem' image = phoffOf mem image := word32_congr h (by omega)
  rw [phdrsOf, phdrsOf, hnum, hoff]
  refine List.map_congr_left fun i hi => phdrAt_congr h (le_trans ?_ hv.table)
  exact Nat.add_le_add_left (Nat.mul_le_mul_right _ (List.mem_range.mp hi)) _

lemma Valid.congr (hv : Valid mem image size) (h : ∀ j < size.toNat, mem' (addr image j) = mem (addr image j)) :
    Valid mem' image size := by
  have hsize := hv.header
  rw [ehdrSize] at hsize
  refine ⟨hv.header, ?_, ?_⟩
  · rw [show phoffOf mem' image = phoffOf mem image from word32_congr h (by omega),
      show phnumOf mem' image = phnumOf mem image from halfAt_congr h (by omega)]
    exact hv.table
  · rw [phdrsOf_congr hv h]
    exact hv.segment

lemma phdrAt_mem {i : ℕ} (hi : i < phnumOf mem image) :
    phdrAt mem (image + phoffOf mem image) i ∈ phdrsOf mem image :=
  List.mem_map.mpr ⟨i, List.mem_range.mpr hi, rfl⟩

lemma meets_checkPhdrs {post : Bool → World → Prop} (ha : ∀ j < size.toNat, allowed (.load (addr image j)))
    (hv : Valid w.mem image size) (hin : InWindow lo hi (phdrsOf w.mem image) → post true w)
    (hout : ¬ InWindow lo hi (phdrsOf w.mem image) → post false w) :
    (forPhdrs image (image + phoffOf w.mem image) (fun _ => true) (checkPhdr lo hi) ()).Meets (Transfer may)
      allowed (fun _ => True) post w := by
  have hsize := hv.header
  rw [ehdrSize] at hsize
  refine meets_forPhdrs (image_field ha (by omega)) (image_phdr ha hv.table)
    (fun i _ t => t = w ∧ InWindow lo hi ((List.range i).map (phdrAt w.mem (image + phoffOf w.mem image))))
    (fun i _ t ht => by rw [ht.1]; exact ⟨rfl, fun _ => rfl⟩) ?_ ?_ ⟨rfl, nofun⟩
  · rintro i x t hlt ⟨rfl, hpre⟩
    have hnext : ((phdrAt t.mem (image + phoffOf t.mem image) i).loads →
        lo.toNat ≤ (phdrAt t.mem (image + phoffOf t.mem image) i).vaddr.toNat ∧
        (phdrAt t.mem (image + phoffOf t.mem image) i).vaddr.toNat +
          (phdrAt t.mem (image + phoffOf t.mem image) i).memsz.toNat ≤ hi.toNat) →
        InWindow lo hi ((List.range (i + 1)).map (phdrAt t.mem (image + phoffOf t.mem image))) := by
      intro h p hp
      rw [List.range_succ, List.map_append, List.mem_append, List.map_singleton, List.mem_singleton] at hp
      rcases hp with hp | rfl
      · exact hpre p hp
      · exact h
    rw [checkPhdr]
    cases hl : (phdrAt t.mem (image + phoffOf t.mem image) i).loads
    · exact ⟨trivial, rfl, hnext fun h => by rw [hl] at h; cases h⟩
    · rw [if_neg (by decide)]
      split
      · rename_i hbad
        refine ⟨trivial, hout fun hwin => ?_⟩
        obtain ⟨h₁, h₂⟩ := hwin _ (phdrAt_mem hlt) hl
        omega
      · rename_i hgood
        exact ⟨trivial, rfl, hnext fun _ => by omega⟩
  · rintro x t ⟨rfl, hall⟩
    exact hin hall

section

variable (ha : ∀ j < size.toNat, allowed (.load (addr image j)))
  (hs : ∀ a b, lo ≤ a → a < hi → allowed (.store a b))
include ha hs

lemma meets_copyPhdr {post : Unit ⊕ Unit → World → Prop} (hl : p.loads)
    (hwin : lo.toNat ≤ p.vaddr.toNat ∧ p.vaddr.toNat + p.memsz.toNat ≤ hi.toNat)
    (hfit : p.filesz.toNat ≤ p.memsz.toNat ∧ p.offset.toNat + p.filesz.toNat ≤ size.toNat)
    (hsep : Apart image size lo hi) (hf : ∀ j < size.toNat, w.mem (addr image j) = file j)
    (hp : post (.inl ()) { w with mem := putSegment file w.mem p }) :
    (copyPhdr image p ()).Meets (Transfer may) allowed (fun _ => True) post w := by
  have hhi := hi.isLt
  have hin : ∀ i < p.memsz.toNat, lo ≤ addr p.vaddr i ∧ addr p.vaddr i < hi := by
    intro i hi'
    rw [BitVec.le_def, BitVec.lt_def, addr, BitVec.toNat_add, BitVec.toNat_ofNat]
    omega
  have hrest : (p.memsz - p.filesz).toNat = p.memsz.toNat - p.filesz.toNat :=
    BitVec.toNat_sub_of_le (BitVec.le_def.mpr hfit.1)
  have hend : p.vaddr + p.filesz = p.vaddr + BitVec.ofNat 32 p.filesz.toNat := by
    rw [BitVec.ofNat_toNat, BitVec.setWidth_eq]
  have hput : blit (blit w.mem p.vaddr p.filesz.toNat fun j => w.mem (addr (image + p.offset) j))
      (p.vaddr + p.filesz) (p.memsz - p.filesz).toNat (fun _ => 0) = putSegment file w.mem p := by
    have hbytes : ∀ j < p.filesz.toNat, w.mem (addr (image + p.offset) j) =
        if j < p.filesz.toNat then file (p.offset.toNat + j) else 0 := by
      intro j hj
      rw [if_pos hj, addr_offset, hf _ (by omega)]
    rw [blit_congr hbytes, hend, hrest, blit_append _ _ (by omega), putSegment, Nat.add_sub_cancel' hfit.1]
    intro j _
    rw [if_neg (by omega)]
  rw [copyPhdr, hl]
  refine Prog.Meets.bind (meets_memcpy (by omega) (fun _ _ => trivial)
    (fun i hi' => by rw [addr_offset]; exact ha _ (by omega))
      (fun i hi' b => hs _ b (hin i (by omega)).1 (hin i (by omega)).2) (fun i hi' => ?_) ?_)
  · -- a byte of the image is not in the window, the segment is
    have hout := hsep (p.offset.toNat + i) (by omega)
    rw [← addr_offset, BitVec.lt_def, BitVec.le_def] at hout
    by_contra hlt
    have hcov : p.Covers (addr (image + p.offset) i) := lt_of_lt_of_le (not_le.mp hlt) hfit.1
    rw [covers_iff (by omega)] at hcov
    omega
  · refine Prog.Meets.bind (meets_memcpyTo (by omega) (fun _ _ => trivial) (fun i hi' => ?_) ?_)
    · rw [hend, addr_add]
      exact hs _ _ (hin _ (by omega)).1 (hin _ (by omega)).2
    · rw [hput]
      exact ⟨trivial, hp⟩

lemma meets_copyPhdrs {post : Unit → World → Prop} (hv : Valid w.mem image size) (hsep : Apart image size lo hi)
    (hwin : InWindow lo hi (phdrsOf w.mem image))
    (hp : post () { w with mem := loaded (fileOf w.mem image) w.mem (phdrsOf w.mem image) }) :
    (forPhdrs image (image + phoffOf w.mem image) (fun _ => ()) (copyPhdr image) ()).Meets (Transfer may)
      allowed (fun _ => True) post w := by
  have hkeep : ∀ i ≤ phnumOf w.mem image, ∀ j < size.toNat, loaded (fileOf w.mem image) w.mem
      ((List.range i).map (phdrAt w.mem (image + phoffOf w.mem image))) (addr image j) =
      w.mem (addr image j) := by
    intro i hi' j hj
    refine InWindow.loaded_outside (fun p hp => hwin p ?_) (hsep j hj)
    obtain ⟨k, hk, rfl⟩ := List.mem_map.mp hp
    exact phdrAt_mem (lt_of_lt_of_le (List.mem_range.mp hk) hi')
  have hsize := hv.header
  rw [ehdrSize] at hsize
  refine meets_forPhdrs (image_field ha (by omega)) (image_phdr ha hv.table) (fun i _ t => i ≤ phnumOf w.mem image ∧
      t = { w with
        mem := loaded (fileOf w.mem image) w.mem
          ((List.range i).map (phdrAt w.mem (image + phoffOf w.mem image))) })
    ?_ ?_ ?_ ⟨Nat.zero_le _, rfl⟩
  · rintro i x t ⟨hi', rfl⟩
    refine ⟨halfAt_congr (hkeep i hi') (by omega), fun hlt => ?_⟩
    refine phdrAt_congr (hkeep i hi') (le_trans ?_ hv.table)
    exact Nat.add_le_add_left (Nat.mul_le_mul_right _ hlt) _
  · rintro i x t hlt ⟨hi', rfl⟩
    cases hl : (phdrAt w.mem (image + phoffOf w.mem image) i).loads
    · rw [copyPhdr, hl]
      refine ⟨trivial, hlt, ?_⟩
      rw [loaded_range_succ, hl]
      rfl
    · have hty : (phdrAt w.mem (image + phoffOf w.mem image) i).type = ptLoad := (of_decide_eq_true hl).1
      refine meets_copyPhdr ha hs hl (hwin _ (phdrAt_mem hlt) hl) (hv.segment _ (phdrAt_mem hlt) hty) hsep
        (hkeep i hi') ⟨hlt, ?_⟩
      rw [loaded_range_succ, hl]
      rfl
  · rintro x t ⟨_, rfl⟩
    exact hp

lemma meets_loadValidated {post : ℤ × Option Word → World → Prop} (hv : Valid w.mem image size)
    (hsep : Apart image size lo hi)
    (hok : InWindow lo hi (phdrsOf w.mem image) → lo ≤ elfEntry w.mem image → elfEntry w.mem image < hi →
      post (0, some (elfEntry w.mem image))
        { w with mem := loaded (fileOf w.mem image) w.mem (phdrsOf w.mem image) })
    (hseg : ¬ InWindow lo hi (phdrsOf w.mem image) → post (-2, none) w)
    (hent : ¬ (lo ≤ elfEntry w.mem image ∧ elfEntry w.mem image < hi) → post (-3, none) w) :
    (loadValidated image lo hi).Meets (Transfer may) allowed (fun _ => True) post w := by
  have hsize := hv.header
  rw [ehdrSize] at hsize
  refine Prog.Meets.bind (meets_load32 (image_field ha (by omega)) ?_)
  refine Prog.Meets.bind (meets_checkPhdrs ha hv (fun hwin => ?_) fun hwin => ?_)
  · refine Prog.Meets.bind (meets_load32 (image_field ha (by omega)) ?_)
    split
    · rename_i hout
      refine ⟨trivial, hent fun hin => ?_⟩
      rcases hout with hout | hout
      · exact absurd hin.1 (BitVec.not_le.mpr hout)
      · exact absurd hin.2 (BitVec.not_lt.mpr hout)
    · rename_i hin
      rw [not_or, BitVec.not_lt, BitVec.not_le] at hin
      refine Prog.Meets.bind (meets_copyPhdrs ha hs hv hsep hwin (Prog.Meets.bind
        (meets_load32 (image_field ha (by omega)) ⟨trivial, ?_⟩)))
      have hread : elfEntry (loaded (fileOf w.mem image) w.mem (phdrsOf w.mem image)) image =
          elfEntry w.mem image :=
        word32_congr (fun j hj => hwin.loaded_outside (hsep j hj)) (by omega)
      change post (0, some (elfEntry (loaded _ _ _) image)) _
      rw [hread]
      exact hok hwin hin.1 hin.2
  · exact ⟨trivial, hseg hwin⟩

lemma meets_elfLoad {post : ℤ × Option Word → World → Prop} (hsep : Apart image size lo hi)
    (hok : Valid w.mem image size → InWindow lo hi (phdrsOf w.mem image) → lo ≤ elfEntry w.mem image →
      elfEntry w.mem image < hi → post (0, some (elfEntry w.mem image))
        { w with mem := loaded (fileOf w.mem image) w.mem (phdrsOf w.mem image) })
    (hbad : ∀ rc, rc ≠ 0 → post (rc, none) w) :
    (elfLoad image size lo hi).Meets (Transfer may) allowed (fun _ => True) post w := by
  refine Prog.Meets.bind (meets_elfValidate ha (fun st hst => ?_) fun hv => ?_)
  · rw [if_pos hst]
    exact ⟨trivial, hbad _ (by decide)⟩
  · rw [if_neg (not_not.mpr rfl)]
    exact meets_loadValidated ha hs hv hsep (hok hv) (fun _ => hbad _ (by decide)) fun _ => hbad _ (by decide)

end

lemma elfLoad_accepted {out : Option Word} {t : World} (hsep : Apart image size lo hi)
    (hrun : exec (elfLoad image size lo hi) w = some ((0, out), t)) :
    Valid w.mem image size ∧ InWindow lo hi (phdrsOf w.mem image) ∧ out = some (elfEntry w.mem image) ∧
      t = { w with mem := loaded (fileOf w.mem image) w.mem (phdrsOf w.mem image) } := by
  have hmeets : (elfLoad image size lo hi).Meets (Transfer fun _ => False) (fun _ => True) (fun _ => True)
      (fun r t => r.1 = 0 → Valid w.mem image size ∧ InWindow lo hi (phdrsOf w.mem image) ∧
        r.2 = some (elfEntry w.mem image) ∧
        t = { w with mem := loaded (fileOf w.mem image) w.mem (phdrsOf w.mem image) }) w :=
    meets_elfLoad (fun _ _ => trivial) (fun _ _ _ _ => trivial) hsep (fun hv hwin _ _ _ => ⟨hv, hwin, rfl, rfl⟩)
      fun rc hrc h => (hrc h).elim
  obtain ⟨r, u, hr, hpost⟩ := exec_of_meets hmeets
  obtain ⟨rfl, rfl⟩ := Prod.mk.inj (Option.some.inj (hrun.symm.trans hr))
  exact hpost rfl

theorem elf_load_exact (w : World) (image size lo hi : Word) (hsep : Apart image size lo hi) :
    ∃ st rc out t, exec (elfValidate image size) w = some (st, w) ∧
      exec (elfLoad image size lo hi) w = some ((rc, out), t) ∧
      (rc = 0 ↔ st = .ok ∧ InWindow lo hi (phdrsOf w.mem image) ∧
        lo ≤ elfEntry w.mem image ∧ elfEntry w.mem image < hi) ∧
      (rc = 0 → out = some (elfEntry w.mem image) ∧
        t = { w with mem := loaded (fileOf w.mem image) w.mem (phdrsOf w.mem image) } ∧
        (∀ x, (∀ p ∈ phdrsOf w.mem image, p.loads → ¬ p.Covers x) → t.mem x = w.mem x) ∧
        ∀ x, x < lo ∨ hi ≤ x → t.mem x = w.mem x) ∧
      (rc ≠ 0 → (rc = -1 ∨ rc = -2 ∨ rc = -3) ∧ out = none ∧ t = w) := by
  obtain ⟨st, hval, hok⟩ := exec_elfValidate w image size
  have hload : exec (elfLoad image size lo hi) w =
      exec (if st ≠ .ok then pure (-1, none) else loadValidated image lo hi) w := exec_bind hval
  by_cases hst : st = .ok
  · rw [if_neg (not_not.mpr hst)] at hload
    have hloads : (loadValidated image lo hi).Meets (Transfer fun _ => False) (fun _ => True) (fun _ => True)
        (fun r t =>
          (r.1 = 0 ↔ InWindow lo hi (phdrsOf w.mem image) ∧
            lo ≤ elfEntry w.mem image ∧ elfEntry w.mem image < hi) ∧
          (r.1 = 0 → r.2 = some (elfEntry w.mem image) ∧
            t = { w with mem := loaded (fileOf w.mem image) w.mem (phdrsOf w.mem image) }) ∧
          (r.1 ≠ 0 → (r.1 = -2 ∨ r.1 = -3) ∧ r.2 = none ∧ t = w)) w := by
      refine meets_loadValidated (fun _ _ => trivial) (fun _ _ _ _ => trivial) (hok hst) hsep
        (fun hwin h₁ h₂ => ?_) (fun hwin => ?_) fun hent => ?_
      · exact ⟨⟨fun _ => ⟨hwin, h₁, h₂⟩, fun _ => rfl⟩, fun _ => ⟨rfl, rfl⟩, fun h => (h rfl).elim⟩
      · exact ⟨⟨fun h => absurd h (by decide), fun h => (hwin h.1).elim⟩, fun h => absurd h (by decide),
          fun _ => ⟨.inl rfl, rfl, rfl⟩⟩
      · exact ⟨⟨fun h => absurd h (by decide), fun h => (hent h.2).elim⟩, fun h => absurd h (by decide),
          fun _ => ⟨.inr rfl, rfl, rfl⟩⟩
    obtain ⟨r, t, hrun, hiff, hzero, hfail⟩ := exec_of_meets hloads
    refine ⟨st, r.1, r.2, t, hval, hload.trans hrun, hiff.trans ⟨fun h => ⟨hst, h⟩, fun h => h.2⟩, fun h => ?_,
      fun h => ⟨.inr (hfail h).1, (hfail h).2⟩⟩
    obtain ⟨hout, rfl⟩ := hzero h
    exact ⟨hout, rfl, fun x hx => loaded_outside hx, fun x hx => (hiff.mp h).1.loaded_outside hx⟩
  · rw [if_pos hst] at hload
    exact ⟨st, -1, none, w, hval, hload, ⟨fun h => absurd h (by decide), fun h => (hst h.1).elim⟩,
      fun h => absurd h (by decide), fun _ => ⟨.inl rfl, rfl, rfl⟩⟩

def elfHead (entry : Word) (p : Phdr) : List Byte :=
  [0x7F, 0x45, 0x4C, 0x46, 1, 1] ++ List.replicate 10 0 ++ [2, 0, 3, 0] ++ List.replicate 4 0 ++ wordBytes entry ++
    wordBytes 52 ++ List.replicate 10 0 ++ [32, 0, 1, 0] ++ List.replicate 6 0 ++ wordBytes p.type ++
    wordBytes p.offset ++ wordBytes p.vaddr ++ wordBytes 0 ++ wordBytes p.filesz ++ wordBytes p.memsz ++
    wordBytes p.flags ++ wordBytes 0

def memWith (file : List Byte) (x : Word) : Byte := file.getD (x - 0x20000).toNat 0

def sampleElf : List Byte := elfHead 0x80000 ⟨ptLoad, 84, 0x80000, 4, 8, 5⟩ ++ [1, 2, 3, 4]

def elfWorld : World := ⟨memWith sampleElf, fun _ _ => 0, 0, 0⟩

lemma apart_of_le (h : image.toNat + size.toNat ≤ lo.toNat) : Apart image size lo hi := by
  intro j hj
  refine .inl ?_
  have := lo.isLt
  rw [BitVec.lt_def, addr, BitVec.toNat_add, BitVec.toNat_ofNat]
  omega

theorem elf_load_exact_sample : Apart 0x20000 88 0x80000 0xF0000 ∧
    ∃ t, exec (elfLoad 0x20000 88 0x80000 0xF0000) ⟨memWith sampleElf, fun _ _ => 0, 0, 0⟩ =
      some ((0, some 0x80000), t) ∧ t.mem 0x80003 = 4 ∧ t.mem 0x80007 = 0 := by
  have hsep : Apart 0x20000 88 0x80000 0xF0000 := apart_of_le (by decide)
  refine ⟨hsep, ?_⟩
  obtain ⟨st, rc, out, t, hval, hrun, hiff, hzero, _⟩ :=
    elf_load_exact ⟨memWith sampleElf, fun _ _ => 0, 0, 0⟩ 0x20000 88 0x80000 0xF0000 hsep
  have hrc : (exec (elfLoad 0x20000 88 0x80000 0xF0000) ⟨memWith sampleElf, fun _ _ => 0, 0, 0⟩).map (·.1) =
      some (0, some 0x80000) := by decide +kernel
  rw [hrun] at hrc
  obtain ⟨rfl, rfl⟩ := Prod.mk.inj (Option.some.inj hrc)
  obtain ⟨_, rfl, _⟩ := hzero rfl
  exact ⟨_, hrun, by decide +kernel, by decide +kernel⟩

end PyroOS
