import PyroOS.Launch.Exec

/-! What the functions on ELF images read: bytes of the image, whatever its contents. -/

namespace PyroOS

open Interaction Kernel

def elfStatusName : ElfStatus → List Byte
  | .ok => ascii "ok"
  | .badMagic => ascii "not an ELF file"
  | .badClass => ascii "not 32-bit little-endian"
  | .badType => ascii "not an executable"
  | .badMachine => ascii "wrong architecture"
  | .badHeaders => ascii "headers point outside the file"
  | .noSegments => ascii "nothing to load"

def pfX : Word := 0x1

def bssMessage (p : Phdr) : List Byte :=
  if p.filesz < p.memsz then ascii "  (bss " ++ decText (p.memsz - p.filesz) ++ ascii " bytes)" else []

def phdrMessage (p : Phdr) : List Byte :=
  ascii "  load " ++ hexText p.vaddr ++ ascii " file " ++ decText p.filesz ++ ascii " mem " ++ decText p.memsz ++
    (if p.flags &&& pfW ≠ 0 then ascii " rw" else ascii " r-") ++
    (if p.flags &&& pfX ≠ 0 then ascii "x" else ascii "-") ++ bssMessage p ++ ascii "\n"

def dumpPhdr (p : Phdr) (scr : Screen) : Kernel (Screen ⊕ Screen) :=
  if p.type ≠ ptLoad then pure (.inl scr)
  else do
    let scr ← kprintText (phdrMessage p) scr
    pure (.inl scr)

def elfDump (image size : Word) (scr : Screen) : Kernel Screen := do
  let st ← elfValidate image size
  let scr ← kprintText (ascii "  validation: " ++ elfStatusName st ++ ascii "\n") scr
  if st ≠ .ok then pure scr
  else do
    let entry ← readEntry image
    let scr ← kprintText (ascii "  entry point: " ++ hexText entry ++ ascii ", ") scr
    let phnum ← readPhnum image
    let scr ← kprintText (decText (BitVec.ofNat 32 phnum) ++ ascii " program headers\n") scr
    let phoff ← readPhoff image
    forPhdrs image (image + phoff) id dumpPhdr scr

/-! ### Rules -/

def OffScreen (image size : Word) : Prop := ∀ j < size.toNat, ¬ InVideo (addr image j)

variable {may allowed : Req → Prop} {w : World} {image size lo hi : Word} {scr : Screen}

def Printed (w t : World) : Prop := ∀ a, ¬ InVideo a → t.mem a = w.mem a

lemma Printed.setMem {t : World} {a : Word} {b : Byte} (h : Printed w t) (ha : InVideo a) : Printed w (t.setMem a b) := by
  intro x hx
  have hne : x ≠ a := fun he => hx (he ▸ ha)
  rw [World.setMem_mem, Function.update_of_ne hne]
  exact h x hx

section

variable (hr : ∀ a, InVideo a → allowed (.peek a)) (hw : ∀ a b, InVideo a → allowed (.poke a b))
include hr hw

lemma meets_printed {text : List Byte} {post : Screen → World → Prop} {w₀ : World} (h : Printed w₀ w)
    (hp : ∀ scr' t, Printed w₀ t → post scr' t) :
    (kprintText text scr).Meets (Transfer may) allowed (fun _ => True) post w :=
  meets_kprintText (Printed w₀) (fun _ _ _ ht ha => ht.setMem ha) hr hw h hp

variable (ha : ∀ j < size.toNat, allowed (.load (addr image j)))
include ha

lemma meets_dumpPhdrs (hv : Valid w.mem image size) (hoff : OffScreen image size) :
    (forPhdrs image (image + phoffOf w.mem image) id dumpPhdr scr).Meets (Transfer may) allowed (fun _ => True)
      (fun _ _ => True) w := by
  have hsize := hv.header
  rw [ehdrSize] at hsize
  have hkeep : ∀ t, Printed w t → ∀ j < size.toNat, t.mem (addr image j) = w.mem (addr image j) :=
    fun t ht j hj => ht _ (hoff j hj)
  refine meets_forPhdrs (image_field ha (by omega)) (image_phdr ha hv.table) (fun _ _ t => Printed w t) ?_ ?_
    (fun _ _ _ => trivial) fun _ _ => rfl
  · intro i _ t ht
    refine ⟨halfAt_congr (hkeep t ht) (by omega), fun hlt => ?_⟩
    refine phdrAt_congr (hkeep t ht) (le_trans ?_ hv.table)
    exact Nat.add_le_add_left (Nat.mul_le_mul_right _ hlt) _
  · intro i _ t _ ht
    rw [dumpPhdr]
    split
    · exact ⟨trivial, ht⟩
    · exact Prog.Meets.bind (meets_printed hr hw ht fun _ _ hu => ⟨trivial, hu⟩)

lemma meets_elfDump (hoff : OffScreen image size) :
    (elfDump image size scr).Meets (Transfer may) allowed (fun _ => True) (fun _ _ => True) w := by
  have hstart : Printed w w := fun _ _ => rfl
  refine Prog.Meets.bind (meets_elfValidate ha (fun st hst => ?_) fun hv => ?_)
  · refine Prog.Meets.bind (meets_printed hr hw hstart fun _ _ _ => ?_)
    rw [if_pos hst]
    exact ⟨trivial, trivial⟩
  · have hsize := hv.header
    rw [ehdrSize] at hsize
    refine Prog.Meets.bind (meets_printed hr hw hstart fun _ _ _ => ?_)
    rw [if_neg (not_not.mpr rfl)]
    refine Prog.Meets.bind (meets_load32 (image_field ha (by omega)) ?_)
    refine Prog.Meets.bind (meets_printed hr hw ‹_› fun _ _ _ => ?_)
    refine Prog.Meets.bind (meets_load16 (image_field ha (by omega)) ?_)
    refine Prog.Meets.bind (meets_printed hr hw ‹_› fun _ t ht => ?_)
    refine Prog.Meets.bind (meets_load32 (image_field ha (by omega)) ?_)
    exact meets_dumpPhdrs hr hw ha (hv.congr fun j hj => ht _ (hoff j hj)) hoff

end

/-! ### Reads -/

structure StaysInside {E σ α : Type} {Reply : E → Type} (image size : Word) (load : Word → E)
    (step : σ → (e : E) → Reply e → σ → Prop) (p : Prog E Reply α) (s : σ) : Prop where
  reads : ∀ a, p.Asks step s (load a) → ∃ j < size.toNat, a = addr image j
  ends : p.Terminates step s

def Inside {E : Type} (image size : Word) (load : Word → E) (e : E) : Prop :=
  ∀ a, e = load a → ∃ j < size.toNat, a = addr image j

lemma staysInside_of_meets {E σ α : Type} {Reply : E → Type} {load : Word → E}
    {step : σ → (e : E) → Reply e → σ → Prop} {p : Prog E Reply α} {s : σ}
    (h : p.Meets step (Inside image size load) (fun _ => True) (fun _ _ => True) s) :
      StaysInside image size load step p s :=
  ⟨fun a ha => h.asks ha a rfl, h.terminates⟩

lemma inside_load {j : ℕ} (hj : j < size.toNat) : Inside image size Req.load (.load (addr image j)) := by
  rintro a ⟨⟩
  exact ⟨j, hj, rfl⟩

lemma inside_kernel {e : Req} (h : Inside image size Req.load e) :
    Inside image size (fun a => .kernel (.load a)) (LaunchReq.kernel e) := by
  rintro a ⟨⟩
  exact h a rfl

lemma elfProtect_staysInside {table : ℕ → Word} (hv : Valid w.mem image size) :
    StaysInside image size (fun a => LaunchReq.kernel (.load a)) (LaunchStep Req.written may) (elfProtect image)
      ⟨w, table⟩ := by
  have hsize := hv.header
  rw [ehdrSize] at hsize
  have ha : ∀ j < size.toNat, Inside image size Req.load (.load (addr image j)) := fun j hj => inside_load hj
  refine staysInside_of_meets (meets_elfProtect (fun _ => rfl)
    (fun j hj => inside_kernel (image_field ha (m := 4) (by omega) j hj))
    (fun j hj => inside_kernel (image_field ha (m := 2) (by omega) j hj))
    (fun i hi j hj => inside_kernel (image_phdr ha hv.table i hi j hj)) (fun _ _ h => by cases h)
      (fun _ _ _ h => by cases h) trivial)

lemma valid_of_exec {t : World} (h : exec (elfValidate image size) w = some (.ok, t)) : Valid w.mem image size := by
  obtain ⟨st, hrun, hok⟩ := exec_elfValidate w image size
  rw [h] at hrun
  exact hok (congrArg Prod.fst (Option.some.inj hrun)).symm

theorem elf_reads_inside (may : Req → Prop) (w : World) (image size : Word) :
    StaysInside image size Req.load (Transfer may) (elfValidate image size) w ∧
    (exec (elfValidate image size) w = some (.ok, w) →
      (∀ lo hi, Apart image size lo hi →
        StaysInside image size Req.load (Transfer may) (elfLoad image size lo hi) w) ∧
      (OffScreen image size → ∀ scr,
        StaysInside image size Req.load (Transfer may) (elfDump image size scr) w) ∧
      ∀ table, StaysInside image size (fun a => LaunchReq.kernel (.load a)) (LaunchStep Req.written may)
        (elfProtect image) ⟨w, table⟩) := by
  have ha : ∀ j < size.toNat, Inside image size Req.load (.load (addr image j)) := fun j hj => inside_load hj
  refine ⟨staysInside_of_meets
    (meets_elfValidate ha (fun _ _ => trivial) fun _ => trivial), fun hok => ⟨fun lo hi hsep => ?_, fun hoff scr => ?_,
      fun table => ?_⟩⟩
  · exact staysInside_of_meets (meets_elfLoad ha (fun _ _ _ _ _ => nofun) hsep
      (fun _ _ _ _ => trivial) fun _ _ => trivial)
  · exact staysInside_of_meets (meets_elfDump (fun _ _ _ => nofun) (fun _ _ _ _ => nofun) ha hoff)
  · exact elfProtect_staysInside (valid_of_exec hok)

lemma sample_offScreen : OffScreen 0x20000 88 := by
  intro j hj hin
  have hj' : j < 88 := hj
  rw [InVideo, addr, BitVec.toNat_add, BitVec.toNat_ofNat, show (0x20000 : Word).toNat = 0x20000 from rfl] at hin
  omega

theorem elf_reads_inside_sample : exec (elfValidate 0x20000 88) elfWorld = some (.ok, elfWorld) ∧
    (∀ a, (elfLoad 0x20000 88 0x80000 0xF0000).Asks (Transfer fun _ => False) elfWorld (.load a) →
      ∃ j < 88, a = addr 0x20000 j) ∧
    (∀ scr a, (elfDump 0x20000 88 scr).Asks (Transfer fun _ => False) elfWorld (.load a) →
      ∃ j < 88, a = addr 0x20000 j) := by
  have hok : exec (elfValidate 0x20000 88) elfWorld = some (.ok, elfWorld) := by
    have hst : (exec (elfValidate 0x20000 88) elfWorld).map (·.1) = some .ok := by decide +kernel
    obtain ⟨st, hval, _⟩ := exec_elfValidate elfWorld 0x20000 88
    rw [hval] at hst ⊢
    rw [show st = .ok from Option.some.inj hst]
  obtain ⟨hload, hdump, _⟩ := (elf_reads_inside (fun _ => False) elfWorld 0x20000 88).2 hok
  exact ⟨hok, (hload 0x80000 0xF0000 (apart_of_le (by decide))).reads, fun scr => (hdump sample_offScreen scr).reads⟩

end PyroOS
