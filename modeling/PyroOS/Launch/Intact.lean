import PyroOS.Launch.Exec

/-! What is left of an image when its program starts. -/

namespace PyroOS

open Interaction Kernel

def Phdr.byteAt (file : ℕ → Byte) (p : Phdr) (x : Word) : Byte :=
  if (x - p.vaddr).toNat < p.filesz.toNat then file (p.offset.toNat + (x - p.vaddr).toNat) else 0

def Covered (ps : List Phdr) (x : Word) : Prop := ∃ p ∈ ps, p.loads ∧ p.Covers x

def SegmentsDisjoint (ps : List Phdr) : Prop :=
  ps.Pairwise fun p q => p.loads → q.loads → ∀ x, p.Covers x → ¬ q.Covers x

def InArgs (tail : List Byte) (x : Word) : Prop :=
  (x - argStack (argsOf tail) userStackTop).toNat < (argBlock (argsOf tail) userStackTop).length

def withArgs (tail : List Byte) (mem : Word → Byte) : Word → Byte :=
  put mem (argStack (argsOf tail) userStackTop) (argBlock (argsOf tail) userStackTop)

def InHeap (x : Word) : Prop := userHeapBase ≤ x ∧ x < userHeapEnd

def Accepted (b : Buffers) (size : Word) (w : World) : Prop :=
  ∃ out t, exec (elfLoad b.img size userLoadAddr userStackTop) w = some ((0, out), t)

/-- The launch writes nothing to the screen or the stack that belongs to a segment, every segment is as in
the file when ring 3 is entered, and the heap is apart from them. -/
structure ImageIntact (b : Buffers) (size : Word) (tail : List Byte) (upid : ℤ) (scr : Screen) (s : LaunchState) :
    Prop where
  bytes : ∀ entry esp scr' t, (prepareElf b.img size tail upid scr).Reaches (LaunchStep Req.written fun _ => False) s
    (pure (some (entry, esp), scr')) t → ∀ p ∈ phdrsOf s.world.mem b.img, p.loads → ∀ x, p.Covers x →
    t.world.mem x = p.byteAt (fileOf s.world.mem b.img) x
  block : ∀ x, InArgs tail x → ¬ Covered (phdrsOf s.world.mem b.img) x
  screen : ∀ a x next t, (prepareElf b.img size tail upid scr).Reaches (LaunchStep Req.written fun _ => False) s
    (.ask (.kernel (.poke a x)) next) t → ¬ Covered (phdrsOf s.world.mem b.img) a
  heap : ∀ x, InHeap x → ¬ Covered (phdrsOf s.world.mem b.img) x

variable {b : Buffers} {size entry : Word} {tail : List Byte} {upid : ℤ} {scr : Screen} {w : World}
  {table : ℕ → Word} {ps : List Phdr} {p : Phdr} {file : ℕ → Byte} {mem : Word → Byte} {x : Word}

lemma loaded_covers (hd : SegmentsDisjoint ps) (hp : p ∈ ps) (hl : p.loads) (hx : p.Covers x) :
    loaded file mem ps x = p.byteAt file x := by
  induction ps using List.reverseRecOn with
  | nil => cases hp
  | append_singleton ps q ih =>
    obtain ⟨hps, _, hcross⟩ := List.pairwise_append.mp hd
    rw [loaded_concat]
    rcases List.mem_append.mp hp with hp | hp
    · have hout : q.loads → ¬ q.Covers x := fun hq => hcross p hp q List.mem_cons_self hl hq x hx
      split
      · rename_i hq
        rw [putSegment_outside (hout hq), ih hps hp]
      · exact ih hps hp
    · obtain rfl := List.mem_singleton.mp hp
      rw [if_pos hl]
      exact if_pos hx

lemma zone_writable {a : Word} (h : 0x80000 ≤ a.toNat ∧ a.toNat < 0x100000) : Writable (tableReset table) a := by
  have h₁ : (zoneFirst userZoneStart).toNat = 0x80000 := by decide
  have h₂ : (zoneLast userZoneStart (userZoneEnd - userZoneStart)).toNat = 0x100000 := by decide
  refine ⟨by omega, ?_⟩
  rw [tableReset, tableSet, h₁, h₂, if_pos (by omega)]
  exact isWritable_withWritable true _

lemma Accepted.spec (h : Accepted b size w) (hsize : size.toNat ≤ imgSize.toNat) :
    Valid w.mem b.img size ∧ InWindow userLoadAddr userStackTop (phdrsOf w.mem b.img) ∧
      exec (elfLoad b.img size userLoadAddr userStackTop) w = some ((0, some (elfEntry w.mem b.img)),
        { w with mem := loaded (fileOf w.mem b.img) w.mem (phdrsOf w.mem b.img) }) := by
  obtain ⟨out, t, hrun⟩ := h
  have himg := b.img_le
  have hstart : userLoadAddr.toNat = 0x80000 := rfl
  obtain ⟨hv, hwin, rfl, rfl⟩ := elfLoad_accepted (apart_of_le (by omega)) hrun
  exact ⟨hv, hwin, hrun⟩

def ZoneRam (x : Word) : Prop := (0x80000 ≤ x.toNat ∧ x.toNat < 0x100000) ∧ ¬ InVideo x

def Asked : LaunchReq → Prop
  | .kernel (.poke a _) => InVideo a
  | .kernel (.load a) | .kernel (.peek a) => ¬ ZoneRam a
  | .enterUser _ _ _ => False
  | _ => True

def InZone : Req → Prop
  | .store a _ => 0x80000 ≤ a.toNat ∧ a.toNat < 0x100000
  | .poke a _ => InVideo a
  | .load a | .peek a => ¬ ZoneRam a
  | _ => True

lemma meets_lift_zone {α : Type} {q : Kernel α} {post : α → LaunchState → Prop}
    (h : q.Meets (Transfer fun _ => False) InZone (fun _ => True) (fun x t => post x ⟨t, tableReset table⟩) w) :
    (lift q).Meets (LaunchStep Req.written fun _ => False) Asked (fun _ => True) post ⟨w, tableReset table⟩ := by
  refine meets_lift h (fun e he a ha => zone_writable ?_) fun e he => ?_
  · cases e with
    | store c y =>
      obtain rfl := Option.some.inj ha
      exact he
    | poke c y =>
      obtain rfl := Option.some.inj ha
      have hv : 0xB8000 ≤ c.toNat ∧ c.toNat < 0xB8000 + 2 * 2000 := he
      omega
    | _ => cases ha
  · cases e with
    | poke _ _ | load _ | peek _ => exact he
    | _ => trivial

lemma not_zoneRam {i m : ℕ} {q : Word} (hi : i < m) (h : q.toNat + m ≤ 0x80000) : ¬ ZoneRam (addr q i) := by
  rintro ⟨⟨hlo, _⟩, _⟩
  rw [addr, BitVec.toNat_add, BitVec.toNat_ofNat] at hlo
  omega

lemma meets_loadAccepted (h : Accepted b size w) (hsize : size.toNat ≤ imgSize.toNat)
    {post : ℤ × Option Word → LaunchState → Prop}
    (hp : post (0, some (elfEntry w.mem b.img))
      ⟨{ w with mem := loaded (fileOf w.mem b.img) w.mem (phdrsOf w.mem b.img) }, tableReset table⟩) :
    (lift (elfLoad b.img size userLoadAddr userStackTop)).Meets (LaunchStep Req.written fun _ => False) Asked
      (fun _ => True) post ⟨w, tableReset table⟩ := by
  obtain ⟨_, _, hrun⟩ := h.spec hsize
  have himg := b.img_le
  have hlo : userLoadAddr.toNat = 0x80000 := rfl
  have hhi : userStackTop.toNat = 0xF0000 := rfl
  have hmeets : (elfLoad b.img size userLoadAddr userStackTop).Meets (Transfer fun _ => False) InZone
      (fun _ => True) (fun _ _ => True) w := by
    refine meets_elfLoad (fun j hj => not_zoneRam hj (by omega)) (fun a _ h₁ h₂ => ?_) (apart_of_le (by omega))
      (fun _ _ _ _ => trivial) fun _ _ => trivial
    rw [BitVec.le_def, hlo] at h₁
    rw [BitVec.lt_def, hhi] at h₂
    exact ⟨h₁, by omega⟩
  refine meets_lift_zone ((meets_exact hmeets hrun).mono fun r t _ hr => ?_)
  obtain ⟨rfl, rfl⟩ := hr
  exact hp

lemma inArgs_range (h : InArgs tail x) : 0xEF000 ≤ x.toNat ∧ x.toNat < 0xF0000 := by
  have hplace := argStack_userStackTop tail
  have hlen : (argBlock (argsOf tail) userStackTop).length =
      4 * ((argsOf tail).length + 4) + (argText (argsOf tail)).length := argBlock_length
  have hfits := argsOf_fits tail
  rw [InArgs, sub_lt_iff (by omega)] at h
  omega

lemma meets_message {text : List Byte} {post : Screen → LaunchState → Prop}
    (hp : ∀ scr' t, (∀ x, ¬ InVideo x → t.mem x = w.mem x) → post scr' ⟨t, tableReset table⟩) :
    (lift (kprintText text scr)).Meets (LaunchStep Req.written fun _ => False) Asked (fun _ => True) post
      ⟨w, tableReset table⟩ := by
  refine meets_lift_zone (meets_kprintText (fun t => ∀ x, ¬ InVideo x → t.mem x = w.mem x)
    (fun t a y ht ha x hx => ?_) (fun _ ha h => h.2 ha) (fun _ _ ha => ha) (fun _ _ => rfl) hp)
  rw [World.setMem_mem, Function.update_of_ne]
  · exact ht x hx
  · rintro rfl
    exact hx ha

lemma meets_block {post : Word → LaunchState → Prop} (hlen : tail.length < lineMax)
    (hp : post (argStack (argsOf tail) userStackTop) ⟨{ w with mem := withArgs tail w.mem }, tableReset table⟩) :
    (lift (argsFor tail)).Meets (LaunchStep Req.written fun _ => False) Asked (fun _ => True) post
      ⟨w, tableReset table⟩ := by
  have hplace := argStack_userStackTop tail
  have hblock : (argBlock (argsOf tail) userStackTop).length =
      4 * ((argsOf tail).length + 4) + (argText (argsOf tail)).length := argBlock_length
  have hfits := argsOf_fits tail
  refine meets_lift_zone (meets_argsFor hlen (fun i hi y => ?_) hp)
  change 0x80000 ≤ (addr _ i).toNat ∧ (addr _ i).toNat < 0x100000
  rw [addr, BitVec.toNat_add, BitVec.toNat_ofNat]
  omega

lemma meets_startElf_zone (hsize : size.toNat ≤ imgSize.toNat) (hlen : tail.length < lineMax)
    (hv : Valid w.mem b.img size) :
    (startElf b.img tail upid entry scr).Meets (LaunchStep Req.written fun _ => False) Asked (fun _ => True)
      (fun r t => (∃ scr', r = (some (entry, argStack (argsOf tail) userStackTop), scr')) ∧
        (∀ x, ¬ InVideo x → t.world.mem x = withArgs tail w.mem x) ∧
        t.table = tableProtect (phdrsOf w.mem b.img) (tableReset table)) ⟨w, tableReset table⟩ := by
  have himg := b.img_le
  refine Prog.Meets.bind (meets_message fun scr' t ht => Prog.Meets.bind (meets_block hlen ?_))
  have hmem : ∀ x, ¬ InVideo x → withArgs tail t.mem x = withArgs tail w.mem x := fun x hx => by
    rw [withArgs, withArgs, put, put, blit, blit, ht x hx]
  -- the image is still where it was
  have hkeep : ∀ j < size.toNat, withArgs tail t.mem (addr b.img j) = w.mem (addr b.img j) := by
    intro j hj
    have hlow : (addr b.img j).toNat < 0x80000 := addr_lt (by omega) (by omega)
    rw [hmem _ fun hx => absurd hx.1 (by omega), withArgs, put_outside]
    exact not_lt.mp fun hx => by
      have := inArgs_range hx
      omega
  have hv' : Valid (withArgs tail t.mem) b.img size := hv.congr hkeep
  have hread : ∀ j < size.toNat, Asked (.kernel (.load (addr b.img j))) := fun j hj => not_zoneRam hj (by omega)
  have hhead := hv'.header
  rw [ehdrSize] at hhead
  refine Prog.Meets.bind (meets_elfProtect (fun _ => rfl) ?_ ?_ ?_ (fun _ => trivial) (fun _ _ => trivial)
    ⟨trivial, ⟨scr', rfl⟩, hmem, by rw [phdrsOf_congr hv hkeep]⟩)
  · exact @image_field (fun e => Asked (.kernel e)) _ _ hread _ _ (by omega)
  · exact @image_field (fun e => Asked (.kernel e)) _ _ hread _ _ (by omega)
  · exact @image_phdr (fun e => Asked (.kernel e)) _ _ hread _ _ hv'.table

lemma meets_prepareElf_zone (h : Accepted b size w) (hsize : size.toNat ≤ imgSize.toNat)
    (hlen : tail.length < lineMax) :
    (prepareElf b.img size tail upid scr).Meets (LaunchStep Req.written fun _ => False) Asked (fun _ => True)
      (fun r t => (∃ scr', r = (some (elfEntry w.mem b.img, argStack (argsOf tail) userStackTop), scr')) ∧
        (∀ x, ¬ InVideo x → t.world.mem x =
          withArgs tail (loaded (fileOf w.mem b.img) w.mem (phdrsOf w.mem b.img)) x) ∧
        t.table = tableProtect (phdrsOf w.mem b.img) (tableReset table)) ⟨w, table⟩ := by
  obtain ⟨hv, hwin, _⟩ := h.spec hsize
  have himg := b.img_le
  have hkeep : ∀ j < size.toNat, loaded (fileOf w.mem b.img) w.mem (phdrsOf w.mem b.img) (addr b.img j) =
      w.mem (addr b.img j) := fun j hj =>
    hwin.loaded_outside (apart_of_le (by rw [show userLoadAddr.toNat = 0x80000 from rfl]; omega) j hj)
  refine Prog.Meets.bind (meets_pagingSetUserWritable (fun _ => trivial) (fun _ _ => trivial) (Prog.Meets.bind
    (meets_loadAccepted h hsize ((meets_startElf_zone hsize hlen (hv.congr hkeep)).mono fun r t _ ht => ?_))))
  obtain ⟨hr, hmem, htable⟩ := ht
  exact ⟨hr, hmem, htable.trans (congrArg (tableProtect · (tableReset table)) (phdrsOf_congr hv hkeep))⟩

lemma elfMessage_cons (name : List Byte) (upid : ℤ) (entry : Word) :
    ∃ rest, elfMessage name upid entry = 0x20 :: rest := by
  have h : ascii "  loaded " = 0x20 :: ascii " loaded " := by decide +kernel
  rw [elfMessage, h]
  exact ⟨_, rfl⟩

lemma reaches_message (h : Accepted b size w) (hsize : size.toNat ≤ imgSize.toNat) (hx : InVideo x)
    (hc : scr.cursor = (x.toNat - 0xB8000) / 2) :
    ∃ y next t, (prepareElf b.img size tail upid scr).Reaches (LaunchStep Req.written fun _ => False) ⟨w, table⟩
      (.ask (.kernel (.poke x y)) next) t := by
  have hreset : pagingResetUserZone.Meets (LaunchStep Req.written fun _ => False) (fun _ => True) (fun _ => True)
      (fun _ t => t = ⟨w, tableReset table⟩) ⟨w, table⟩ :=
    meets_pagingSetUserWritable (fun _ => trivial) (fun _ _ => trivial) rfl
  have hload : (lift (elfLoad b.img size userLoadAddr userStackTop)).Meets (LaunchStep Req.written fun _ => False)
      Asked (fun _ => True) (fun r t => r = (0, some (elfEntry w.mem b.img)) ∧ t.table = tableReset table)
      ⟨w, tableReset table⟩ := meets_loadAccepted h hsize ⟨rfl, rfl⟩
  obtain ⟨_, _, hr, rfl⟩ := hreset.returns
  obtain ⟨_, ⟨u, _⟩, hr', rfl, rfl⟩ := hload.returns
  suffices hstart : ∃ y next t, (startElf b.img tail upid (elfEntry w.mem b.img) scr).Reaches
      (LaunchStep Req.written fun _ => False) ⟨u, tableReset table⟩ (.ask (.kernel (.poke x y)) next) t by
    obtain ⟨y, next, t, hs⟩ := hstart
    exact ⟨y, next, t, hr.bind (hr'.bind hs)⟩
  obtain ⟨rest, hmsg⟩ := elfMessage_cons (nameOf tail) upid (elfEntry w.mem b.img)
  have hchar : ∀ scr : Screen, kprintChar scr 0x20 = (do
      putCell scr.cursor 0x20 scr.color
      scrollIfNeeded (scr.cursor + 1) scr.color) := fun scr => by
    rw [kprintChar, if_neg (by decide), if_neg (by decide)]
  have hx' : 0xB8000 ≤ x.toNat ∧ x.toNat < 0xB8000 + 2 * screenCells := hx
  rw [startElf, hmsg, kprintText, hchar]
  have hcell : ∀ j, x.toNat - 0xB8000 = scr.cursor * 2 + j → x = addr videoMemory (scr.cursor * 2 + j) := by
    intro j hj
    apply BitVec.eq_of_toNat_eq
    rw [addr, BitVec.toNat_add, BitVec.toNat_ofNat, show videoMemory.toNat = 0xB8000 from rfl, ← hj]
    omega
  rcases Nat.mod_two_eq_zero_or_one (x.toNat - 0xB8000) with hpar | hpar
  · rw [hcell 0 (by omega)]
    exact ⟨_, _, _, .here⟩
  · rw [hcell 1 (by omega)]
    refine ⟨_, _, _, .ask (.kernel (fun a ha => zone_writable ?_) (.done rfl)) .here⟩
    obtain rfl := Option.some.inj ha
    have hvid := inVideo_addr (show scr.cursor * 2 < 2 * screenCells by omega)
    have hin : 0xB8000 ≤ _ ∧ _ < 0xB8000 + 2 * 2000 := hvid
    omega

theorem image_intact_iff (b : Buffers) (size : Word) (tail : List Byte) (w₀ : World)
    (hsize : size.toNat ≤ imgSize.toNat) (hlen : tail.length < lineMax) (hacc : Accepted b size w₀)
    (hdisj : SegmentsDisjoint (phdrsOf w₀.mem b.img)) :
    (∀ w table upid scr, (∀ j < size.toNat, w.mem (addr b.img j) = w₀.mem (addr b.img j)) → Accepted b size w →
      ImageIntact b size tail upid scr ⟨w, table⟩) ↔
    ∀ x, InVideo x ∨ InArgs tail x ∨ InHeap x → ¬ Covered (phdrsOf w₀.mem b.img) x := by
  constructor
  · intro h x hx hcov
    rcases hx with hx | hx | hx
    · have hx' : 0xB8000 ≤ x.toNat ∧ x.toNat < 0xB8000 + 2 * screenCells := hx
      obtain ⟨scr, hscr⟩ : ∃ scr : Screen, scr.cursor = (x.toNat - 0xB8000) / 2 := ⟨⟨_, 0, by omega⟩, rfl⟩
      obtain ⟨y, next, t, hr⟩ := reaches_message hacc hsize hx hscr
      exact (h w₀ (fun _ => 0) 0 scr (fun _ _ => rfl) hacc).screen x y next t hr hcov
    · exact (h w₀ (fun _ => 0) 0 ⟨0, 0, by decide⟩ (fun _ _ => rfl) hacc).block x hx hcov
    · exact (h w₀ (fun _ => 0) 0 ⟨0, 0, by decide⟩ (fun _ _ => rfl) hacc).heap x hx hcov
  · intro hclear w table upid scr hsame haccw
    obtain ⟨hv, _, _⟩ := haccw.spec hsize
    have hps : phdrsOf w₀.mem b.img = phdrsOf w.mem b.img := phdrsOf_congr hv fun j hj => (hsame j hj).symm
    rw [hps] at hclear hdisj
    refine ⟨fun entry esp scr' t hr p hp hl x hx => ?_, fun x hx => hclear x (.inr (.inl hx)), ?_,
      fun x hx => hclear x (.inr (.inr hx))⟩
    · obtain ⟨_, hmem, _⟩ := (meets_prepareElf_zone haccw hsize hlen).result hr
      have hcov : Covered (phdrsOf w.mem b.img) x := ⟨p, hp, hl, hx⟩
      rw [hmem x fun hvid => hclear x (.inl hvid) hcov, withArgs, put_outside, loaded_covers hdisj hp hl hx]
      exact not_lt.mp fun hin => hclear x (.inr (.inl hin)) hcov
    · intro a y next t hr
      exact hclear a (.inl ((meets_prepareElf_zone haccw hsize hlen).reaches hr).2.1)

lemma phdrsOf_one {image : Word} (h : phnumOf mem image = 1) :
    phdrsOf mem image = [phdrAt mem (image + phoffOf mem image) 0] := by
  rw [phdrsOf, h]
  rfl

def oneSegment (vaddr memsz : Word) : World :=
  ⟨memWith (elfHead vaddr ⟨ptLoad, 84, vaddr, 4, memsz, 5⟩ ++ [1, 2, 3, 4]), fun _ _ => 0, 0, 0⟩

lemma accepted_of_eval (h : (exec (elfLoad b.img size userLoadAddr userStackTop) w).map (·.1.1) = some 0) :
    Accepted b size w := by
  obtain ⟨⟨⟨rc, out⟩, t⟩, hrun, rfl⟩ := Option.map_eq_some_iff.mp h
  exact ⟨out, t, hrun⟩

lemma segmentsDisjoint_one {image : Word} (h : phnumOf mem image = 1) : SegmentsDisjoint (phdrsOf mem image) := by
  rw [phdrsOf_one h]
  exact List.pairwise_singleton _ _

lemma covered_one {image : Word} (h : phnumOf mem image = 1) : Covered (phdrsOf mem image) x ↔
    (phdrAt mem (image + phoffOf mem image) 0).loads ∧ (phdrAt mem (image + phoffOf mem image) 0).Covers x := by
  rw [phdrsOf_one h, Covered]
  exact ⟨fun ⟨_, hp, h'⟩ => List.mem_singleton.mp hp ▸ h', fun h' => ⟨_, List.mem_cons_self, h'⟩⟩

theorem image_intact_small : Accepted sampleBuffers 88 (oneSegment 0x80000 8) ∧
    ImageIntact sampleBuffers 88 [0x61] 1 ⟨0, 0x0F, by decide⟩ ⟨oneSegment 0x80000 8, fun _ => 0⟩ := by
  have hacc : Accepted sampleBuffers 88 (oneSegment 0x80000 8) := accepted_of_eval (by decide +kernel)
  have hone : phnumOf (oneSegment 0x80000 8).mem sampleBuffers.img = 1 := by decide +kernel
  refine ⟨hacc, (image_intact_iff sampleBuffers 88 [0x61] (oneSegment 0x80000 8) (by decide) (by decide) hacc
    (segmentsDisjoint_one hone)).mpr (fun x hx hcov => ?_) _ _ _ _ (fun _ _ => rfl) hacc⟩
  have hc := ((covered_one hone).mp hcov).2
  have hv : (phdrAt (oneSegment 0x80000 8).mem (sampleBuffers.img + phoffOf (oneSegment 0x80000 8).mem
      sampleBuffers.img) 0).vaddr.toNat = 0x80000 := by decide +kernel
  have hm : (phdrAt (oneSegment 0x80000 8).mem (sampleBuffers.img + phoffOf (oneSegment 0x80000 8).mem
      sampleBuffers.img) 0).memsz.toNat = 8 := by decide +kernel
  rw [covers_iff (by omega), hv, hm] at hc
  rcases hx with hx | hx | hx
  · have hx' : 0xB8000 ≤ x.toNat ∧ _ := hx
    omega
  · have := inArgs_range hx
    omega
  · have hx' := hx.1
    rw [BitVec.le_def, show userHeapBase.toNat = 0x90000 from rfl] at hx'
    omega

theorem args_overwrite_image : Accepted sampleBuffers 88 (oneSegment 0xEF000 0x1000) ∧
    SegmentsDisjoint (phdrsOf (oneSegment 0xEF000 0x1000).mem sampleBuffers.img) ∧
    ∃ entry esp scr t, (prepareElf sampleBuffers.img 88 [0x61] 1 ⟨0, 0x0F, by decide⟩).Reaches
        (LaunchStep Req.written fun _ => False) ⟨oneSegment 0xEF000 0x1000, fun _ => 0⟩
        (pure (some (entry, esp), scr)) t ∧
      ∃ p ∈ phdrsOf (oneSegment 0xEF000 0x1000).mem sampleBuffers.img, p.loads ∧ p.Covers (addr esp 4) ∧
        t.world.mem (addr esp 4) = 1 ∧
          p.byteAt (fileOf (oneSegment 0xEF000 0x1000).mem sampleBuffers.img) (addr esp 4) = 0 := by
  have hacc : Accepted sampleBuffers 88 (oneSegment 0xEF000 0x1000) := accepted_of_eval (by decide +kernel)
  have hone : phnumOf (oneSegment 0xEF000 0x1000).mem sampleBuffers.img = 1 := by decide +kernel
  refine ⟨hacc, segmentsDisjoint_one hone, ?_⟩
  obtain ⟨r, t, hr, ⟨scr, rfl⟩, hmem, _⟩ :=
    (meets_prepareElf_zone hacc (by decide) (show [0x61].length < lineMax by decide)).returns
  refine ⟨_, _, _, _, hr, _, (phdrsOf_one hone ▸ List.mem_cons_self), by decide +kernel, by decide +kernel, ?_,
    by decide +kernel⟩
  rw [hmem _ (by decide +kernel)]
  decide +kernel

end PyroOS
