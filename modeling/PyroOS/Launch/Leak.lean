import PyroOS.Launch.Intact

/-! What a program can see of the programs before it. -/

namespace PyroOS

open Interaction Kernel

structure AgreeOutside (w w' : World) : Prop where
  mem : ∀ x, ¬ ZoneRam x → w.mem x = w'.mem x
  disk : w.disk = w'.disk
  clock : w.clock = w'.clock
  key : w.key = w'.key

def IsElf (b : Buffers) (size : Word) (w : World) : Prop := exec (elfValidate b.img size) w = some (.ok, w)

def Starts (b : Buffers) (size : Word) (w : World) : Prop := IsElf b size w → Accepted b size w

def SetByLaunch (b : Buffers) (size : Word) (tail : List Byte) (w : World) (x : Word) : Prop :=
  (IsElf b size w ∧ Covered (phdrsOf w.mem b.img) x) ∨
    (¬ IsElf b size w ∧ (x - userLoadAddr).toNat < size.toNat) ∨ InArgs tail x

def SameAtEntry (b : Buffers) (size : Word) (tail : List Byte) (upid : ℤ) (scr : Screen) (table : ℕ → Word)
    (w w' : World) (x : Word) : Prop :=
  ∀ r r' t t', (prepare b.img size tail upid scr).Reaches (LaunchStep Req.written fun _ => False) ⟨w, table⟩
    (pure r) t →
    (prepare b.img size tail upid scr).Reaches (LaunchStep Req.written fun _ => False) ⟨w', table⟩ (pure r') t' →
    t.world.mem x = t'.world.mem x

variable {b : Buffers} {size : Word} {tail : List Byte} {upid : ℤ} {scr : Screen} {w w' : World}
  {table : ℕ → Word} {ps : List Phdr} {file : ℕ → Byte} {mem mem' : Word → Byte} {x : Word}

/-! ### Two runs -/

lemma AgreeOutside.setMem (h : AgreeOutside w w') (a : Word) (y : Byte) :
    AgreeOutside (w.setMem a y) (w'.setMem a y) := by
  refine ⟨fun x hx => ?_, h.disk, h.clock, h.key⟩
  rw [World.setMem_mem, World.setMem_mem, Function.update_apply, Function.update_apply, h.mem x hx]

lemma AgreeOutside.transfer (h : AgreeOutside w w') {e : Req} {a a' : e.Reply} {t t' : World}
    (hl : ∀ x, e = .load x ∨ e = .peek x → ¬ ZoneRam x) (ht : Transfer (fun _ => False) w e a t)
    (ht' : Transfer (fun _ => False) w' e a' t') : a = a' ∧ AgreeOutside t t' := by
  rw [transfer_handled] at ht ht'
  cases e with
  | load x | peek x =>
    obtain ⟨rfl, rfl⟩ := Prod.mk.inj (Option.some.inj ht)
    obtain ⟨rfl, rfl⟩ := Prod.mk.inj (Option.some.inj ht')
    exact ⟨h.mem x (hl x (by simp)), h⟩
  | store x y | poke x y =>
    obtain ⟨rfl, rfl⟩ := Prod.mk.inj (Option.some.inj ht)
    obtain ⟨rfl, rfl⟩ := Prod.mk.inj (Option.some.inj ht')
    exact ⟨rfl, h.setMem x y⟩
  | ataRead lba =>
    obtain ⟨rfl, rfl⟩ := Prod.mk.inj (Option.some.inj ht)
    obtain ⟨rfl, rfl⟩ := Prod.mk.inj (Option.some.inj ht')
    exact ⟨by rw [h.disk], h⟩
  | ataWrite lba s =>
    obtain ⟨rfl, rfl⟩ := Prod.mk.inj (Option.some.inj ht)
    obtain ⟨rfl, rfl⟩ := Prod.mk.inj (Option.some.inj ht')
    exact ⟨rfl, h.mem, by rw [World.setSector_disk, World.setSector_disk, h.disk], h.clock, h.key⟩
  | ticks =>
    obtain ⟨rfl, rfl⟩ := Prod.mk.inj (Option.some.inj ht)
    obtain ⟨rfl, rfl⟩ := Prod.mk.inj (Option.some.inj ht')
    exact ⟨h.clock, h⟩
  | waitTicks target =>
    obtain ⟨rfl, rfl⟩ := Prod.mk.inj (Option.some.inj ht)
    obtain ⟨rfl, rfl⟩ := Prod.mk.inj (Option.some.inj ht')
    exact ⟨rfl, h.mem, h.disk, by dsimp only; rw [h.clock], h.key⟩
  | getchar =>
    obtain ⟨rfl, rfl⟩ := Prod.mk.inj (Option.some.inj ht)
    obtain ⟨rfl, rfl⟩ := Prod.mk.inj (Option.some.inj ht')
    exact ⟨h.key, h⟩
  | hang => cases ht

lemma launch_lockstep {s s' t t' : LaunchState} {e : LaunchReq} {a a' : e.Reply}
    (h : AgreeOutside s.world s'.world ∧ s.table = s'.table) (he : Asked e)
    (hs : LaunchStep Req.written (fun _ => False) s e a t) (hs' : LaunchStep Req.written (fun _ => False) s' e a' t') :
    a = a' ∧ AgreeOutside t.world t'.world ∧ t.table = t'.table := by
  cases hs with
  | kernel _ ht =>
    cases hs' with
    | kernel _ ht' =>
      obtain ⟨rfl, h'⟩ := h.1.transfer (by rintro x (rfl | rfl) <;> exact he) ht ht'
      exact ⟨rfl, h', h.2⟩
  | entry =>
    cases hs' with
    | entry => exact ⟨by rw [h.2], h⟩
  | setEntry =>
    cases hs' with
    | setEntry => exact ⟨rfl, h.1, by dsimp only at h ⊢; rw [h.2]⟩
  | enterUser _ => exact he.elim

lemma exec_agree {α : Type} {p : Kernel α} {a a' : α} {t t' : World} (h : AgreeOutside w w')
    (hm : p.Meets (Transfer fun _ => False) InZone (fun _ => True) (fun _ _ => True) w)
    (hr : exec p w = some (a, t)) (hr' : exec p w' = some (a', t')) : a = a' := by
  rw [transfer_handled] at hm
  refine (hm.lockstep (R := AgreeOutside) (fun s s' e a t a' t' hR he hs hs' => ?_) h (Prog.reaches_of_run hr)
    (Prog.reaches_of_run hr')).1
  rw [← transfer_handled] at hs hs'
  exact hR.transfer (by rintro x (rfl | rfl) <;> exact he) hs hs'

section

variable (hsize : size.toNat ≤ imgSize.toNat)
include hsize

lemma meets_validate_zone (w : World) : (elfValidate b.img size).Meets (Transfer fun _ => False) InZone (fun _ => True)
    (fun _ t => t = w) w := by
  have himg := b.img_le
  exact meets_elfValidate (fun j hj => not_zoneRam hj (by omega)) (fun _ _ => rfl) fun _ => rfl

lemma meets_load_zone (w : World) : (elfLoad b.img size userLoadAddr userStackTop).Meets (Transfer fun _ => False)
    InZone (fun _ => True) (fun _ _ => True) w := by
  have himg := b.img_le
  have hlo : userLoadAddr.toNat = 0x80000 := rfl
  have hhi : userStackTop.toNat = 0xF0000 := rfl
  refine meets_elfLoad (fun j hj => not_zoneRam hj (by omega)) (fun a _ h₁ h₂ => ?_) (apart_of_le (by omega))
    (fun _ _ _ _ => trivial) fun _ _ => trivial
  rw [BitVec.le_def, hlo] at h₁
  rw [BitVec.lt_def, hhi] at h₂
  exact ⟨h₁, by omega⟩

lemma AgreeOutside.isElf (h : AgreeOutside w w') (he : IsElf b size w) : IsElf b size w' := by
  obtain ⟨st, t, hr, ht⟩ := exec_of_meets (meets_validate_zone (b := b) hsize w')
  obtain rfl := exec_agree h ((meets_validate_zone hsize w).mono fun _ _ _ _ => trivial) he hr
  rw [ht] at hr
  exact hr

lemma AgreeOutside.accepted (h : AgreeOutside w w') (ha : Accepted b size w) : Accepted b size w' := by
  obtain ⟨out, t, hr⟩ := ha
  obtain ⟨r, t', hr', _⟩ := exec_of_meets (meets_load_zone hsize w')
  obtain rfl := exec_agree h (meets_load_zone hsize w) hr hr'
  exact ⟨out, t', hr'⟩

end

lemma AgreeOutside.symm (h : AgreeOutside w w') : AgreeOutside w' w :=
  ⟨fun x hx => (h.mem x hx).symm, h.disk.symm, h.clock.symm, h.key.symm⟩

/-! ### The memory at the entry -/

def ImageMem (b : Buffers) (size : Word) (w : World) (mem : Word → Byte) : Prop :=
  IsElf b size w ∧ mem = loaded (fileOf w.mem b.img) w.mem (phdrsOf w.mem b.img) ∨
    ¬ IsElf b size w ∧ mem = blit w.mem userLoadAddr size.toNat fun j => w.mem (addr b.img j)

lemma meets_prepareFlat_zone (hsize : size.toNat ≤ imgSize.toNat) (hlen : tail.length < lineMax) :
    (prepareFlat b.img size tail scr).Meets (LaunchStep Req.written fun _ => False) Asked (fun _ => True)
      (fun _ t => ∀ x, ¬ InVideo x → t.world.mem x =
        withArgs tail (blit w.mem userLoadAddr size.toNat fun j => w.mem (addr b.img j)) x) ⟨w, table⟩ := by
  have himg := b.img_le
  have hlo : userLoadAddr.toNat = 0x80000 := rfl
  have himgSize : imgSize.toNat = 0x8000 := rfl
  refine Prog.Meets.bind (meets_pagingSetUserWritable (fun _ => trivial) (fun _ _ => trivial) (Prog.Meets.bind
    (meets_lift_zone (meets_memcpy (by omega) (fun _ _ => trivial) (fun i hi => not_zoneRam hi (by omega))
      (fun i hi y => ?_) (fun i hi => ?_) ?_))))
  · change 0x80000 ≤ (addr _ i).toNat ∧ (addr _ i).toNat < 0x100000
    rw [addr, BitVec.toNat_add, BitVec.toNat_ofNat]
    omega
  · rw [BitVec.toNat_sub, addr, BitVec.toNat_add, BitVec.toNat_ofNat]
    omega
  · refine Prog.Meets.bind (meets_message fun scr' t ht => Prog.Meets.bind (meets_block hlen ⟨trivial, fun x hx => ?_⟩))
    dsimp only
    rw [withArgs, withArgs, put, put, blit, blit, ht x hx]

lemma meets_prepare_zone (hsize : size.toNat ≤ imgSize.toNat) (hlen : tail.length < lineMax)
    (h : Starts b size w) :
    (prepare b.img size tail upid scr).Meets (LaunchStep Req.written fun _ => False) Asked (fun _ => True)
      (fun _ t => ∃ mem, ImageMem b size w mem ∧ ∀ x, ¬ InVideo x → t.world.mem x = withArgs tail mem x)
      ⟨w, table⟩ := by
  have himg := b.img_le
  obtain ⟨st, t, hr, ht⟩ := exec_of_meets (meets_validate_zone (b := b) hsize w)
  rw [ht] at hr
  have hval : (elfValidate b.img size).Meets (Transfer fun _ => False) (AskedLoad Asked) (fun _ => True)
      (fun _ _ => True) w :=
    meets_elfValidate (fun j hj => ⟨⟨_, rfl⟩, not_zoneRam hj (by omega)⟩) (fun _ _ => trivial) fun _ => trivial
  refine Prog.Meets.bind (meets_lift_loads (fun _ => rfl) ((meets_exact hval hr).mono fun st' t _ hst => ?_))
  obtain ⟨rfl, rfl⟩ := hst
  split
  · rename_i hok
    have helf : IsElf b size t := by rw [IsElf, hr, hok]
    exact (meets_prepareElf_zone (h helf) hsize hlen).mono fun r u _ hu => ⟨_, .inl ⟨helf, rfl⟩, hu.2.1⟩
  · rename_i hbad
    have hflat : ¬ IsElf b size t := fun helf => hbad (by
      have := helf.symm.trans hr
      exact (Prod.mk.inj (Option.some.inj this)).1.symm)
    exact (meets_prepareFlat_zone hsize hlen).mono fun r u _ hu => ⟨_, .inr ⟨hflat, rfl⟩, hu⟩

lemma loaded_congr {file' : ℕ → Byte} {n : ℕ} (hfile : ∀ j < n, file j = file' j)
    (hps : ∀ p ∈ ps, p.loads → p.offset.toNat + p.filesz.toNat ≤ n) (hx : Covered ps x) :
    loaded file mem ps x = loaded file' mem' ps x := by
  induction ps using List.reverseRecOn with
  | nil => obtain ⟨_, hp, _⟩ := hx; cases hp
  | append_singleton ps q ih =>
    rw [loaded_concat, loaded_concat]
    by_cases hq : q.loads ∧ q.Covers x
    · have hc : (x - q.vaddr).toNat < q.memsz.toNat := hq.2
      rw [if_pos hq.1, if_pos hq.1, putSegment, putSegment, blit, blit, if_pos hc, if_pos hc]
      have hfit := hps q (by simp) hq.1
      split
      · exact hfile _ (by omega)
      · rfl
    · have hpre := ih (fun p hp => hps p (List.mem_append_left _ hp)) (by
        obtain ⟨p, hp, hl, hc⟩ := hx
        rcases List.mem_append.mp hp with hp | hp
        · exact ⟨p, hp, hl, hc⟩
        · obtain rfl := List.mem_singleton.mp hp
          exact (hq ⟨hl, hc⟩).elim)
      split
      · rename_i hl
        rw [putSegment_outside fun hc => hq ⟨hl, hc⟩, putSegment_outside fun hc => hq ⟨hl, hc⟩, hpre]
      · exact hpre

lemma ImageMem.unset (hm : ImageMem b size w mem) (hx : ¬ SetByLaunch b size tail w x) :
    withArgs tail mem x = w.mem x := by
  have hargs : ¬ InArgs tail x := fun h => hx (.inr (.inr h))
  rw [withArgs, put_outside (not_lt.mp hargs)]
  rcases hm with ⟨helf, rfl⟩ | ⟨hflat, rfl⟩
  · exact loaded_outside fun p hp hl hc => hx (.inl ⟨helf, p, hp, hl, hc⟩)
  · exact if_neg fun h => hx (.inr (.inl ⟨hflat, h⟩))

lemma ImageMem.same (hm : ImageMem b size w mem) (hm' : ImageMem b size w' mem') (h : AgreeOutside w w')
    (hsize : size.toNat ≤ imgSize.toNat) (hs : Starts b size w) (hx : SetByLaunch b size tail w x) :
    withArgs tail mem x = withArgs tail mem' x := by
  have himg := b.img_le
  have hfile : ∀ j < size.toNat, w.mem (addr b.img j) = w'.mem (addr b.img j) := fun j hj =>
    h.mem _ (not_zoneRam hj (by omega))
  by_cases hargs : InArgs tail x
  · rw [withArgs, withArgs, put_inside hargs, put_inside hargs]
  rw [withArgs, withArgs, put_outside (not_lt.mp hargs), put_outside (not_lt.mp hargs)]
  rcases hm with ⟨helf, rfl⟩ | ⟨hflat, rfl⟩
  · obtain ⟨_, rfl⟩ : IsElf b size w' ∧ mem' = loaded (fileOf w'.mem b.img) w'.mem (phdrsOf w'.mem b.img) :=
      hm'.resolve_right fun hf => hf.1 (h.isElf hsize helf)
    obtain ⟨hv, _, _⟩ := (hs helf).spec hsize
    have hcov : Covered (phdrsOf w.mem b.img) x := by
      rcases hx with ⟨_, hc⟩ | ⟨hflat, _⟩ | hc
      · exact hc
      · exact (hflat helf).elim
      · exact (hargs hc).elim
    rw [phdrsOf_congr hv fun j hj => (hfile j hj).symm]
    exact loaded_congr hfile (fun p hp hl => (hv.segment p hp (of_decide_eq_true hl).1).2) hcov
  · obtain ⟨_, rfl⟩ : ¬ IsElf b size w' ∧ mem' = blit w'.mem userLoadAddr size.toNat fun j => w'.mem (addr b.img j) :=
      hm'.resolve_left fun hf => hflat (h.symm.isElf hsize hf.1)
    have hin : (x - userLoadAddr).toNat < size.toNat := by
      rcases hx with ⟨helf, _⟩ | ⟨_, hc⟩ | hc
      · exact (hflat helf).elim
      · exact hc
      · exact (hargs hc).elim
    rw [blit, blit, if_pos hin, if_pos hin, hfile _ hin]

lemma AgreeOutside.starts (h : AgreeOutside w w') (hsize : size.toNat ≤ imgSize.toNat) (hs : Starts b size w) :
    Starts b size w' := fun helf => h.accepted hsize (hs (h.symm.isElf hsize helf))

lemma AgreeOutside.setByLaunch (h : AgreeOutside w w') (hsize : size.toNat ≤ imgSize.toNat) (hs : Starts b size w)
    (hx : SetByLaunch b size tail w x) : SetByLaunch b size tail w' x := by
  have himg := b.img_le
  rcases hx with ⟨helf, hc⟩ | ⟨hflat, hc⟩ | hc
  · obtain ⟨hv, _, _⟩ := (hs helf).spec hsize
    refine .inl ⟨h.isElf hsize helf, ?_⟩
    rwa [phdrsOf_congr hv fun j hj => (h.mem _ (not_zoneRam hj (by omega))).symm]
  · exact .inr (.inl ⟨fun helf => hflat (h.symm.isElf hsize helf), hc⟩)
  · exact .inr (.inr hc)

lemma entry_keeps (hsize : size.toNat ≤ imgSize.toNat) (hlen : tail.length < lineMax) (hs : Starts b size w)
    (hx : ¬ SetByLaunch b size tail w x) (hram : ZoneRam x) :
    ∃ r t, (prepare b.img size tail upid scr).Reaches (LaunchStep Req.written fun _ => False) ⟨w, table⟩ (pure r) t ∧
      t.world.mem x = w.mem x := by
  obtain ⟨r, t, hr, mem, hm, hmem⟩ := (meets_prepare_zone hsize hlen hs).returns
  exact ⟨r, t, hr, by rw [hmem x hram.2, hm.unset hx]⟩

/-- The bytes that a program finds at its entry do not depend on the programs before it exactly if the launch
sets them, and `SYS_SBRK` hands out the heap as it is. -/
theorem entry_same_iff (b : Buffers) (size : Word) (tail : List Byte) (upid : ℤ) (scr : Screen) (table : ℕ → Word)
    (w : World) (given : Set Word) (hsize : size.toNat ≤ imgSize.toNat) (hlen : tail.length < lineMax)
    (hs : Starts b size w) :
    ((∀ w', AgreeOutside w w' → ∀ x ∈ given, SameAtEntry b size tail upid scr table w w' x) ↔
      ∀ x ∈ given, ZoneRam x → SetByLaunch b size tail w x) ∧
    ∀ r st t, r.eax = sysSbrk → exec (syscallHandler r st) t = some (some (sysSbrkCall r st), t) := by
  have hrun : ∀ u, Starts b size u → (prepare b.img size tail upid scr).Meets (LaunchStep Req.written fun _ => False)
      Asked (fun _ => True) (fun _ t => ∃ mem, ImageMem b size u mem ∧
        ∀ x, ¬ InVideo x → t.world.mem x = withArgs tail mem x) ⟨u, table⟩ :=
    fun u hu => meets_prepare_zone hsize hlen hu
  refine ⟨⟨fun h x hx hram => ?_, fun h w' hw x hx r r' t t' hr hr' => ?_⟩, fun r st t hr => ?_⟩
  · by_contra hset
    have hw : AgreeOutside w (w.setMem x (w.mem x + 1)) :=
      ⟨fun y hy => by rw [World.setMem_mem, Function.update_of_ne]; rintro rfl; exact hy hram, rfl, rfl, rfl⟩
    have hs' := hw.starts hsize hs
    have hset' : ¬ SetByLaunch b size tail (w.setMem x (w.mem x + 1)) x := fun h' =>
      hset (hw.symm.setByLaunch hsize hs' h')
    obtain ⟨_, t, hr, hkeep⟩ := entry_keeps hsize hlen hs hset hram
    obtain ⟨_, t', hr', hkeep'⟩ := entry_keeps hsize hlen hs' hset' hram
    have heq := h _ hw x hx _ _ _ _ hr hr'
    rw [hkeep, hkeep', World.setMem_mem, Function.update_self] at heq
    exact absurd heq (by simp)
  · by_cases hram : ZoneRam x
    · obtain ⟨mem, hm, hmem⟩ := (hrun _ hs).result hr
      obtain ⟨mem', hm', hmem'⟩ := (hrun _ (hw.starts hsize hs)).result hr'
      rw [hmem x hram.2, hmem' x hram.2]
      exact hm.same hm' hw hsize hs (h x hx hram)
    · have hlock := (hrun _ hs).lockstep (R := fun s s' => AgreeOutside s.world s'.world ∧ s.table = s'.table)
        (fun _ _ _ _ _ _ _ hR he hs hs' => launch_lockstep hR he hs hs') ⟨hw, rfl⟩ hr hr'
      exact hlock.2.1.mem x hram
  · rw [syscallHandler_sbrk hr]
    rfl

lemma isElf_of_eval (hsize : size.toNat ≤ imgSize.toNat)
    (h : (exec (elfValidate b.img size) w).map (·.1) = some .ok) : IsElf b size w := by
  obtain ⟨st, t, hr, rfl⟩ := exec_of_meets (meets_validate_zone (b := b) hsize w)
  rw [hr] at h
  obtain rfl := Option.some.inj h
  exact hr

theorem entry_same_image : Starts sampleBuffers 88 (oneSegment 0x80000 8) ∧
    ∀ w', AgreeOutside (oneSegment 0x80000 8) w' → SameAtEntry sampleBuffers 88 [0x61] 1 ⟨0, 0x0F, by decide⟩
      (fun _ => 0) (oneSegment 0x80000 8) w' 0x80005 := by
  have hacc : Accepted sampleBuffers 88 (oneSegment 0x80000 8) := accepted_of_eval (by decide +kernel)
  have hone : phnumOf (oneSegment 0x80000 8).mem sampleBuffers.img = 1 := by decide +kernel
  have helf : IsElf sampleBuffers 88 (oneSegment 0x80000 8) := isElf_of_eval (by decide) (by decide +kernel)
  refine ⟨fun _ => hacc, fun w' hw => ?_⟩
  refine (entry_same_iff sampleBuffers 88 [0x61] 1 ⟨0, 0x0F, by decide⟩ (fun _ => 0) (oneSegment 0x80000 8) {0x80005}
    (by decide) (by decide) fun _ => hacc).1.mpr (fun x hx _ => ?_) w' hw 0x80005 rfl
  obtain rfl : x = 0x80005 := hx
  exact .inl ⟨helf, (covered_one hone).mpr ⟨by decide +kernel, by decide +kernel⟩⟩

def secretLeft : World := (oneSegment 0x80000 8).setMem 0x90000 0x53

theorem heap_keeps_secret : AgreeOutside (oneSegment 0x80000 8) secretLeft ∧
    (∃ r t, (prepare sampleBuffers.img 88 [0x61] 1 ⟨0, 0x0F, by decide⟩).Reaches (LaunchStep Req.written fun _ => False)
      ⟨oneSegment 0x80000 8, fun _ => 0⟩ (pure r) t ∧ t.world.mem 0x90000 = 0) ∧
    (∃ r t, (prepare sampleBuffers.img 88 [0x61] 1 ⟨0, 0x0F, by decide⟩).Reaches (LaunchStep Req.written fun _ => False)
      ⟨secretLeft, fun _ => 0⟩ (pure r) t ∧ t.world.mem 0x90000 = 0x53) ∧
    ∀ r st t, r.eax = sysSbrk → r.ebx = 16 → (procCurrent st.sys).brk = 0 →
      exec (syscallHandler r st) t = some (some (sysSbrkCall r st), t) ∧ (sysSbrkCall r st).1.eax = 0x90000 := by
  have hacc : Accepted sampleBuffers 88 (oneSegment 0x80000 8) := accepted_of_eval (by decide +kernel)
  have hone : phnumOf (oneSegment 0x80000 8).mem sampleBuffers.img = 1 := by decide +kernel
  have helf : IsElf sampleBuffers 88 (oneSegment 0x80000 8) := isElf_of_eval (by decide) (by decide +kernel)
  have hram : ZoneRam 0x90000 := ⟨by decide, fun h => absurd h.1 (by decide)⟩
  have hw : AgreeOutside (oneSegment 0x80000 8) secretLeft :=
    ⟨fun y hy => by rw [secretLeft, World.setMem_mem, Function.update_of_ne]; rintro rfl; exact hy hram, rfl, rfl, rfl⟩
  have hset : ¬ SetByLaunch sampleBuffers 88 [0x61] (oneSegment 0x80000 8) 0x90000 := by
    rintro (⟨_, hc⟩ | ⟨hflat, _⟩ | hc)
    · exact absurd ((covered_one hone).mp hc).2 (by decide +kernel)
    · exact hflat helf
    · exact absurd (inArgs_range hc).1 (by decide)
  have hs' := hw.starts (by decide) fun _ => hacc
  refine ⟨hw, entry_keeps (by decide) (by decide) (fun _ => hacc) hset hram, entry_keeps (by decide) (by decide) hs'
    (fun h => hset (hw.symm.setByLaunch (by decide) hs' h)) hram, fun r st t hr hb hbrk => ?_⟩
  rw [syscallHandler_sbrk hr]
  refine ⟨rfl, ?_⟩
  rw [sysSbrkCall, hb, hbrk]
  exact show (sbrk 0 16).1 = 0x90000 by decide

end PyroOS
