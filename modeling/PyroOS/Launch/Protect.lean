import PyroOS.Launch.Intact
import PyroOS.Launch.Writable

/-! Which pages of the user zone are read-only once an image has been loaded. -/

namespace PyroOS

open Interaction Kernel

def TableStep (may : Req → Prop) (s : LaunchState) (e : LaunchReq) (x : e.Reply) (t : LaunchState) : Prop :=
  LaunchStep Req.written may s e x t ∧ ∀ entry esp st, e = .enterUser entry esp st → t.table = s.table

inductive Relaunched (k : BootDir) (b : Buffers) (installed : ℕ → Word) : (ℕ → Word) → Prop
  | boot : Relaunched k b installed installed
  | command {table : ℕ → Word} {c : Command} {st st' : KState} {w : World} {t : LaunchState} :
    Relaunched k b installed table →
    (c.program k b st).Reaches (TableStep fun _ => True) ⟨w, table⟩ (pure st') t → Relaunched k b installed t.table

def resetLoadProtect (image size : Word) : Launch ℤ := do
  pagingResetUserZone
  let r ← lift (elfLoad image size userLoadAddr userStackTop)
  elfProtect image
  pure r.1

def Phdr.OnPage (p : Phdr) (i : ℕ) : Prop := ∃ x, p.Covers x ∧ x.toNat / 4096 = i

structure SameButRw (installed table : ℕ → Word) : Prop where
  outside : ∀ i, i < 128 ∨ 256 ≤ i → table i = installed i
  bits : ∀ i, table i &&& ~~~pfRw = installed i &&& ~~~pfRw

variable {k : BootDir} {b : Buffers} {installed table : ℕ → Word} {image size a len : Word} {writable : Bool}
  {ps : List Phdr} {p : Phdr} {may : Req → Prop} {i : ℕ} {w : World}

lemma SameButRw.tableSet (h : SameButRw installed table) : SameButRw installed (tableSet a len writable table) := by
  refine ⟨fun i hi => (tableSet_outside hi).trans (h.outside i hi), fun i => ?_⟩
  rw [PyroOS.tableSet]
  split
  · rw [withWritable_bits, h.bits]
  · exact h.bits i

lemma SameButRw.tableProtect (h : SameButRw installed table) : SameButRw installed (tableProtect ps table) := by
  induction ps generalizing table with
  | nil => exact h
  | cons p ps ih =>
    refine ih ?_
    rw [tablePhdr]
    split
    · exact h.tableSet
    · exact h

/-! ### Commands keep everything else -/

def HasTable (good : (ℕ → Word) → Prop) (s : LaunchState) : Prop := good s.table

lemma preserves_lift {α : Type} {good : (ℕ → Word) → Prop} (q : Kernel α) :
    (lift q).Preserves (TableStep may) (HasTable good) := by
  induction q with
  | pure x => exact Prog.preserves_pure x
  | ask e next ih =>
    intro s x t hs hr
    cases hr with
    | ask hstep hr =>
      obtain ⟨hstep, _⟩ := hstep
      cases hstep with
      | kernel _ _ =>
        refine ih _ _ _ _ ?_ hr
        exact hs

lemma preserves_pagingSetUserWritable :
    (pagingSetUserWritable a len writable).Preserves (TableStep may) (HasTable (SameButRw installed)) := by
  rintro ⟨w, table⟩ x t hs hr
  have hm : (pagingSetUserWritable a len writable).Meets (LaunchStep Req.written may) (fun _ => True) (fun _ => True)
      (fun _ t => SameButRw installed t.table) ⟨w, table⟩ :=
    meets_pagingSetUserWritable (fun _ => trivial) (fun _ _ => trivial) (SameButRw.tableSet hs)
  exact hm.result (hr.mono fun _ _ _ _ h => h.1)

lemma preserves_elfProtect : (elfProtect image).Preserves (TableStep may) (HasTable (SameButRw installed)) := by
  rintro ⟨w, table⟩ x t hs hr
  have hm : (elfProtect image).Meets (LaunchStep Req.written may) (fun _ => True) (fun _ => True)
      (fun _ t => SameButRw installed t.table) ⟨w, table⟩ :=
    meets_elfProtect (fun _ => rfl) (fun _ _ => trivial) (fun _ _ => trivial) (fun _ _ _ _ => trivial)
      (fun _ => trivial) (fun _ _ => trivial) (SameButRw.tableProtect hs)
  exact hm.result (hr.mono fun _ _ _ _ h => h.1)

lemma preserves_enterUser {good : (ℕ → Word) → Prop} {entry esp : Word} {st : KState} :
    (Prog.request (LaunchReq.enterUser entry esp st) : Launch (Bool × KState)).Preserves (TableStep may)
      (HasTable good) := by
  intro s x t hs hr
  cases hr with
  | ask hstep hr =>
    cases hr
    rw [HasTable, hstep.2 _ _ _ rfl]
    exact hs

lemma preserves_runUserAtSp {good : (ℕ → Word) → Prop} {entry esp : Word} {st : KState} :
    (runUserAtSp entry esp st).Preserves (TableStep may) (HasTable good) :=
  preserves_enterUser.bind fun _ => (preserves_lift _).bind fun _ => Prog.preserves_pure _

lemma preserves_prepare {tail : List Byte} {upid : ℤ} {scr : Screen} :
    (prepare image size tail upid scr).Preserves (TableStep may) (HasTable (SameButRw installed)) := by
  refine (preserves_lift _).bind fun st => ?_
  split
  · refine preserves_pagingSetUserWritable.bind fun _ => (preserves_lift _).bind fun r => ?_
    split
    · exact (preserves_lift _).bind fun _ => (preserves_lift _).bind fun _ => Prog.preserves_pure _
    · exact (preserves_lift _).bind fun _ => (preserves_lift _).bind fun _ => preserves_elfProtect.bind fun _ =>
        Prog.preserves_pure _
  · exact preserves_pagingSetUserWritable.bind fun _ => (preserves_lift _).bind fun _ =>
      (preserves_lift _).bind fun _ =>
      (preserves_lift _).bind fun _ => Prog.preserves_pure _

lemma preserves_program (c : Command) (st : KState) :
    (c.program k b st).Preserves (TableStep may) (HasTable (SameButRw installed)) := by
  cases c with
  | exec line =>
    refine (preserves_lift _).bind fun _ => (preserves_lift _).bind fun r => ?_
    split
    · exact (preserves_lift _).bind fun _ => Prog.preserves_pure _
    · refine preserves_prepare.bind fun r => ?_
      dsimp only
      split
      · exact Prog.preserves_pure _
      · exact preserves_runUserAtSp.bind fun _ => Prog.preserves_pure _
  | user =>
    exact (preserves_lift _).bind fun _ => preserves_pagingSetUserWritable.bind fun _ =>
      (preserves_lift _).bind fun _ =>
      (preserves_lift _).bind fun _ => preserves_runUserAtSp

lemma Relaunched.sameButRw (h : Relaunched k b installed table) : SameButRw installed table := by
  induction h with
  | boot => exact ⟨fun _ _ => rfl, fun _ => rfl⟩
  | command _ hr ih => exact preserves_program _ _ ⟨_, _⟩ _ _ ih hr

/-! ### The pages of the segments -/

lemma onPage_iff (hl : p.loads) (hlo : 0x80000 ≤ p.vaddr.toNat) (hhi : p.vaddr.toNat + p.memsz.toNat ≤ 0xF0000) :
    p.OnPage i ↔ (zoneFirst p.vaddr).toNat / 4096 ≤ i ∧ i < (zoneLast p.vaddr p.memsz).toNat / 4096 := by
  have hpos : 0 < p.memsz.toNat := by
    have hne : p.memsz ≠ 0 := (of_decide_eq_true hl).2
    exact Nat.pos_of_ne_zero fun h => hne (BitVec.eq_of_toNat_eq h)
  have hpages : ∀ i, 128 ≤ i → i < 256 → ((zoneFirst p.vaddr).toNat / 4096 ≤ i ∧
      i < (zoneLast p.vaddr p.memsz).toNat / 4096 ↔ MeetsPage p.vaddr p.memsz i) := fun i h₁ h₂ => by
    rw [meetsPage_iff hpos, zone_pages hpos (by omega) h₁ h₂]
  constructor
  · rintro ⟨x, hx, rfl⟩
    rw [covers_iff (by omega)] at hx
    exact (hpages _ (by omega) (by omega)).mpr ⟨x.toNat, hx.1, hx.2, rfl⟩
  · intro hin
    have hfirst := zoneFirst_spec p.vaddr
    have hlast := zoneLast_spec p.vaddr p.memsz
    obtain ⟨x, h₁, h₂, rfl⟩ := (hpages i (by omega) (by omega)).mp hin
    have hx : (BitVec.ofNat 32 x).toNat = x := by
      rw [BitVec.toNat_ofNat]
      omega
    exact ⟨BitVec.ofNat 32 x, by rw [covers_iff (by omega), hx]; exact ⟨h₁, h₂⟩, by rw [hx]⟩

lemma isWritable_tableProtect (hwin : InWindow userLoadAddr userStackTop ps) :
    isWritable (tableProtect ps table i) = true ↔
      isWritable (table i) = true ∧ ∀ p ∈ ps, p.readOnly → ¬ p.OnPage i := by
  induction ps generalizing table with
  | nil => exact ⟨fun h => ⟨h, fun p hp => (by cases hp)⟩, fun h => h.1⟩
  | cons p ps ih =>
    have hrest : isWritable (tableProtect ps (tablePhdr table p) i) = true ↔
        isWritable (tablePhdr table p i) = true ∧ ∀ q ∈ ps, q.readOnly → ¬ q.OnPage i :=
      ih fun q hq => hwin q (List.mem_cons_of_mem _ hq)
    have hhead : isWritable (tablePhdr table p i) = true ↔
        isWritable (table i) = true ∧ (p.readOnly → ¬ p.OnPage i) := by
      rw [tablePhdr]
      by_cases hro : p.readOnly = true
      · have hl : p.loads := (Bool.and_eq_true_iff.mp hro).1
        obtain ⟨hlo, hhi⟩ := hwin p List.mem_cons_self hl
        rw [if_pos hro, tableSet, onPage_iff hl hlo hhi]
        split
        · rename_i hin
          rw [isWritable_withWritable]
          exact ⟨fun h => (by cases h), fun h => (h.2 hro hin).elim⟩
        · rename_i hout
          exact ⟨fun h => ⟨h, fun _ => hout⟩, fun h => h.1⟩
      · rw [if_neg hro]
        exact ⟨fun h => ⟨h, fun h' => (hro h').elim⟩, fun h => h.1⟩
    rw [List.forall_mem_cons, ← and_assoc, ← hhead]
    exact hrest

lemma isWritable_tableReset (h₁ : 128 ≤ i) (h₂ : i < 256) : isWritable (tableReset table i) = true := by
  have hpage : (BitVec.ofNat 32 (4096 * i)).toNat = 4096 * i := by
    rw [BitVec.toNat_ofNat]
    omega
  have hw : Writable (tableReset table) (BitVec.ofNat 32 (4096 * i)) := zone_writable (by omega)
  rw [Writable, hpage, Nat.mul_div_cancel_left _ (by decide)] at hw
  exact hw.2

def LoaderReq : Req → Prop
  | .load _ => True
  | .store a _ => userLoadAddr ≤ a ∧ a < userStackTop
  | _ => False

lemma meets_resetLoadProtect {post : ℤ → LaunchState → Prop} {out : Option Word} {w' : World}
    (hsep : Apart image size userLoadAddr userStackTop)
    (hload : exec (elfLoad image size userLoadAddr userStackTop) w = some ((0, out), w'))
    (hp : post 0 ⟨w', tableProtect (phdrsOf w.mem image) (tableReset table)⟩) :
    (resetLoadProtect image size).Meets (LaunchStep Req.written may) (fun _ => True) (fun _ => True) post
      ⟨w, table⟩ := by
  have hstart : userLoadAddr.toNat = 0x80000 := rfl
  have hstop : userStackTop.toNat = 0xF0000 := rfl
  obtain ⟨hv, hwin, _, hw'⟩ := elfLoad_accepted hsep hload
  have hrun : (elfLoad image size userLoadAddr userStackTop).Meets (Transfer may) LoaderReq (fun _ => True)
      (fun r t => r = (0, out) ∧ t = w') w := by
    have hm : (elfLoad image size userLoadAddr userStackTop).Meets (Transfer fun _ => False) LoaderReq (fun _ => True)
        (fun _ _ => True) w :=
      meets_elfLoad (fun _ _ => trivial) (fun _ _ h₁ h₂ => ⟨h₁, h₂⟩) hsep (fun _ _ _ _ => trivial) fun _ _ => trivial
    refine (meets_exact hm hload).congr fun s e x t he => ?_
    exact transfer_congr (fun _ h => by subst h; exact he) fun _ _ h => by subst h; exact he
  have hkeep : phdrsOf w'.mem image = phdrsOf w.mem image := by
    rw [hw']
    exact phdrsOf_congr hv fun j hj => hwin.loaded_outside (hsep j hj)
  refine Prog.Meets.bind (meets_pagingSetUserWritable (fun _ => trivial) (fun _ _ => trivial) ?_)
  refine Prog.Meets.bind (meets_lift (hrun.mono ?_) (fun e he a ha => ?_) fun _ _ => trivial)
  · rintro r t _ ⟨rfl, rfl⟩
    refine Prog.Meets.bind (meets_elfProtect (fun _ => rfl) (fun _ _ => trivial) (fun _ _ => trivial)
      (fun _ _ _ _ => trivial) (fun _ => trivial) (fun _ _ => trivial) ⟨trivial, ?_⟩)
    rw [hkeep]
    exact hp
  · cases e with
    | store c x =>
      obtain rfl := Option.some.inj ha
      have hin : userLoadAddr.toNat ≤ c.toNat ∧ c.toNat < userStackTop.toNat := he
      exact zone_writable (by omega)
    | load c => cases ha
    | _ => exact he.elim

def OnReadOnly (ps : List Phdr) (i : ℕ) : Prop :=
  ∃ p ∈ ps, p.type = ptLoad ∧ p.memsz ≠ 0 ∧ p.flags &&& pfW = 0 ∧ p.OnPage i

lemma readOnly_iff : p.readOnly = true ↔ p.type = ptLoad ∧ p.memsz ≠ 0 ∧ p.flags &&& pfW = 0 := by
  rw [Phdr.readOnly, Phdr.loads, Bool.and_eq_true, decide_eq_true_eq, decide_eq_true_eq, and_assoc]

theorem protect_exact {k : BootDir} {b : Buffers} {first second : Word} {m : PhysMem} {table : ℕ → Word} {w w' : World}
    {image size : Word} {out : Option Word} (may : Req → Prop)
    (h : Relaunched k b (pagingInstall k first second m first) table)
    (hsep : Apart image size userLoadAddr userStackTop)
    (hload : exec (elfLoad image size userLoadAddr userStackTop) w = some ((0, out), w')) :
    (resetLoadProtect image size).Terminates (LaunchStep Req.written may) ⟨w, table⟩ ∧
    ∀ rc t, (resetLoadProtect image size).Reaches (LaunchStep Req.written may) ⟨w, table⟩ (pure rc) t →
      rc = 0 ∧
      (∀ i, 128 ≤ i → i < 256 → (isWritable (t.table i) = false ↔ OnReadOnly (phdrsOf w.mem image) i)) ∧
      (∀ i, i < 128 ∨ 256 ≤ i → t.table i = table i) ∧
      ∀ i, t.table i &&& ~~~pfRw = pagingInstall k first second m first i &&& ~~~pfRw := by
  obtain ⟨_, hwin, _, _⟩ := elfLoad_accepted hsep hload
  have hm : (resetLoadProtect image size).Meets (LaunchStep Req.written may) (fun _ => True) (fun _ => True)
      (fun rc t => rc = 0 ∧ t.table = tableProtect (phdrsOf w.mem image) (tableReset table)) ⟨w, table⟩ :=
    meets_resetLoadProtect hsep hload ⟨rfl, rfl⟩
  refine ⟨hm.terminates, fun rc t hr => ?_⟩
  obtain ⟨rfl, htable⟩ := hm.result hr
  rw [htable]
  refine ⟨rfl, fun i h₁ h₂ => ?_, fun i hi => ?_, fun i => ?_⟩
  · rw [← Bool.not_eq_true, isWritable_tableProtect hwin, not_and, OnReadOnly]
    constructor
    · intro hno
      by_contra hnone
      refine hno (isWritable_tableReset h₁ h₂) fun p hp hro hon => hnone ⟨p, hp, ?_⟩
      obtain ⟨hty, hmem, hfl⟩ := readOnly_iff.mp hro
      exact ⟨hty, hmem, hfl, hon⟩
    · rintro ⟨p, hp, hty, hmem, hfl, hon⟩ _ hall
      exact hall p hp (readOnly_iff.mpr ⟨hty, hmem, hfl⟩) hon
  · rw [tableProtect_outside hi, tableReset, tableSet_outside hi]
  · exact (h.sameButRw.tableSet (a := userZoneStart)).tableProtect.bits i

lemma sample_onPage : OnReadOnly (phdrsOf elfWorld.mem 0x20000) 128 := by
  refine ⟨_, phdrAt_mem (by decide +kernel : 0 < phnumOf elfWorld.mem 0x20000), ?_, ?_, ?_, 0x80000, ?_, ?_⟩ <;>
    decide +kernel

theorem protect_exact_sample : Relaunched sampleDir sampleBuffers sampleTable sampleTable ∧
    Apart 0x20000 88 userLoadAddr userStackTop ∧
    ∃ t, (resetLoadProtect 0x20000 88).Reaches (LaunchStep Req.written fun _ => False) ⟨elfWorld, sampleTable⟩
      (pure 0) t ∧ isWritable (t.table 128) = false := by
  have h : Relaunched sampleDir sampleBuffers sampleTable sampleTable := .boot
  have hsep : Apart 0x20000 88 userLoadAddr userStackTop := apart_of_le (by decide)
  refine ⟨h, hsep, ?_⟩
  have hrc : (exec (elfLoad 0x20000 88 userLoadAddr userStackTop) elfWorld).map (·.1) = some (0, some 0x80000) := by
    decide +kernel
  obtain ⟨⟨r, w'⟩, hload, rfl⟩ := Option.map_eq_some_iff.mp hrc
  obtain ⟨hend, hall⟩ := protect_exact (fun _ => False) h hsep hload
  obtain ⟨rc, t, hr⟩ := hend _ _ .here
  obtain ⟨rfl, hzone, _⟩ := hall rc t hr
  exact ⟨t, hr, (hzone 128 (by decide) (by decide)).mpr sample_onPage⟩

end PyroOS
