import PyroOS.Launch.Load
import PyroOS.Syscall.Handler

/-! The page table of the first 4 MB, whose entries say which pages of programs are read-only. -/

namespace PyroOS

open Interaction

/-- What the launch of a program asks for: kernel requests, entries of `first_page_table`, and ring 3 until
the program exits or faults. -/
inductive LaunchReq where
  | kernel (e : Req)
  | entry (i : ℕ)
  | setEntry (i : ℕ) (e : Word)
  | enterUser (entry esp : Word) (st : KState)

abbrev LaunchReq.Reply : LaunchReq → Type
  | .kernel e => e.Reply
  | .entry _ => Word
  | .setEntry _ _ => Unit
  | .enterUser _ _ _ => Bool × KState

abbrev Launch := Prog LaunchReq LaunchReq.Reply

def lift {α : Type} : Kernel α → Launch α
  | .pure a => .pure a
  | .ask e next => .ask (.kernel e) fun a => lift (next a)

def pfW : Word := 0x2

def withWritable (writable : Bool) (e : Word) : Word := (e &&& ~~~pfRw) ||| if writable then pfRw else 0

def zoneFirst (a : Word) : Word :=
  let start := a &&& ~~~0xFFF
  if start < userZoneStart then userZoneStart else start

def zoneLast (a len : Word) : Word :=
  let stop := (a + len + 0xFFF) &&& ~~~0xFFF
  if userZoneEnd < stop then userZoneEnd else stop

def pagingSetUserWritable (a len : Word) (writable : Bool) : Launch Unit :=
  Prog.iterate (fun _ => lift hang)
    (fun v => do
      if v < zoneLast a len then do
        let e ← Prog.request (LaunchReq.entry (v >>> 12).toNat)
        Prog.request (LaunchReq.setEntry (v >>> 12).toNat (withWritable writable e))
        pure (.inl (v + 0x1000))
      else pure (.inr ()))
    (2 ^ 20) (zoneFirst a)

def pagingResetUserZone : Launch Unit :=
  pagingSetUserWritable userZoneStart (userZoneEnd - userZoneStart) true

def Phdr.readOnly (p : Phdr) : Bool := p.loads && decide (p.flags &&& pfW = 0)

def protectPhdr (p : Phdr) : Launch Unit :=
  if p.readOnly then pagingSetUserWritable p.vaddr p.memsz false else pure ()

def elfProtect (image : Word) : Launch Unit := do
  let phoff ← lift (readPhoff image)
  Prog.iterate (fun _ => lift hang)
    (fun i => do
      let n ← lift (readPhnum image)
      if i < n then do
        let p ← lift (readPhdr (image + phoff) i)
        protectPhdr p
        pure (.inl (i + 1))
      else pure (.inr ()))
    (2 ^ 16) 0

/-! ### The machine -/

structure LaunchState where
  world : World
  table : ℕ → Word

def Writable (table : ℕ → Word) (a : Word) : Prop := a.toNat < 0x400000 ∧ isWritable (table (a.toNat / 4096))

def Req.written : Req → Option Word
  | .store a _ | .poke a _ => some a
  | _ => none

def Req.stored : Req → Option Word
  | .store a _ => some a
  | _ => none

/-- The writes that `checked` names are answered only if the page allows them. A program in ring 3 may
leave anything behind, but has no way to change a permission. -/
inductive LaunchStep (checked : Req → Option Word) (may : Req → Prop) :
    LaunchState → (e : LaunchReq) → e.Reply → LaunchState → Prop
  | kernel {w t : World} {table : ℕ → Word} {e : Req} {x : e.Reply} :
    (∀ a ∈ checked e, Writable table a) → Transfer may w e x t →
    LaunchStep checked may ⟨w, table⟩ (.kernel e) x ⟨t, table⟩
  | entry {s : LaunchState} {i : ℕ} : LaunchStep checked may s (.entry i) (s.table i) s
  | setEntry {w : World} {table : ℕ → Word} {i : ℕ} {e : Word} :
    LaunchStep checked may ⟨w, table⟩ (.setEntry i e) () ⟨w, Function.update table i e⟩
  | enterUser {w t : World} {table table' : ℕ → Word} {entry esp : Word} {st st' : KState} {faulted : Bool} :
    (∀ i, isWritable (table' i) = isWritable (table i)) →
    LaunchStep checked may ⟨w, table⟩ (.enterUser entry esp st) (faulted, st') ⟨t, table'⟩

/-! ### Rules -/

variable {checked : Req → Option Word} {may allowed : Req → Prop} {asked : LaunchReq → Prop} {w : World}
  {table : ℕ → Word} {a len image : Word} {writable : Bool} {ps : List Phdr}

lemma meets_lift {α : Type} {p : Kernel α} {post : α → LaunchState → Prop}
    (h : p.Meets (Transfer may) allowed (fun _ => True) (fun x t => post x ⟨t, table⟩) w)
    (hc : ∀ e, allowed e → ∀ a ∈ checked e, Writable table a) (ha : ∀ e, allowed e → asked (.kernel e)) :
    (lift p).Meets (LaunchStep checked may) asked (fun _ => True) post ⟨w, table⟩ := by
  induction p generalizing w with
  | pure x => exact ⟨trivial, h.2⟩
  | ask e next ih =>
    obtain ⟨_, he, ⟨x, t, hstep⟩, hnext⟩ := h
    refine ⟨trivial, ha e he, ⟨x, ⟨t, table⟩, .kernel (hc e he) hstep⟩, fun y s hs => ?_⟩
    cases hs with
    | kernel _ ht => exact ih y (hnext y _ ht)

lemma meets_getEntry {i : ℕ} {post : Word → LaunchState → Prop} {s : LaunchState} (ha : asked (.entry i))
    (hp : post (s.table i) s) :
    (Prog.request (LaunchReq.entry i)).Meets (LaunchStep checked may) asked (fun _ => True) post s := by
  refine ⟨trivial, ha, ⟨_, _, .entry⟩, fun x t ht => ?_⟩
  cases ht with
  | entry => exact ⟨trivial, hp⟩

lemma meets_setEntry {i : ℕ} {e : Word} {post : Unit → LaunchState → Prop} (ha : asked (.setEntry i e))
    (hp : post () ⟨w, Function.update table i e⟩) :
    (Prog.request (LaunchReq.setEntry i e)).Meets (LaunchStep checked may) asked (fun _ => True) post ⟨w, table⟩ := by
  refine ⟨trivial, ha, ⟨_, _, .setEntry⟩, fun x t ht => ?_⟩
  cases ht with
  | setEntry => exact ⟨trivial, hp⟩

def tableSet (a len : Word) (writable : Bool) (table : ℕ → Word) (i : ℕ) : Word :=
  if (zoneFirst a).toNat / 4096 ≤ i ∧ i < (zoneLast a len).toNat / 4096 then withWritable writable (table i)
  else table i

lemma zoneFirst_spec (a : Word) : 0x80000 ≤ (zoneFirst a).toNat ∧ (zoneFirst a).toNat % 4096 = 0 := by
  have hs : userZoneStart.toNat = 0x80000 := rfl
  have hm := and_not_low a (m := 0xFFF) (k := 12) (by decide)
  rw [zoneFirst]
  split <;> rename_i h <;> rw [BitVec.lt_def, hs] at h <;> omega

lemma zoneLast_spec (a len : Word) : (zoneLast a len).toNat ≤ 0x100000 ∧ (zoneLast a len).toNat % 4096 = 0 := by
  have hs : userZoneEnd.toNat = 0x100000 := rfl
  have hm := and_not_low (a + len + 0xFFF) (m := 0xFFF) (k := 12) (by decide)
  rw [zoneLast]
  split <;> rename_i h <;> rw [BitVec.lt_def, hs] at h <;> omega

lemma meets_zone_entries {post : Unit → LaunchState → Prop} (he : ∀ i, 128 ≤ i → i < 256 → asked (.entry i))
    (hs : ∀ i e, 128 ≤ i → i < 256 → asked (.setEntry i e)) (hp : post () ⟨w, tableSet a len writable table⟩) :
    (pagingSetUserWritable a len writable).Meets (LaunchStep checked may) asked (fun _ => True) post
      ⟨w, table⟩ := by
  obtain ⟨hlo, hloa⟩ := zoneFirst_spec a
  obtain ⟨hhi, hhia⟩ := zoneLast_spec a len
  -- before the round for page `v` the pages below it are done
  refine Prog.meets_iterate (fun n v s => v.toNat % 4096 = 0 ∧ (zoneFirst a).toNat ≤ v.toNat ∧
      (v = zoneFirst a ∧ n = 2 ^ 20 ∨ v.toNat ≤ (zoneLast a len).toNat ∧ 0x100 < n + v.toNat / 4096) ∧
      s = ⟨w, fun i => if (zoneFirst a).toNat / 4096 ≤ i ∧ i < v.toNat / 4096 then withWritable writable (table i)
        else table i⟩) ?_ ?_ _ _ _ ⟨hloa, le_rfl, .inl ⟨rfl, rfl⟩, ?_⟩
  · rintro n v s ⟨hva, hv, hle, rfl⟩
    by_cases hlt : v < zoneLast a len
    · rw [if_pos hlt]
      rw [BitVec.lt_def] at hlt
      have hnext : (v + 0x1000).toNat = v.toNat + 4096 := by
        rw [BitVec.toNat_add]
        have : (0x1000 : Word).toNat = 4096 := rfl
        omega
      have hidx : (v >>> 12).toNat = v.toNat / 4096 := by
        rw [BitVec.toNat_ushiftRight, Nat.shiftRight_eq_div_pow]
      have hpage : 128 ≤ (v >>> 12).toNat ∧ (v >>> 12).toNat < 256 := by omega
      refine Prog.Meets.bind (meets_getEntry (he _ hpage.1 hpage.2)
        (Prog.Meets.bind (meets_setEntry (hs _ _ hpage.1 hpage.2) ⟨trivial, ?_⟩)))
      dsimp only
      rw [hnext, hidx]
      refine ⟨by omega, by omega, .inr ⟨by omega, by omega⟩, ?_⟩
      refine congrArg (LaunchState.mk w) (funext fun i => ?_)
      by_cases hi : i = v.toNat / 4096
      · subst hi
        rw [Function.update_self, if_neg (by omega), if_pos (by omega)]
      · rw [Function.update_of_ne hi]
        exact if_congr (by omega) rfl rfl
    · rw [if_neg hlt]
      refine ⟨trivial, ?_⟩
      rw [BitVec.lt_def] at hlt
      have htable : (fun i => if (zoneFirst a).toNat / 4096 ≤ i ∧ i < v.toNat / 4096 then
          withWritable writable (table i) else table i) = tableSet a len writable table := by
        funext i
        refine if_congr ?_ rfl rfl
        rcases hle with ⟨rfl, _⟩ | hle
        · omega
        · rw [show v.toNat = (zoneLast a len).toNat by omega]
      rw [htable]
      exact hp
  · rintro v s ⟨_, _, hle, _⟩
    omega
  · refine congrArg (LaunchState.mk w) (funext fun i => ?_)
    rw [if_neg (by omega)]

lemma meets_pagingSetUserWritable {post : Unit → LaunchState → Prop} (he : ∀ i, asked (.entry i))
    (hs : ∀ i e, asked (.setEntry i e)) (hp : post () ⟨w, tableSet a len writable table⟩) :
    (pagingSetUserWritable a len writable).Meets (LaunchStep checked may) asked (fun _ => True) post
      ⟨w, table⟩ :=
  meets_zone_entries (fun i _ _ => he i) (fun i e _ _ => hs i e) hp

def tablePhdr (table : ℕ → Word) (p : Phdr) : ℕ → Word :=
  if p.readOnly then tableSet p.vaddr p.memsz false table else table

def tableProtect (ps : List Phdr) (table : ℕ → Word) : ℕ → Word := ps.foldl tablePhdr table

lemma meets_protectPhdr {p : Phdr} {post : Unit → LaunchState → Prop} (he : ∀ i, asked (.entry i))
    (hs : ∀ i e, asked (.setEntry i e)) (hp : post () ⟨w, tablePhdr table p⟩) :
    (protectPhdr p).Meets (LaunchStep checked may) asked (fun _ => True) post ⟨w, table⟩ := by
  rw [tablePhdr] at hp
  rw [protectPhdr]
  split
  · rename_i hro
    rw [if_pos hro] at hp
    exact meets_pagingSetUserWritable he hs hp
  · rename_i hro
    rw [if_neg hro] at hp
    exact ⟨trivial, hp⟩

def AskedLoad (asked : LaunchReq → Prop) (e : Req) : Prop := (∃ a, e = .load a) ∧ asked (.kernel e)

lemma meets_lift_loads {α : Type} {p : Kernel α} {post : α → LaunchState → Prop} (hc : ∀ a, checked (.load a) = none)
    (h : p.Meets (Transfer may) (AskedLoad asked) (fun _ => True) (fun x t => post x ⟨t, table⟩) w) :
    (lift p).Meets (LaunchStep checked may) asked (fun _ => True) post ⟨w, table⟩ := by
  refine meets_lift h ?_ fun e he => he.2
  rintro e ⟨⟨b, rfl⟩, _⟩ a ha
  rw [hc] at ha
  cases ha

lemma meets_elfProtect {post : Unit → LaunchState → Prop} (hc : ∀ a, checked (.load a) = none)
    (hoff : ∀ j < 4, asked (.kernel (.load (addr (addr image 28) j))))
    (hnum : ∀ j < 2, asked (.kernel (.load (addr (addr image 44) j))))
    (htab : ∀ i < phnumOf w.mem image, ∀ j < phdrSize,
      asked (.kernel (.load (addr (addr (image + phoffOf w.mem image) (i * phdrSize)) j))))
    (he : ∀ i, asked (.entry i)) (hs : ∀ i e, asked (.setEntry i e))
    (hp : post () ⟨w, tableProtect (phdrsOf w.mem image) table⟩) :
    (elfProtect image).Meets (LaunchStep checked may) asked (fun _ => True) post ⟨w, table⟩ := by
  have hlt : phnumOf w.mem image < 2 ^ 16 := halfAt_lt _ _
  refine Prog.Meets.bind (meets_lift_loads hc (meets_load32 (fun j hj => ⟨⟨_, rfl⟩, hoff j hj⟩) ?_))
  refine Prog.meets_iterate (fun n i s => n + i = 2 ^ 16 ∧ i ≤ phnumOf w.mem image ∧
      s = ⟨w, tableProtect ((List.range i).map (phdrAt w.mem (image + phoffOf w.mem image))) table⟩) ?_ ?_ _ _ _
    ⟨Nat.add_zero _, Nat.zero_le _, rfl⟩
  · rintro n i s ⟨hn, hi, rfl⟩
    refine Prog.Meets.bind (meets_lift_loads hc (meets_load16 (fun j hj => ⟨⟨_, rfl⟩, hnum j hj⟩) ?_))
    rw [show halfAt w.mem (addr image 44) = phnumOf w.mem image from rfl]
    by_cases hlast : i < phnumOf w.mem image
    · rw [if_pos hlast]
      refine Prog.Meets.bind (meets_lift_loads hc (meets_readPhdr (fun j hj => ⟨⟨_, rfl⟩, htab i hlast j hj⟩) ?_))
      refine Prog.Meets.bind (meets_protectPhdr he hs ⟨trivial, by omega, hlast, ?_⟩)
      rw [tableProtect, tableProtect, List.range_succ, List.map_append, List.foldl_append]
      rfl
    · rw [if_neg hlast]
      obtain rfl : i = phnumOf w.mem image := by omega
      exact ⟨trivial, hp⟩
  · rintro i s ⟨hn, hi, _⟩
    omega

/-! ### Permissions -/

lemma isWritable_withWritable (b : Bool) (e : Word) : isWritable (withWritable b e) = b := by
  rw [isWritable_bit, withWritable, BitVec.getLsbD_or, BitVec.getLsbD_and, BitVec.getLsbD_not, pfRw_bit]
  cases b <;> simp [pfRw_bit]

lemma withWritable_bits (writable : Bool) (e : Word) : withWritable writable e &&& ~~~pfRw = e &&& ~~~pfRw := by
  apply BitVec.eq_of_getLsbD_eq
  intro j hj
  have hor : (if writable then pfRw else (0 : Word)).getLsbD j = (writable && pfRw.getLsbD j) := by
    cases writable <;> simp
  simp only [withWritable, BitVec.getLsbD_and, BitVec.getLsbD_or, BitVec.getLsbD_not, hor, hj, decide_true]
  cases pfRw.getLsbD j <;> simp

lemma tableSet_outside {i : ℕ} (h : i < 128 ∨ 256 ≤ i) : tableSet a len writable table i = table i := by
  have h₁ := zoneFirst_spec a
  have h₂ := zoneLast_spec a len
  rw [tableSet, if_neg (by omega)]

lemma zone_pages {i : ℕ} (hlen : 0 < len.toNat) (hsum : a.toNat + len.toNat + 0xFFF < 2 ^ 32) (h₁ : 128 ≤ i)
    (h₂ : i < 256) :
    (zoneFirst a).toNat / 4096 ≤ i ∧ i < (zoneLast a len).toNat / 4096 ↔
      a.toNat < 4096 * (i + 1) ∧ 4096 * i < a.toNat + len.toNat := by
  have hstart : userZoneStart.toNat = 0x80000 := rfl
  have hstop : userZoneEnd.toNat = 0x100000 := rfl
  have hfirst : (zoneFirst a).toNat / 4096 ≤ i ↔ a.toNat < 4096 * (i + 1) := by
    have hm := and_not_low a (m := 0xFFF) (k := 12) (by decide)
    rw [zoneFirst]
    split <;> rename_i h <;> rw [BitVec.lt_def, hstart] at h <;> omega
  have hlast : i < (zoneLast a len).toNat / 4096 ↔ 4096 * i < a.toNat + len.toNat := by
    have hm := and_not_low (a + len + 0xFFF) (m := 0xFFF) (k := 12) (by decide)
    have hadd : (a + len + 0xFFF).toNat = a.toNat + len.toNat + 4095 := by
      rw [BitVec.toNat_add, BitVec.toNat_add, show (0xFFF : Word).toNat = 4095 from rfl]
      omega
    rw [zoneLast]
    split <;> rename_i h <;> rw [BitVec.lt_def, hstop] at h <;> omega
  rw [hfirst, hlast]

def ZoneEntry : LaunchReq → Prop
  | .entry i | .setEntry i _ => 128 ≤ i ∧ i < 256
  | _ => False

def MeetsPage (a len : Word) (i : ℕ) : Prop := ∃ x : ℕ, a.toNat ≤ x ∧ x < a.toNat + len.toNat ∧ x / 4096 = i

lemma meetsPage_iff {i : ℕ} (hlen : 0 < len.toNat) :
    MeetsPage a len i ↔ a.toNat < 4096 * (i + 1) ∧ 4096 * i < a.toNat + len.toNat := by
  constructor
  · rintro ⟨x, h₁, h₂, rfl⟩
    omega
  · rintro ⟨h₁, h₂⟩
    exact ⟨max a.toNat (4096 * i), le_max_left _ _, by omega, by omega⟩

/-- Whatever the arguments, only the writable bits of pages of the zone change; without a wrap, those of the pages that the
range meets. -/
theorem set_user_writable_confined (checked : Req → Option Word) (may : Req → Prop) (a len : Word) (writable : Bool)
    (w : World) (table : ℕ → Word) :
    (pagingSetUserWritable a len writable).Terminates (LaunchStep checked may) ⟨w, table⟩ ∧
    (∀ e, (pagingSetUserWritable a len writable).Asks (LaunchStep checked may) ⟨w, table⟩ e → ZoneEntry e) ∧
    ∀ t, (pagingSetUserWritable a len writable).Reaches (LaunchStep checked may) ⟨w, table⟩ (pure ()) t →
      t.world = w ∧
      (∀ i, t.table i ≠ table i → 0x80000 ≤ 4096 * i ∧ 4096 * i < 0x100000 ∧
        t.table i &&& ~~~pfRw = table i &&& ~~~pfRw ∧ isWritable (t.table i) = writable) ∧
      (0 < len.toNat → a.toNat + len.toNat + 0xFFF ≤ 2 ^ 32 - 1 → ∀ i, 0x80000 ≤ 4096 * i → 4096 * i < 0x100000 →
        (MeetsPage a len i → isWritable (t.table i) = writable) ∧ (¬ MeetsPage a len i → t.table i = table i)) := by
  have hm : (pagingSetUserWritable a len writable).Meets (LaunchStep checked may) ZoneEntry (fun _ => True)
      (fun _ t => t = ⟨w, tableSet a len writable table⟩) ⟨w, table⟩ :=
    meets_zone_entries (fun _ h₁ h₂ => ⟨h₁, h₂⟩) (fun _ _ h₁ h₂ => ⟨h₁, h₂⟩) rfl
  refine ⟨hm.terminates, fun e => hm.asks, fun t ht => ?_⟩
  obtain rfl := hm.result ht
  refine ⟨rfl, fun i hne => ?_, fun hlen hsum i h₁ h₂ => ?_⟩
  · dsimp only at hne ⊢
    have hzone : 128 ≤ i ∧ i < 256 := by
      by_contra hout
      exact hne (tableSet_outside (by omega))
    rw [tableSet] at hne ⊢
    split at hne
    · rename_i hin
      rw [if_pos hin]
      exact ⟨by omega, by omega, withWritable_bits _ _, isWritable_withWritable _ _⟩
    · exact absurd rfl hne
  · dsimp only
    rw [tableSet, meetsPage_iff hlen, ← zone_pages hlen (by omega) (by omega) (by omega)]
    refine ⟨fun hin => ?_, fun hout => if_neg hout⟩
    rw [if_pos hin]
    exact isWritable_withWritable _ _

lemma tableProtect_outside {i : ℕ} (h : i < 128 ∨ 256 ≤ i) : tableProtect ps table i = table i := by
  induction ps generalizing table with
  | nil => rfl
  | cons p ps ih =>
    refine ih.trans ?_
    rw [tablePhdr]
    split
    · exact tableSet_outside h
    · rfl

def KernelWritable (table : ℕ → Word) : Prop := ∀ i < 1024, i < 128 ∨ 256 ≤ i → isWritable (table i)

def tableReset (table : ℕ → Word) : ℕ → Word :=
  tableSet userZoneStart (userZoneEnd - userZoneStart) true table

lemma KernelWritable.reset (h : KernelWritable table) (ha : a.toNat < 0x400000) : Writable (tableReset table) a := by
  have h₁ : (zoneFirst userZoneStart).toNat = 0x80000 := by decide
  have h₂ : (zoneLast userZoneStart (userZoneEnd - userZoneStart)).toNat = 0x100000 := by decide
  refine ⟨ha, ?_⟩
  rw [tableReset, tableSet, h₁, h₂]
  split
  · exact isWritable_withWritable true _
  · exact h _ (by omega) (by omega)

end PyroOS
