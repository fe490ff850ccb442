import PyroOS.Launch.Intact
import PyroOS.Process.Reachable
import PyroOS.Syscall.Confinement

/-! No store of the kernel hits a read-only page while programs are launched. -/

namespace PyroOS

open Interaction Kernel

/-- The tables that `paging_install` and commands after it leave. Between the commands files, lines and
variables change freely; a transfer of the disk may fail. -/
inductive Launched (k : BootDir) (b : Buffers) : (ℕ → Word) → Prop
  | boot {first second : Word} {m : PhysMem} : first ≠ second → first ≠ k.dir →
    Launched k b (pagingInstall k first second m first)
  | command {table : ℕ → Word} {c : Command} {st st' : KState} {w : World} {t : LaunchState} : Launched k b table →
    (c.program k b st).Reaches (LaunchStep Req.written fun _ => True) ⟨w, table⟩ (pure st') t → Launched k b t.table

def StoresBelow (n : ℕ) (e : Req) : Prop := ∀ a ∈ e.written, a.toNat < n

def ScreenReq : Req → Prop
  | .peek a | .poke a _ => InVideo a
  | _ => False

variable {may : Req → Prop} {w : World} {table : ℕ → Word} {n : ℕ} {k : BootDir} {b : Buffers} {st : KState}
  {size : Word} {tail : List Byte} {upid : ℤ} {scr : Screen}

lemma pagingInstall_writable {first second : Word} {m : PhysMem} (h₁ : first ≠ second) (h₂ : first ≠ k.dir) (i : ℕ) :
    isWritable (pagingInstall k first second m first i) := by
  rw [pagingInstall, PhysMem.setPage, Function.update_of_ne h₂, PhysMem.setPage, Function.update_of_ne h₁,
    PhysMem.setPage, Function.update_self]
  dsimp only
  split <;> rw [isWritable_bit] <;> simp [pfRw_bit]

lemma KernelWritable.below (h : KernelWritable table) (a : Word) (ha : a.toNat < 0x80000) : Writable table a :=
  ⟨by omega, h _ (by omega) (by omega)⟩

lemma KernelWritable.afterReset (h : KernelWritable table) : KernelWritable (tableReset table) := fun i hi ho => by
  rw [tableReset, tableSet_outside ho]
  exact h i hi ho

lemma KernelWritable.afterProtect {ps : List Phdr} (h : KernelWritable table) :
    KernelWritable (tableProtect ps table) :=
  fun i hi ho => by
    rw [tableProtect_outside ho]
    exact h i hi ho

lemma stored_written {e : Req} {a : Word} (h : a ∈ e.stored) : a ∈ e.written := by
  cases e with
  | store _ _ => exact h
  | _ => cases h

section

variable {α : Type} {p : Kernel α} {post : α → LaunchState → Prop}

lemma meets_lift_below (hall : ∀ a, a.toNat < n → Writable table a)
    (h : p.Meets (Transfer may) (StoresBelow n) (fun _ => True) (fun x t => post x ⟨t, table⟩) w) :
    (lift p).Meets (LaunchStep Req.stored may) (fun _ => True) (fun _ => True) post ⟨w, table⟩ :=
  meets_lift h (fun _ he a ha => hall a (he a (stored_written ha))) fun _ _ => trivial

end

lemma storesBelow_load (a : Word) : StoresBelow n (.load a) := nofun

section

variable {checked : Req → Option Word} {text : List Byte} {post : Screen → LaunchState → Prop}
  (hc : ∀ e, ScreenReq e → ∀ a ∈ checked e, Writable table a) (hp : ∀ x t, post x ⟨t, table⟩)
include hc hp

lemma meets_text_checked :
    (lift (kprintText text scr)).Meets (LaunchStep checked may) (fun _ => True) (fun _ => True) post ⟨w, table⟩ :=
  meets_lift (meets_kprintText (fun _ => True) (fun _ _ _ _ _ => trivial) (fun _ ha => ha) (fun _ _ ha => ha) trivial
    fun x t _ => hp x t) hc fun _ _ => trivial

lemma meets_colorText_checked {color : Byte} :
    (lift (kprintColor text color scr)).Meets (LaunchStep checked may) (fun _ => True) (fun _ => True) post
      ⟨w, table⟩ :=
  meets_lift (meets_kprintColor (fun _ => True) (fun _ _ _ _ _ => trivial) (fun _ ha => ha) (fun _ _ ha => ha) trivial
    fun x t _ => hp x t) hc fun _ _ => trivial

end

lemma screenReq_stored {e : Req} (h : ScreenReq e) : ∀ a ∈ e.stored, Writable table a := by
  intro a ha
  cases e with
  | store _ _ => exact h.elim
  | _ => cases ha

lemma meets_text {text : List Byte} {post : Screen → LaunchState → Prop} (hp : ∀ x t, post x ⟨t, table⟩) :
    (lift (kprintText text scr)).Meets (LaunchStep Req.stored may) (fun _ => True) (fun _ => True) post ⟨w, table⟩ :=
  meets_text_checked (fun _ => screenReq_stored) hp

lemma meets_colorText {text : List Byte} {color : Byte} {post : Screen → LaunchState → Prop}
    (hp : ∀ x t, post x ⟨t, table⟩) :
    (lift (kprintColor text color scr)).Meets (LaunchStep Req.stored may) (fun _ => True) (fun _ => True) post
      ⟨w, table⟩ :=
  meets_colorText_checked (fun _ => screenReq_stored) hp

lemma meets_args {post : Word → LaunchState → Prop} (hall : ∀ a, a.toNat < 0x400000 → Writable table a)
    (hlen : tail.length < lineMax) (hp : ∀ x t, post x ⟨t, table⟩) :
    (lift (argsFor tail)).Meets (LaunchStep Req.stored may) (fun _ => True) (fun _ => True) post ⟨w, table⟩ := by
  have hplace := argStack_userStackTop tail
  refine meets_lift_below hall (meets_argsFor hlen (fun i hi x a ha => ?_) (hp _ _))
  obtain rfl := Option.some.inj ha
  exact addr_lt (by omega) (by omega)

lemma meets_emptyArgs {post : Word → LaunchState → Prop} (hall : ∀ a, a.toNat < 0x400000 → Writable table a)
    (hp : ∀ x t, post x ⟨t, table⟩) :
    (lift (argsBuild [] userStackTop)).Meets (LaunchStep Req.stored may) (fun _ => True) (fun _ => True) post
      ⟨w, table⟩ := by
  have hplace := argStack_userStackTop []
  have hnil : [] = splitArgs argMax [] := rfl
  refine meets_lift_below hall (meets_argsBuild hnil (by decide) (fun _ i hi x a ha => ?_) (fun _ => hp _ _)
    fun _ => hp _ _)
  obtain rfl := Option.some.inj ha
  exact addr_lt (by rw [show argsOf [] = [] from rfl] at hplace; omega) (by omega)

lemma meets_startElf {img entry : Word} {post : Option (Word × Word) × Screen → LaunchState → Prop}
    (h : KernelWritable table) (hlen : tail.length < lineMax) (hp : ∀ x t, KernelWritable t.table → post x t) :
    (startElf img tail upid entry scr).Meets (LaunchStep Req.stored may) (fun _ => True) (fun _ => True) post
      ⟨w, tableReset table⟩ :=
  Prog.Meets.bind (meets_text fun _ _ => Prog.Meets.bind (meets_args (fun _ => h.reset) hlen fun _ _ =>
    Prog.Meets.bind (meets_elfProtect (fun _ => rfl) (fun _ _ => trivial) (fun _ _ => trivial) (fun _ _ _ _ => trivial)
      (fun _ => trivial) (fun _ _ => trivial) ⟨trivial, hp _ _ h.afterReset.afterProtect⟩)))

lemma meets_pagingReset {post : Unit → LaunchState → Prop} (hp : post () ⟨w, tableReset table⟩) :
    pagingResetUserZone.Meets (LaunchStep Req.stored may) (fun _ => True) (fun _ => True) post ⟨w, table⟩ :=
  meets_pagingSetUserWritable (fun _ => trivial) (fun _ _ => trivial) hp

lemma meets_prepareElf {post : Option (Word × Word) × Screen → LaunchState → Prop} (h : KernelWritable table)
    (hsize : size.toNat ≤ imgSize.toNat) (hlen : tail.length < lineMax)
    (hp : ∀ x t, KernelWritable t.table → post x t) :
    (prepareElf b.img size tail upid scr).Meets (LaunchStep Req.stored may) (fun _ => True) (fun _ => True) post
      ⟨w, table⟩ := by
  have himg := b.img_le
  have hstart : userLoadAddr.toNat = 0x80000 := rfl
  have hstop : userStackTop.toNat = 0xF0000 := rfl
  refine Prog.Meets.bind (meets_pagingReset (Prog.Meets.bind (meets_lift_below (fun _ => h.reset) ?_)))
  refine meets_elfLoad (fun _ _ => storesBelow_load _) ?_ (apart_of_le (by omega)) ?_ ?_
  · intro a x _ hhi y hy
    obtain rfl := Option.some.inj hy
    rw [BitVec.lt_def, hstop] at hhi
    omega
  · intro _ _ _ _
    exact meets_startElf h hlen hp
  · intro rc hrc
    rw [if_pos hrc]
    exact Prog.Meets.bind (meets_colorText fun _ _ => Prog.Meets.bind (meets_text fun _ _ =>
      ⟨trivial, hp _ _ h.afterReset⟩))

lemma meets_copyProgram {src : Word} {post : Unit → LaunchState → Prop} (h : KernelWritable table)
    (hsrc : src.toNat + size.toNat ≤ 0x80000) (hp : ∀ t, post () ⟨t, tableReset table⟩) :
    (lift (memcpy userLoadAddr src size.toNat)).Meets (LaunchStep Req.stored may) (fun _ => True) (fun _ => True)
      post ⟨w, tableReset table⟩ := by
  have hstart : userLoadAddr.toNat = 0x80000 := rfl
  refine meets_lift_below (fun _ => h.reset) (meets_memcpy (by omega) (fun _ _ => trivial)
    (fun _ _ => storesBelow_load _) (fun i hi x a ha => ?_) (fun i hi => ?_) (hp _))
  · obtain rfl := Option.some.inj ha
    rw [addr, BitVec.toNat_add, BitVec.toNat_ofNat]
    omega
  · rw [BitVec.toNat_sub, addr, BitVec.toNat_add, BitVec.toNat_ofNat]
    omega

lemma meets_prepareFlat {post : Option (Word × Word) × Screen → LaunchState → Prop} (h : KernelWritable table)
    (hsize : size.toNat ≤ imgSize.toNat) (hlen : tail.length < lineMax)
    (hp : ∀ x t, KernelWritable t.table → post x t) :
    (prepareFlat b.img size tail scr).Meets (LaunchStep Req.stored may) (fun _ => True) (fun _ => True) post
      ⟨w, table⟩ := by
  have himg := b.img_le
  exact Prog.Meets.bind (meets_pagingReset (Prog.Meets.bind (meets_copyProgram h (by omega) fun _ =>
    Prog.Meets.bind (meets_text fun _ _ => Prog.Meets.bind (meets_args (fun _ => h.reset) hlen fun _ _ =>
      ⟨trivial, hp _ _ h.afterReset⟩)))))

lemma meets_prepare {post : Option (Word × Word) × Screen → LaunchState → Prop} (h : KernelWritable table)
    (hsize : size.toNat ≤ imgSize.toNat) (hlen : tail.length < lineMax)
    (hp : ∀ x t, KernelWritable t.table → post x t) :
    (prepare b.img size tail upid scr).Meets (LaunchStep Req.stored may) (fun _ => True) (fun _ => True) post
      ⟨w, table⟩ := by
  refine Prog.Meets.bind
    (meets_lift_below h.below (meets_elfValidate (fun _ _ => storesBelow_load _) (fun st hst => ?_) fun _ => ?_))
  · rw [if_neg hst]
    exact meets_prepareFlat h hsize hlen hp
  · rw [if_pos rfl]
    exact meets_prepareElf h hsize hlen hp

lemma meets_runUserAtSp_checked {checked : Req → Option Word} {entry esp : Word} {post : KState → LaunchState → Prop}
    (hc : ∀ table', (∀ i, isWritable (table' i) = isWritable (table i)) → ∀ e, ScreenReq e →
      ∀ a ∈ checked e, Writable table' a)
    (hp : ∀ x t, (∀ i, isWritable (t.table i) = isWritable (table i)) → post x t) :
    (runUserAtSp entry esp st).Meets (LaunchStep checked may) (fun _ => True) (fun _ => True) post ⟨w, table⟩ := by
  refine Prog.Meets.bind ⟨trivial, trivial, ⟨(false, st), ⟨w, table⟩, .enterUser fun _ => rfl⟩, fun r s hs => ?_⟩
  cases hs with
  | enterUser hsame =>
    refine ⟨trivial, Prog.Meets.bind ?_⟩
    dsimp only
    split
    · exact meets_colorText_checked (hc _ hsame) fun _ _ => ⟨trivial, hp _ _ hsame⟩
    · exact meets_text_checked (hc _ hsame) fun _ _ => ⟨trivial, hp _ _ hsame⟩

lemma meets_runUserAtSp {entry esp : Word} {post : KState → LaunchState → Prop} (h : KernelWritable table)
    (hp : ∀ x t, KernelWritable t.table → post x t) :
    (runUserAtSp entry esp st).Meets (LaunchStep Req.stored may) (fun _ => True) (fun _ => True) post ⟨w, table⟩ :=
  meets_runUserAtSp_checked (fun _ _ _ => screenReq_stored) fun _ _ hsame =>
    hp _ _ fun i hi ho => (hsame i).trans (h i hi ho)

lemma meets_launchProgram {post : KState → LaunchState → Prop} (h : KernelWritable table)
    (hsize : size.toNat ≤ imgSize.toNat) (hlen : tail.length < lineMax)
    (hp : ∀ x t, KernelWritable t.table → post x t) :
    (launchProgram k b size tail st).Meets (LaunchStep Req.stored may) (fun _ => True) (fun _ => True) post
      ⟨w, table⟩ := by
  refine Prog.Meets.bind (meets_prepare h hsize hlen fun r t ht => ?_)
  dsimp only
  split
  · exact ⟨trivial, hp _ _ ht⟩
  · exact Prog.Meets.bind (meets_runUserAtSp ht fun _ _ h' => ⟨trivial, hp _ _ h'⟩)

def nameCopied (b : Buffers) (tail : List Byte) (w : World) : World :=
  { w with mem := blit w.mem b.name ((nameOf tail).length + 1) fun j => (nameOf tail).getD j 0 }

lemma cstring_name (h : (0 : Byte) ∉ tail) : CString (nameCopied b tail w).mem b.name (nameOf tail) := by
  change CString (blit w.mem b.name ((nameOf tail).length + 1) fun j => (nameOf tail).getD j 0) b.name (nameOf tail)
  have hlen : (nameOf tail).length ≤ 23 := List.length_take_le _ _
  refine ⟨fun i hi => ⟨?_, ?_⟩, ?_⟩
  · rw [blit, addr_sub _ (by omega), if_pos (by omega), List.getD_eq_getElem _ _ hi]
  · intro hz
    have hmem : (nameOf tail)[i] ∈ tail :=
      (List.takeWhile_prefix _).subset ((List.take_subset _ _) (List.getElem_mem hi))
    rw [hz] at hmem
    exact h hmem
  · rw [blit, addr_sub _ (by omega), if_pos (by omega), List.getD_eq_default _ _ le_rfl]

lemma meets_nameCopy {post : Unit → World → Prop} (hp : post () (nameCopied b tail w)) :
    (memcpyTo b.name (fun j => (nameOf tail).getD j 0) ((nameOf tail).length + 1)).Meets (Transfer may)
      (StoresBelow 0x80000) (fun _ => True) post w := by
  have hname := b.name_le
  have hlong : (nameOf tail).length ≤ 23 := List.length_take_le _ _
  rw [nameMax] at hname
  refine meets_memcpyTo (by omega) (fun _ _ => trivial) (fun i hi a ha => ?_) hp
  obtain rfl := Option.some.inj ha
  exact addr_lt (by omega) (by omega)

lemma meets_fileRead {fs : Fs} {post : ℤ × Option Word → World → Prop} (hnul : (0 : Byte) ∉ tail)
    (hp : ∀ r t, (∀ x ∈ r.2, x.toNat ≤ imgSize.toNat) → post r t) :
    (fsRead b.name b.img imgSize fs).Meets (Transfer may) (StoresBelow 0x80000) (fun _ => True) post
      (nameCopied b tail w) := by
  have himg := b.img_le
  have hlong : (nameOf tail).length ≤ 23 := List.length_take_le _ _
  refine meets_fsRead_stores (fun _ => trivial) (cstring_name hnul) (by omega) (by decide)
    (fun _ _ => storesBelow_load _) (fun _ a ha => (by cases ha)) (fun i _ _ j hj x a ha => ?_) hp
  obtain rfl := Option.some.inj ha
  exact addr_lt (by omega) (by omega)

lemma Line.tail_spec (line : Line) : (line.chars.dropWhile (· = 0x20)).length < lineMax ∧
    (0 : Byte) ∉ line.chars.dropWhile (· = 0x20) :=
  ⟨lt_of_le_of_lt (List.dropWhile_suffix _).length_le line.length_lt,
    fun hm => line.noNul ((List.dropWhile_suffix _).subset hm)⟩

lemma meets_shellExec {line : Line} {post : KState → LaunchState → Prop} (h : KernelWritable table)
    (hp : ∀ x t, KernelWritable t.table → post x t) :
    (shellExec k b line st).Meets (LaunchStep Req.stored may) (fun _ => True) (fun _ => True) post ⟨w, table⟩ := by
  rw [shellExec]
  obtain ⟨hlen, hnul⟩ := line.tail_spec
  generalize line.chars.dropWhile (· = 0x20) = tail at hlen hnul
  refine Prog.Meets.bind (meets_lift_below h.below (meets_nameCopy ?_))
  refine Prog.Meets.bind (meets_lift_below h.below (meets_fileRead hnul fun r t hr => ?_))
  split
  · exact Prog.Meets.bind (meets_colorText fun _ _ => ⟨trivial, hp _ _ h⟩)
  · refine meets_launchProgram h ?_ hlen hp
    cases hx : r.2 with
    | none => exact Nat.zero_le _
    | some x => exact hr x hx

lemma meets_shellUser {post : KState → LaunchState → Prop} (h : KernelWritable table)
    (hp : ∀ x t, KernelWritable t.table → post x t) :
    (shellUser b st).Meets (LaunchStep Req.stored may) (fun _ => True) (fun _ => True) post ⟨w, table⟩ := by
  have hprog := b.prog_le
  refine Prog.Meets.bind (meets_text fun _ _ => Prog.Meets.bind (meets_pagingReset (Prog.Meets.bind
    (meets_copyProgram h (by omega) fun _ => ?_))))
  exact Prog.Meets.bind (meets_emptyArgs (fun _ => h.reset) fun _ _ => meets_runUserAtSp h.afterReset hp)

lemma meets_program {c : Command} (h : KernelWritable table) :
    (c.program k b st).Meets (LaunchStep Req.stored may) (fun _ => True) (fun _ => True)
      (fun _ t => KernelWritable t.table) ⟨w, table⟩ := by
  cases c with
  | exec line => exact meets_shellExec h fun _ _ ht => ht
  | user => exact meets_shellUser h fun _ _ ht => ht

lemma launchStep_stored {s t : LaunchState} {e : LaunchReq} {x : e.Reply} (h : LaunchStep Req.written may s e x t) :
    LaunchStep Req.stored may s e x t := by
  cases h with
  | kernel hw ht => exact .kernel (fun a ha => hw a (stored_written ha)) ht
  | entry => exact .entry
  | setEntry => exact .setEntry
  | enterUser hs => exact .enterUser hs

lemma Launched.kernelWritable (h : Launched k b table) : KernelWritable table := by
  induction h with
  | boot h₁ h₂ => exact fun i _ _ => pagingInstall_writable h₁ h₂ i
  | command _ hr ih => exact (meets_program ih).result (hr.mono fun _ _ _ _ => launchStep_stored)

theorem launch_stores_writable {k : BootDir} {b : Buffers} {table : ℕ → Word} {c : Command} {st : KState} {w : World}
    {t : LaunchState} {a : Word} {x : Byte} {next : Unit → Launch KState} (h : Launched k b table)
    (hr : (c.program k b st).Reaches (LaunchStep Req.written fun _ => True) ⟨w, table⟩
      (.ask (.kernel (.store a x)) next) t) : Writable t.table a := by
  have hm := (meets_program h.kernelWritable).reaches (hr.mono fun _ _ _ _ => launchStep_stored)
  obtain ⟨_, _, ⟨_, _, hstep⟩, _⟩ := hm
  cases hstep with
  | kernel hw _ => exact hw a rfl

/-! ### A launch after a read-only executable -/

lemma launchStep_may {checked : Req → Option Word} {s t : LaunchState} {e : LaunchReq} {x : e.Reply}
    (h : LaunchStep checked (fun _ => False) s e x t) : LaunchStep checked may s e x t := by
  cases h with
  | kernel hw ht =>
    refine .kernel hw ?_
    cases ht with
    | done h => exact .done h
    | readFails h => exact h.elim
    | writeFails h => exact h.elim
  | entry => exact .entry
  | setEntry => exact .setEntry
  | enterUser hs => exact .enterUser hs

lemma screenReq_written {e : Req} (hvid : isWritable (table 184)) (h : ScreenReq e) :
    ∀ a ∈ e.written, Writable table a := by
  intro a ha
  cases e with
  | poke c y =>
    obtain rfl := Option.some.inj ha
    have hin : 0xB8000 ≤ c.toNat ∧ c.toNat < 0xB8000 + 2 * 2000 := h
    refine ⟨by omega, ?_⟩
    rw [show c.toNat / 4096 = 184 by omega]
    exact hvid
  | store _ _ => exact h.elim
  | _ => cases ha

lemma Accepted.validated (h : Accepted b size w) : exec (elfValidate b.img size) w = some (.ok, w) := by
  obtain ⟨out, t, hrun⟩ := h
  obtain ⟨st, hval, _⟩ := exec_elfValidate w b.img size
  rw [elfLoad, exec_bind hval] at hrun
  by_cases hok : st = .ok
  · rw [hval, hok]
  · rw [if_pos hok] at hrun
    have hrc := (Prod.mk.inj (Prod.mk.inj (Option.some.inj hrun)).1).1
    exact absurd hrc (by decide)

lemma meets_launchElf (h : Accepted b size w) (hsize : size.toNat ≤ imgSize.toNat) (hlen : tail.length < lineMax)
    (hvid : isWritable (tableProtect (phdrsOf w.mem b.img) (tableReset table) 184)) :
    (launchProgram k b size tail st).Meets (LaunchStep Req.written fun _ => False) (fun _ => True) (fun _ => True)
      (fun _ t => ∀ i, isWritable (t.table i) = isWritable (tableProtect (phdrsOf w.mem b.img) (tableReset table) i))
      ⟨w, table⟩ := by
  have hval : (elfValidate b.img size).Meets (Transfer fun _ => False) (AskedLoad fun _ => True) (fun _ => True)
      (fun _ _ => True) w :=
    meets_elfValidate (fun _ _ => ⟨⟨_, rfl⟩, trivial⟩) (fun _ _ => trivial) fun _ => trivial
  have hprep : (prepare b.img size tail (procBeginUser k st.sys (some (nameOf tail))).2 st.screen).Meets
      (LaunchStep Req.written fun _ => False) (fun _ => True) (fun _ => True)
      (fun r t => (∃ x scr, r = (some x, scr)) ∧ t.table = tableProtect (phdrsOf w.mem b.img) (tableReset table))
      ⟨w, table⟩ := by
    refine Prog.Meets.bind (meets_lift_loads (fun _ => rfl) ((meets_exact hval h.validated).mono fun x t _ hx => ?_))
    obtain ⟨rfl, rfl⟩ := hx
    rw [if_pos rfl]
    refine ((meets_prepareElf_zone h hsize hlen).weaken (fun _ _ => trivial) fun _ h => h).mono fun r t _ ht => ?_
    obtain ⟨⟨scr, rfl⟩, _, htable⟩ := ht
    exact ⟨⟨_, scr, rfl⟩, htable⟩
  refine Prog.Meets.bind (hprep.mono fun r t _ ht => ?_)
  obtain ⟨⟨x, scr, rfl⟩, htable⟩ := ht
  dsimp only
  rw [← htable] at hvid ⊢
  exact Prog.Meets.bind (meets_runUserAtSp_checked
    (fun _ hsame _ => screenReq_written ((hsame 184).trans hvid)) fun _ _ hsame => ⟨trivial, hsame⟩)

lemma meets_shellExec_elf {line : Line} {t : World} (h : KernelWritable table)
    (htail : line.chars.dropWhile (· = 0x20) = tail)
    (hread : exec (fsRead b.name b.img imgSize st.fs) (nameCopied b tail w) = some ((0, some size), t))
    (hpos : size ≠ 0) (hacc : Accepted b size t)
    (hvid : isWritable (tableProtect (phdrsOf t.mem b.img) (tableReset table) 184)) :
    (shellExec k b line st).Meets (LaunchStep Req.written fun _ => False) (fun _ => True) (fun _ => True)
      (fun _ u => ∀ i, isWritable (u.table i) = isWritable (tableProtect (phdrsOf t.mem b.img) (tableReset table) i))
      ⟨w, table⟩ := by
  rw [shellExec, htail]
  obtain ⟨hlen, hnul⟩ := line.tail_spec
  rw [htail] at hlen hnul
  have hbelow : ∀ e, StoresBelow 0x80000 e → ∀ a ∈ e.written, Writable table a := fun _ he a ha => h.below a (he a ha)
  refine Prog.Meets.bind (meets_lift (meets_nameCopy ?_) hbelow fun _ _ => trivial)
  have hm : (fsRead b.name b.img imgSize st.fs).Meets (Transfer fun _ => False) (StoresBelow 0x80000) (fun _ => True)
      (fun r _ => ∀ x ∈ r.2, x.toNat ≤ imgSize.toNat) (nameCopied b tail w) := meets_fileRead hnul fun _ _ hr => hr
  obtain ⟨_, _, hr, hsize⟩ := exec_of_meets hm
  obtain ⟨rfl, rfl⟩ := Prod.mk.inj (Option.some.inj (hr.symm.trans hread))
  refine Prog.Meets.bind (meets_lift ((meets_exact hm hread).mono fun r u _ hr => ?_) hbelow fun _ _ => trivial)
  obtain ⟨rfl, rfl⟩ := hr
  rw [if_neg (by simpa using hpos)]
  exact meets_launchElf hacc (hsize _ rfl) hlen hvid

def sampleLine : Line := ⟨[0x61], by decide, by decide⟩

def sampleTable : ℕ → Word := pagingInstall sampleDir 0x21000 0x22000 (fun _ _ => 0) 0x21000

def elfState : KState :=
  { sampleState with fs := ⟨⟨0, 0, fun _ => 0⟩, fun i => if i = 0 then ⟨fun j => if j = 0 then 0x61 else 0, 88, 101, 1⟩
    else ⟨fun _ => 0, 0, 0, 0⟩, fun _ => 0⟩ }

def elfDisk : World := ⟨fun _ => 0, fun lba j => if lba = 101 then sampleElf.getD j 0 else 0, 0, 0⟩

lemma elfDisk_read : ∃ t,
    exec (fsRead sampleBuffers.name sampleBuffers.img imgSize elfState.fs) (nameCopied sampleBuffers [0x61] elfDisk) =
      some ((0, some 88), t) ∧ Accepted sampleBuffers 88 t ∧
    isWritable (tableProtect (phdrsOf t.mem sampleBuffers.img) (tableReset sampleTable) 128) = false ∧
    isWritable (tableProtect (phdrsOf t.mem sampleBuffers.img) (tableReset sampleTable) 184) = true := by
  have h : (exec (fsRead sampleBuffers.name sampleBuffers.img imgSize elfState.fs)
    (nameCopied sampleBuffers [0x61] elfDisk)).map (fun x =>
      (x.1, (exec (elfLoad sampleBuffers.img 88 userLoadAddr userStackTop) x.2).map (·.1.1),
        isWritable (tableProtect (phdrsOf x.2.mem sampleBuffers.img) (tableReset sampleTable) 128),
        isWritable (tableProtect (phdrsOf x.2.mem sampleBuffers.img) (tableReset sampleTable) 184))) =
      some ((0, some 88), some 0, false, true) := by decide +kernel
  obtain ⟨⟨r, t⟩, hrun, he⟩ := Option.map_eq_some_iff.mp h
  obtain ⟨rfl, he⟩ := Prod.mk.inj he
  obtain ⟨hacc, he⟩ := Prod.mk.inj he
  obtain ⟨hcode, hvid⟩ := Prod.mk.inj he
  exact ⟨t, hrun, accepted_of_eval hacc, hcode, hvid⟩

lemma elfDisk_launched : ∃ table, Launched sampleDir sampleBuffers table ∧ ¬ Writable table 0x80000 ∧
    isWritable (table 184) = true := by
  have hboot : Launched sampleDir sampleBuffers sampleTable := .boot (by decide) (by decide)
  obtain ⟨t, hread, hacc, hcode, hvid⟩ := elfDisk_read
  have hm : ((Command.exec sampleLine).program sampleDir sampleBuffers elfState).Meets
      (LaunchStep Req.written fun _ => False) (fun _ => True) (fun _ => True) (fun _ u => ∀ i, isWritable (u.table i) =
        isWritable (tableProtect (phdrsOf t.mem sampleBuffers.img) (tableReset sampleTable) i))
          ⟨elfDisk, sampleTable⟩ :=
    meets_shellExec_elf hboot.kernelWritable (by decide) hread (by decide) hacc hvid
  obtain ⟨st, u, hr, hperms⟩ := hm.returns
  refine ⟨u.table, hboot.command (hr.mono fun _ _ _ _ => launchStep_may), fun hw => ?_, (hperms 184).trans hvid⟩
  have h128 : isWritable (u.table 128) = true := hw.2
  rw [hperms, hcode] at h128
  cases h128

theorem launch_stores_writable_relaunch : ∃ table t x next, Launched sampleDir sampleBuffers table ∧
    ¬ Writable table 0x80000 ∧
    (Command.user.program sampleDir sampleBuffers sampleState).Reaches (LaunchStep Req.written fun _ => True)
      ⟨elfDisk, table⟩ (.ask (.kernel (.store 0x80000 x)) next) t ∧ Writable t.table 0x80000 := by
  obtain ⟨table, h, hro, hvid⟩ := elfDisk_launched
  have htext : (lift (kprintText (ascii "  dropping to ring 3 (user mode)...\n") sampleState.screen)).Meets
      (LaunchStep Req.written fun _ => True) (fun _ => True) (fun _ => True) (fun _ t => t.table = table)
      ⟨elfDisk, table⟩ := meets_text_checked (fun _ => screenReq_written hvid) fun _ _ => rfl
  obtain ⟨scr, ⟨w, table'⟩, htext, htable⟩ := htext.returns
  obtain rfl : table = table' := htable.symm
  have hreset : pagingResetUserZone.Meets (LaunchStep Req.written fun _ => True) (fun _ => True) (fun _ => True)
      (fun _ t => t = ⟨w, tableReset table⟩) ⟨w, table⟩ :=
    meets_pagingSetUserWritable (fun _ => trivial) (fun _ _ => trivial) rfl
  obtain ⟨_, _, hreset, rfl⟩ := hreset.returns
  have hcopy : ∃ x next t, (do
      lift (memcpy userLoadAddr sampleBuffers.prog sampleBuffers.progLen.toNat)
      runUserAt userLoadAddr { sampleState with screen := scr } : Launch KState).Reaches
      (LaunchStep Req.written fun _ => True) ⟨w, tableReset table⟩ (.ask (.kernel (.store 0x80000 x)) next) t :=
    ⟨_, _, _, .ask (.kernel (fun _ ha => (by cases ha)) (.done rfl)) .here⟩
  obtain ⟨x, next, t, hcopy⟩ := hcopy
  have hr : (Command.user.program sampleDir sampleBuffers sampleState).Reaches (LaunchStep Req.written fun _ => True)
      ⟨elfDisk, table⟩ (.ask (.kernel (.store 0x80000 x)) next) t := htext.bind (hreset.bind hcopy)
  exact ⟨table, t, x, next, h, hro, hr, launch_stores_writable h hr⟩

end PyroOS
