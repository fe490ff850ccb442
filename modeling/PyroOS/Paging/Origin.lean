import PyroOS.Paging.Promised

/-! Where a copy-on-write page comes from: an ordinary page, mapped in this space or in one it was cloned from. -/

namespace PyroOS

open Sharing

variable {k : BootDir} {u u' u₀ : Mmu} {vm vm' vm'' : Vm} {L : Multiset Word} {d virt flags va : Word} {di ti : ℕ}

def Demand.Plain (dm : Demand) : Prop := ∀ i, (dm.regions i).active = true → isCow (dm.regions i).flags = false

lemma Demand.Plain.promised {dm : Demand} {current addr : Word} {r : Region} (h : dm.Plain)
    (hp : promised dm current addr = some r) : isCow r.flags = false := by
  obtain ⟨i, rfl, ha, _⟩ := promised_some hp
  exact h i ha

lemma pageFlags_bit (flags : Word) {i : ℕ} (h₁ : 0 < i) (h₂ : i < 12) :
    (pageFlags flags).getLsbD i = flags.getLsbD i := by
  have hp : pfPresent.getLsbD i = false := by
    have hall : ∀ j : Fin 12, 0 < j.val → pfPresent.getLsbD j = false := by decide
    exact hall ⟨i, h₂⟩ h₁
  rw [pageFlags, BitVec.getLsbD_or, hp, Bool.or_false, flagsOf_bit, decide_eq_true h₂, Bool.true_and]

lemma page_isCow {x : Word} (hx : Aligned x) (flags : Word) : isCow (x ||| pageFlags flags) = isCow flags := by
  rw [isCow_bit, isCow_bit, or_flags_bit hx (by omega), pageFlags_bit flags (by omega) (by omega)]

/-! ### Steps that make no page copy-on-write -/

structure Lasting (k : BootDir) (vm vm' : Vm) : Prop where
  dirs : vm'.dirs = vm.dirs
  page : ∀ d ∈ spaces k vm.dirs, ∀ va e, 2 ≤ dirIndex va → pteAt vm'.mem d (dirIndex va) (tabIndex va) = some e →
    isCow e = true → pteAt vm.mem d (dirIndex va) (tabIndex va) = some e ∧
      vm'.mem d (dirIndex va) = vm.mem d (dirIndex va)

namespace Lasting

lemma refl (k : BootDir) (vm : Vm) : Lasting k vm vm := ⟨rfl, fun _ _ _ _ _ he _ => ⟨he, rfl⟩⟩

lemma trans (h : Lasting k vm vm') (h' : Lasting k vm' vm'') : Lasting k vm vm'' := by
  refine ⟨h'.dirs.trans h.dirs, fun d hd va e hv he hc => ?_⟩
  obtain ⟨he', hent'⟩ := h'.page d (by rw [h.dirs]; exact hd) va e hv he hc
  obtain ⟨he, hent⟩ := h.page d hd va e hv he' hc
  exact ⟨he, hent'.trans hent⟩

lemma of_agree (hdirs : vm'.dirs = vm.dirs) (ha : Agree k vm.dirs vm.mem vm'.mem) : Lasting k vm vm' := by
  refine ⟨hdirs, fun d hd va e hv he _ => ⟨?_, ha.entry hd _⟩⟩
  rwa [ha.pte (tab_mem_refs.mpr ⟨hd, hv, dirIndex_lt va⟩)] at he

lemma of_page (hdirs : vm'.dirs = vm.dirs)
    (hother : ∀ d' di' ti', Ref.page d' di' ti' ∈ refs k vm.dirs →
      ¬ (d' = d ∧ di' = dirIndex virt ∧ ti' = tabIndex virt) → pteAt vm'.mem d' di' ti' = pteAt vm.mem d' di' ti')
    (hentry : ∀ d' ∈ spaces k vm.dirs, ∀ di', isPresent (vm.mem d' di') = true → vm'.mem d' di' = vm.mem d' di')
    (hself : ∀ e, pteAt vm'.mem d (dirIndex virt) (tabIndex virt) = some e → isCow e = false) : Lasting k vm vm' := by
  refine ⟨hdirs, fun d' hd' va e hv he hc => ?_⟩
  have hne : ¬ (d' = d ∧ dirIndex va = dirIndex virt ∧ tabIndex va = tabIndex virt) := by
    rintro ⟨rfl, h₁, h₂⟩
    rw [h₁, h₂] at he
    rw [hself e he] at hc
    cases hc
  have hpte := hother d' _ _ (page_mem_refs.mpr ⟨hd', hv, dirIndex_lt va, tabIndex_lt va⟩) hne
  rw [hpte] at he
  exact ⟨he, hentry d' hd' _ (pteAt_some he).1⟩

end Lasting

lemma Backed.map_lasting (h : Backed k L vm) (hd : d ∈ spaces k vm.dirs) (hv : privateBase ≤ virt)
    (hf : isCow flags = false) : Lasting k vm (vmmMapAlloc vm d virt flags).1 := by
  rcases h.mapAlloc_cases flags hd hv with ⟨hm, _⟩ | ⟨p, x, _, _, _, _, hm, hfresh, _⟩ |
    ⟨p, x, vm', _, _, _, hm, _, he, _⟩
  · rw [hm]
    exact .refl k vm
  · rw [hm]
    exact .of_agree rfl (hfresh.setPage_agree _)
  · rw [hm]
    refine .of_page he.dirs he.ptes (fun d' hd' di' hp => he.entries d' hd' di' fun hh => ?_) fun e hpte => ?_
    · rw [hp] at hh
      exact absurd hh.2.2 (by decide)
    · rw [he.entry, Option.some.injEq] at hpte
      rw [← hpte, page_isCow he.fresh.2.1, hf]

lemma Backed.unmap_lasting (h : Backed k L vm) (hd : d ∈ spaces k vm.dirs) (hv : privateBase ≤ virt) :
    Lasting k vm (vmmUnmap vm d virt) := by
  have hc := h.booked.unmap hd hv
  refine .of_page hc.dirs hc.ptes (fun d' hd' di' _ => hc.entries d' hd' di') fun e he => ?_
  rw [hc.gone] at he
  cases he

lemma Backed.cow_lasting (code : Word) (h : Backed k L vm) (hd : d ∈ spaces k vm.dirs) (hv : privateBase ≤ virt) :
    Lasting k vm (vmmCowHandle vm d virt code).1 := by
  rcases h.booked.cowHandle code hd hv with ⟨hc, _⟩ | ⟨_, vm', hc, hs⟩
  · rw [hc]
    exact .refl k vm
  · rw [hc]
    refine .of_page hs.dirs hs.ptes (fun d' hd' di' _ => hs.entries d' hd' di') fun e he => ?_
    obtain ⟨e', he', _, hcow⟩ := hs.writable
    rw [he', Option.some.injEq] at he
    rwa [← he]

lemma demandHandle_lasting (code : Word) (hb : Backed k L u.vm) (hl : u.cr3 ∈ spaces k u.vm.dirs)
    (hv : privateBase ≤ va) (hp : u.demand.Plain) : Lasting k u.vm (demandHandle u va code).1.vm := by
  rw [demandHandle]
  split
  · exact .refl k u.vm
  · cases hr : promised u.demand (frameOf u.cr3) va with
    | none => exact .refl k u.vm
    | some r =>
      have hdir : r.dir = u.cr3 := (promised_dir hr).trans (hb.layout.space_aligned hl)
      have hm := hb.map_lasting hl (frameOf_private hv) (hp.promised hr)
      simp only [hdir, and_pageMask]
      split <;> exact hm

lemma isrPageFault_lasting (code : Word) (hb : Backed k L u.vm) (hl : u.cr3 ∈ spaces k u.vm.dirs)
    (hv : privateBase ≤ va) (hp : u.demand.Plain) : Lasting k u.vm (isrPageFault u va code).1.vm := by
  have hd := demandHandle_lasting code hb hl hv hp
  have hs := demandHandle_serviced code hb hl hv
  rw [isrPageFault]
  generalize demandHandle u va code = r at hd hs ⊢
  obtain ⟨u', served⟩ := r
  cases served with
  | true => exact hd
  | false =>
    dsimp only at hd hs
    obtain ⟨L', hb'⟩ := hs.run.backed ⟨L, hb⟩
    have hl' : u'.cr3 ∈ spaces k u'.vm.dirs := by
      rw [hs.dirs, hs.cr3]
      exact hl
    exact hd.trans (hb'.cow_lasting code hl' hv)

lemma accessWith_lasting (write user : Bool) (n : ℕ) (hb : Backed k L u.vm) (hl : u.cr3 ∈ spaces k u.vm.dirs)
    (hv : privateBase ≤ va) (hp : u.demand.Plain) : Lasting k u.vm (accessWith n u va write user).1.vm := by
  induction n generalizing u L with
  | zero => exact .refl k u.vm
  | succ n ih =>
    rw [accessWith]
    cases walk u.vm.mem u.cr3 va write user with
    | ok e => exact .refl k u.vm
    | error code =>
      have hf := isrPageFault_lasting code hb hl hv hp
      have hs := isrPageFault_serviced code hb hl hv
      have hr := (isrPageFault_regions u va code).1
      simp only
      generalize isrPageFault u va code = r at hf hs hr ⊢
      obtain ⟨u', again⟩ := r
      cases again with
      | false => exact hf
      | true =>
        obtain ⟨L', hb'⟩ := hs.run.backed ⟨L, hb⟩
        refine hf.trans (ih hb' (by rw [hs.dirs, hs.cr3]; exact hl) ?_)
        intro i
        rw [hr]
        exact hp i

lemma loadByte_lasting (user : Bool) (hb : Backed k L u.vm) (hl : u.cr3 ∈ spaces k u.vm.dirs) (hv : privateBase ≤ va)
    (hp : u.demand.Plain) : Lasting k u.vm (loadByte u va user).1.vm := by
  have ha := accessWith_lasting false user 3 hb hl hv hp
  rw [loadByte, access]
  generalize accessWith 3 u va false user = r at ha ⊢
  obtain ⟨u', _ | e⟩ := r <;> exact ha

lemma storeByte_lasting (b : Byte) (user : Bool) (hb : Backed k L u.vm) (hl : u.cr3 ∈ spaces k u.vm.dirs)
    (hv : privateBase ≤ va) (hp : u.demand.Plain) : Lasting k u.vm (storeByte u va b user).1.vm := by
  have ha := accessWith_lasting true user 3 hb hl hv hp
  have hs := accessWith_serviced true user 3 hb hl hv
  rw [storeByte, access]
  rcases hr : accessWith 3 u va true user with ⟨u', _ | e⟩
  · rw [hr] at ha
    exact ha
  · rw [hr] at ha hs
    obtain ⟨L', hb'⟩ := hs.run.backed ⟨L, hb⟩
    have hl' : u'.cr3 ∈ spaces k u'.vm.dirs := by
      rw [hs.dirs, hs.cr3]
      exact hl
    have hpte := (walk_ok (hb'.layout.space_aligned hl') (accessWith_walk _ hr)).1
    exact ha.trans (.of_agree rfl (hb'.write _ _ hl' hv hpte).2.1)

/-! ### Where a page comes from -/

def Vm.grant (vm : Vm) (d va : Word) : Option (Word × Word) :=
  PyroOS.grant (pageView vm.mem d (dirIndex va) (tabIndex va))

def Vm.CowPage (vm : Vm) (d va : Word) : Prop :=
  ∃ e, pteAt vm.mem d (dirIndex va) (tabIndex va) = some e ∧ isCow e = true

def MmuOp.Clones (k : BootDir) (op : MmuOp) (vm : Vm) (src dst : Word) : Prop :=
  dst ≠ 0 ∧ (op = .vm (.cloneCow src) ∧ (vmmCloneCow k vm src).2 = dst ∨
    op = .vm (.cloneDir src) ∧ (vmmCloneDir k vm src).2 = dst)

def Inherited (k : BootDir) (op : MmuOp) (vm vm' : Vm) (d va : Word) : Prop :=
  ∃ d₁ ∈ spaces k vm.dirs, (d₁ = d ∨ op.Clones k vm d₁ d) ∧ vm.grant d₁ va = vm'.grant d va

lemma Vm.grant_some {e : Word} (h : pteAt vm.mem d (dirIndex va) (tabIndex va) = some e) :
    vm.grant d va = some (flagsOf (vm.mem d (dirIndex va)), settledFlags e) := by
  rw [Vm.grant, pageView_some h]
  rfl

lemma Vm.grant_inv {g : Word × Word} (h : vm.grant d va = some g) :
    ∃ e, pteAt vm.mem d (dirIndex va) (tabIndex va) = some e ∧
      g = (flagsOf (vm.mem d (dirIndex va)), settledFlags e) := by
  cases he : pteAt vm.mem d (dirIndex va) (tabIndex va) with
  | none =>
    rw [Vm.grant, pageView_none he] at h
    cases h
  | some e =>
    rw [Vm.grant_some he, Option.some.injEq] at h
    exact ⟨e, rfl, h.symm⟩

lemma SameSpace.grant {d' : Word} (h : SameSpace vm.mem d vm'.mem d') (hv : 2 ≤ dirIndex va) :
    vm.grant d va = vm'.grant d' va := by
  rw [Vm.grant, Vm.grant, (h _ hv (dirIndex_lt va)).2 _ (tabIndex_lt va)]

lemma Lasting.grant (h : Lasting k vm vm') (hd : d ∈ spaces k vm.dirs) (hv : 2 ≤ dirIndex va) (hc : vm'.CowPage d va) :
    vm.grant d va = vm'.grant d va := by
  obtain ⟨e, he, hcow⟩ := hc
  obtain ⟨he', hent⟩ := h.page d hd va e hv he hcow
  rw [Vm.grant_some he, Vm.grant_some he', hent]

section step

variable {op : MmuOp} (hv : 2 ≤ dirIndex va)
include hv

lemma Lasting.inherited (h : Lasting k vm vm') (hd : d ∈ spaces k vm'.dirs) (hc : vm'.CowPage d va) :
    Inherited k op vm vm' d va := by
  rw [h.dirs] at hd
  exact ⟨d, hd, .inl rfl, h.grant hd hv hc⟩

lemma Undone.inherited {src : Word} (h : Undone k L vm src vm') (hd : d ∈ spaces k vm'.dirs) :
    Inherited k op vm vm' d va := by
  rw [h.dirs] at hd
  exact ⟨d, hd, .inl rfl, (h.same d hd).grant hv⟩

lemma Cloning.inherited {src dst : Word} (h : Cloning k L vm src dst 1024 1024 0 vm') (hsrc : src ∈ spaces k vm.dirs)
    (hop : op.Clones k vm src dst) (hd : d ∈ spaces k vm'.dirs) : Inherited k op vm vm' d va := by
  by_cases hnew : d = dst
  · subst hnew
    exact ⟨src, hsrc, .inr hop, h.finish.grant hv⟩
  · rw [h.dirs] at hd
    have hd' : d ∈ spaces k vm.dirs := by
      rcases List.mem_cons.mp hd with rfl | hd
      · exact List.mem_cons_self
      · exact List.mem_cons_of_mem _ ((List.mem_cons.mp hd).resolve_left hnew)
    exact ⟨d, hd', .inl rfl, (h.same d hd').grant hv⟩

lemma Backed.create_inherited (h : Backed k L vm) (hd : d ∈ spaces k (vmmCreateDir k vm).1.dirs)
    (hc : (vmmCreateDir k vm).1.CowPage d va) : Inherited k op vm (vmmCreateDir k vm).1 d va := by
  rcases h.booked.create with ⟨heq, _⟩ | ⟨p, a, heq, _, hf, _⟩
  · rw [heq] at hd hc ⊢
    exact (Lasting.refl k vm).inherited hv hd hc
  · rw [heq] at hd hc ⊢
    have hd' : d ∈ spaces k vm.dirs := by
      rcases List.mem_cons.mp hd with rfl | hd
      · exact List.mem_cons_self
      · refine List.mem_cons_of_mem _ ((List.mem_cons.mp hd).resolve_left ?_)
        rintro rfl
        obtain ⟨e, he, _⟩ := hc
        have hnone : target (withDir k vm.mem d) (.page d (dirIndex va) (tabIndex va)) = none :=
          withDir_target_new (mem_spaceRefs.mpr (.inr ⟨_, _, rfl, hv, dirIndex_lt va, tabIndex_lt va⟩))
        rw [target_page he] at hnone
        cases hnone
    obtain ⟨e, he, hcow⟩ := hc
    have he' : pteAt vm.mem d (dirIndex va) (tabIndex va) = some e := by
      rw [← hf.withDir_agree.pte (tab_mem_refs.mpr ⟨hd', hv, dirIndex_lt va⟩)]
      exact he
    refine ⟨d, hd', .inl rfl, ?_⟩
    rw [Vm.grant_some he, Vm.grant_some he']
    dsimp only
    rw [hf.withDir_agree.entry hd']

lemma Backed.destroy_inherited {d' : Word} (h : Backed k L vm) (hd' : d' ∈ spaces k vm.dirs)
    (hd : d ∈ spaces k (vmmDestroyDir k vm d').dirs) : Inherited k op vm (vmmDestroyDir k vm d') d va := by
  rcases List.mem_cons.mp hd' with rfl | hd'
  · have heq : vmmDestroyDir k vm k.dir = vm := by rw [vmmDestroyDir, if_pos (.inr rfl)]
    rw [heq] at hd ⊢
    exact ⟨d, hd, .inl rfl, rfl⟩
  · obtain ⟨hdirs, hkeep, _⟩ := h.layout.destroy hd' h.counts
    rw [hdirs] at hd
    exact ⟨d, List.cons_subset_cons _ List.erase_subset hd, .inl rfl, (h.layout.destroy_same hd' hkeep hd).grant hv⟩

lemma VmOp.inherited (o : VmOp) (h : Backed k L vm) (hop : o.Allowed k vm) (hplain : (MmuOp.vm o).Plain)
    (hd : d ∈ spaces k (o.apply k vm).dirs) (hc : (o.apply k vm).CowPage d va) :
    Inherited k (.vm o) vm (o.apply k vm) d va := by
  cases o with
  | create => exact h.create_inherited hv hd hc
  | mapAlloc d' virt flags => exact (h.map_lasting hop.1 hop.2 hplain).inherited hv hd hc
  | unmap d' virt => exact (h.unmap_lasting hop.1 hop.2).inherited hv hd hc
  | cowHandle d' virt err => exact (h.cow_lasting err hop.1 hop.2).inherited hv hd hc
  | cloneDir src =>
    rw [VmOp.apply] at hd hc ⊢
    rcases h.booked.cloneDir hop with ⟨vm', dst, heq, hne, hcl⟩ | ⟨vm', heq, hun, _⟩
    · rw [heq] at hd hc ⊢
      exact hcl.inherited hv hop ⟨hne, .inr ⟨rfl, by rw [heq]⟩⟩ hd
    · rw [heq] at hd hc ⊢
      exact hun.inherited hv hd
  | cloneCow src =>
    rw [VmOp.apply] at hd hc ⊢
    rcases h.booked.cloneCow hop.1 fun _ _ _ hr ht => hop.2.count_lt h.layout hr ht with
      ⟨vm', dst, heq, hne, hcl⟩ | ⟨vm', heq, hun, _⟩
    · rw [heq] at hd hc ⊢
      exact hcl.inherited hv hop.1 ⟨hne, .inl ⟨rfl, by rw [heq]⟩⟩ hd
    · rw [heq] at hd hc ⊢
      exact hun.inherited hv hd
  | destroy d' => exact h.destroy_inherited hv hop hd

lemma MmuOp.inherited (op : MmuOp) (h : Backed k L u.vm) (hreg : u.demand.Plain) (hop : op.Allowed k u)
    (hplain : op.Plain) (hd : d ∈ spaces k (op.apply k u).vm.dirs) (hc : (op.apply k u).vm.CowPage d va) :
    Inherited k op u.vm (op.apply k u).vm d va := by
  cases op with
  | vm o => exact o.inherited hv h hop hplain hd hc
  | promise dir start stop flags => exact (Lasting.refl k u.vm).inherited hv hd hc
  | unpromise => exact (Lasting.refl k u.vm).inherited hv hd hc
  | switch d' => exact (Lasting.refl k u.vm).inherited hv hd hc
  | load va' user => exact (loadByte_lasting user h hop.1 hop.2 hreg).inherited hv hd hc
  | store va' b user => exact (storeByte_lasting b user h hop.1 hop.2 hreg).inherited hv hd hc

end step

/-! ### Runs -/

lemma demandRegion_plain {dm : Demand} {dir start stop : Word} (h : dm.Plain) (hf : isCow flags = false) :
    (demandRegion dm dir start stop flags).Plain := by
  intro i hi
  rw [demandRegion] at hi ⊢
  split at hi
  · exact h i hi
  · rename_i j _
    dsimp only at hi ⊢
    by_cases hj : i = j
    · subst hj
      rw [Function.update_self]
      exact hf
    · rw [Function.update_of_ne hj] at hi ⊢
      exact h i hi

lemma MmuOp.plain_regions (op : MmuOp) (h : u.demand.Plain) (hplain : op.Plain) : (op.apply k u).demand.Plain := by
  cases op with
  | vm o => exact h
  | promise dir start stop flags => exact demandRegion_plain h hplain
  | unpromise => exact nofun
  | switch d => exact h
  | load va user =>
    intro i
    rw [MmuOp.apply, loadByte_regions va user]
    exact h i
  | store va b user =>
    intro i
    rw [MmuOp.apply, storeByte_regions va b user]
    exact h i

def MmuOp.Fair (k : BootDir) (op : MmuOp) (u : Mmu) : Prop := op.Allowed k u ∧ op.Plain

/-- The page of `va` in a space has been copy-on-write ever since it was that of `d₀` in state `u₀`: the operations
after `u₀` left it in its space, or cloned it. -/
inductive CowSince (k : BootDir) (va : Word) (u₀ : Mmu) (d₀ : Word) : Mmu → Word → Prop
  | start : CowSince k va u₀ d₀ u₀ d₀
  | step {u : Mmu} {d d' : Word} (op : MmuOp) : CowSince k va u₀ d₀ u d → op.Fair k u →
      d ∈ spaces k u.vm.dirs → d' ∈ spaces k (op.apply k u).vm.dirs → (d = d' ∨ op.Clones k u.vm d d') →
      (op.apply k u).vm.CowPage d' va → CowSince k va u₀ d₀ (op.apply k u) d'

def MadeCow (k : BootDir) (u₀ u : Mmu) (d va : Word) : Prop :=
  ∃ u₁ d₁ e₁, MmuRun k (MmuOp.Fair k) u₀ u₁ ∧ d₁ ∈ spaces k u₁.vm.dirs ∧ CowSince k va u₁ d₁ u d ∧
    pteAt u₁.vm.mem d₁ (dirIndex va) (tabIndex va) = some e₁ ∧ isCow e₁ = false ∧ u₁.vm.grant d₁ va = u.vm.grant d va

structure Mmu.Plain (k : BootDir) (u u₀ : Mmu) : Prop where
  fit : u.Fit k
  regions : u.demand.Plain
  cow : ∀ d ∈ spaces k u.vm.dirs, ∀ va, 2 ≤ dirIndex va → u.vm.CowPage d va → MadeCow k u₀ u d va

lemma Mmu.Plain.step (h : u.Plain k u₀) (hrun : MmuRun k (MmuOp.Fair k) u₀ u) (op : MmuOp) (hop : op.Fair k u) :
    (op.apply k u).Plain k u₀ := by
  obtain ⟨L, hb⟩ := h.fit.backed
  refine ⟨⟨(op.step hb hop.1).1, op.tidy h.fit hop.1⟩, op.plain_regions h.regions hop.2, fun d hd va hv hc => ?_⟩
  obtain ⟨d₁, hd₁, hfrom, hgrant⟩ := op.inherited hv hb h.regions hop.1 hop.2 hd hc
  have ⟨e, he, _⟩ := hc
  have hg := hgrant.trans (Vm.grant_some he)
  obtain ⟨e₁, he₁, _⟩ := Vm.grant_inv hg
  cases hcow : isCow e₁ with
  | false => exact ⟨u, d₁, e₁, hrun, hd₁, .step op .start hop hd₁ hd hfrom hc, he₁, hcow, hgrant⟩
  | true =>
    obtain ⟨u₁, d₂, e₂, hrun₂, hd₂, hsince, he₂, hplain, hgrant₂⟩ := h.cow d₁ hd₁ va hv ⟨e₁, he₁, hcow⟩
    exact ⟨u₁, d₂, e₂, hrun₂, hd₂, .step op hsince hop hd₁ hd hfrom hc, he₂, hplain, hgrant₂.trans hgrant⟩

lemma MmuRun.plain (h : MmuRun k (MmuOp.Fair k) u₀ u) (h₀ : u₀.Plain k u₀) : u.Plain k u₀ := by
  induction h with
  | start => exact h₀
  | step op hrun hop ih => exact ih.step hrun op hop

lemma boot_plain {first second memBytes : Word} {m : PhysMem} (ht : BootTables k first second) :
    (bootWith k first second memBytes m).mmu.Plain k (bootWith k first second memBytes m).mmu := by
  refine ⟨boot_fit ht, fun i hi => ?_, fun d hd va hv ⟨e, he, _⟩ => ?_⟩
  · cases hi
  · have hr : Ref.page d (dirIndex va) (tabIndex va) ∈ refs k [] :=
      page_mem_refs.mpr ⟨hd, hv, dirIndex_lt va, tabIndex_lt va⟩
    have hnone := target_page he
    rw [show (bootWith k first second memBytes m).mmu.vm.mem = pagingInstall k first second m from rfl,
      boot_target hr] at hnone
    cases hnone

end PyroOS
