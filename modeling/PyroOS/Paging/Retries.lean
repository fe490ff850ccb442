import PyroOS.Process.Attempts
import PyroOS.Paging.Origin

/-! An access is retried after at most one resolved page fault. -/

namespace PyroOS

open Sharing

variable {k : BootDir} {u u' u₀ : Mmu} {vm vm' : Vm} {L : Multiset Word} {d va e code : Word} {write user : Bool}

inductive Retries (va : Word) (write user : Bool) : Mmu → ℕ → Mmu → Option Word → Prop
  | done {u : Mmu} {e : Word} : walk u.vm.mem u.cr3 va write user = .ok e → Retries va write user u 0 u (some e)
  | reported {u u' : Mmu} {code : Word} : walk u.vm.mem u.cr3 va write user = .error code →
      isrPageFault u va code = (u', false) → Retries va write user u 0 u' none
  | again {u u₁ u' : Mmu} {code : Word} {n : ℕ} {r : Option Word} : walk u.vm.mem u.cr3 va write user = .error code →
      isrPageFault u va code = (u₁, true) → Retries va write user u₁ n u' r → Retries va write user u (n + 1) u' r

namespace Retries

variable {n n' : ℕ} {r r' : Option Word} {u'' : Mmu}

lemma accessWith_eq (h : Retries va write user u n u' r) {m : ℕ} (hm : n < m) :
    accessWith m u va write user = (u', r) := by
  induction h generalizing m with
  | done hw =>
    obtain ⟨m, rfl⟩ := Nat.exists_eq_add_of_lt hm
    exact accessWith_ok hw
  | reported hw hf =>
    obtain ⟨m, rfl⟩ := Nat.exists_eq_add_of_lt hm
    exact accessWith_refused hw hf
  | @again _ _ _ _ n _ hw hf _ ih =>
    obtain ⟨m, rfl⟩ := Nat.exists_eq_add_of_lt hm
    rw [accessWith_again hw hf]
    exact ih (by omega)

lemma count_unique (h : Retries va write user u n u' r) (h' : Retries va write user u n' u'' r') : n = n' := by
  induction h generalizing n' with
  | done hw =>
    cases h' with
    | done => rfl
    | reported => rfl
    | again hw' => cases hw.symm.trans hw'
  | reported hw hf =>
    cases h' with
    | done => rfl
    | reported => rfl
    | again hw' hf' =>
      cases hw.symm.trans hw'
      cases hf.symm.trans hf'
  | again hw hf _ ih =>
    cases h' with
    | done hw' => cases hw.symm.trans hw'
    | reported hw' hf' =>
      cases hw.symm.trans hw'
      cases hf.symm.trans hf'
    | again hw' hf' hr' =>
      cases hw.symm.trans hw'
      cases hf.symm.trans hf'
      rw [ih hr']

end Retries

/-! ### Faults that are not resolved -/

lemma retries_plain (write user : Bool) (hal : Aligned u.cr3) (he : u.pte va = some e) (hc : isCow e = false) :
    ∃ r, Retries va write user u 0 u r := by
  have hw := walk_present write user hal he
  split at hw
  · exact ⟨_, .done hw⟩
  · exact ⟨none, .reported hw (isrPageFault_plain write user hal he hc)⟩

/-! ### What a resolved fault grants -/

def Mmu.allows (u : Mmu) (d va : Word) (write user : Bool) : Bool :=
  (pteAt u.vm.mem d (dirIndex va) (tabIndex va)).elim false fun e => permits (u.vm.mem d (dirIndex va)) e write user

def flagsAllow (flags : Word) (write user : Bool) : Bool := (!user || isUser flags) && (!write || isWritable flags)

def KeepsPromise (u u' : Mmu) (va : Word) : Prop :=
  u.pte va = none ∧ ∃ r, promised u.demand (frameOf u.cr3) va = some r ∧
    ∀ write user, u'.allows u.cr3 va write user = true → flagsAllow r.flags write user = true

def Restores (k : BootDir) (u₀ u u' : Mmu) (va : Word) : Prop :=
  ∃ u₁ d₁ e₁, MmuRun k (MmuOp.Fair k) u₀ u₁ ∧ d₁ ∈ spaces k u₁.vm.dirs ∧ CowSince k va u₁ d₁ u u.cr3 ∧
    pteAt u₁.vm.mem d₁ (dirIndex va) (tabIndex va) = some e₁ ∧ isCow e₁ = false ∧
      ∀ write user, u'.allows u.cr3 va write user = u₁.allows d₁ va write user

structure FaultResolved (k : BootDir) (u₀ u u' : Mmu) (va : Word) : Prop where
  cr3 : u'.cr3 = u.cr3
  ordinary : ∃ e, u'.pte va = some e ∧ isCow e = false
  rights : KeepsPromise u u' va ∨ Restores k u₀ u u' va
  others : ∀ d ∈ spaces k u.vm.dirs, ∀ va', ¬ (d = u.cr3 ∧ frameOf va' = frameOf va) → ∀ write user,
    u'.allows d va' write user = u.allows d va' write user

lemma Mmu.allows_some (h : pteAt u.vm.mem d (dirIndex va) (tabIndex va) = some e) (write user : Bool) :
    u.allows d va write user = permits (u.vm.mem d (dirIndex va)) e write user := by
  rw [Mmu.allows, h, Option.elim_some]

lemma Mmu.allows_grant {g : Word × Word} (he : pteAt u.vm.mem d (dirIndex va) (tabIndex va) = some e)
    (hc : isCow e = false) (hg : u.vm.grant d va = some g) (write user : Bool) :
    u.allows d va write user = permits g.1 g.2 write user := by
  rw [Vm.grant_some he, Option.some.injEq] at hg
  rw [Mmu.allows_some he, ← hg, permits_view, hc, Bool.or_false, permits]

lemma Mmu.allows_congr
    (hp : pteAt u'.vm.mem d (dirIndex va) (tabIndex va) = pteAt u.vm.mem d (dirIndex va) (tabIndex va))
    (hent : isPresent (u.vm.mem d (dirIndex va)) = true → u'.vm.mem d (dirIndex va) = u.vm.mem d (dirIndex va))
    (write user : Bool) : u'.allows d va write user = u.allows d va write user := by
  rw [Mmu.allows, Mmu.allows, hp]
  cases he : pteAt u.vm.mem d (dirIndex va) (tabIndex va) with
  | none => rfl
  | some e => rw [Option.elim_some, Option.elim_some, hent (pteAt_some he).1]

lemma PageServed.resolved {r : Region} (h : PageServed k u u' va r.flags)
    (hr : promised u.demand (frameOf u.cr3) va = some r)
    (hplain : isCow r.flags = false) (habs : u.pte va = none) : FaultResolved k u₀ u u' va := by
  have hal := h.fresh.2.1
  have hpte := h.mapped
  rw [Mmu.pte, h.cr3] at hpte
  refine ⟨h.cr3, ⟨_, h.mapped, by rw [page_isCow hal, hplain]⟩, .inl ⟨habs, r, hr, fun write user hall => ?_⟩,
    fun d hd va' hne write user => Mmu.allows_congr (h.others d hd va' hne).1
      (fun hp => h.entries d hd va' ?_) write user⟩
  · rw [Mmu.allows_some hpte, permits, isUser_bit ((pmmAlloc u.vm.pmm).2 ||| _),
      isWritable_bit ((pmmAlloc u.vm.pmm).2 ||| _), or_flags_bit hal (by omega), or_flags_bit hal (by omega),
      pageFlags_bit _ (by omega) (by omega), pageFlags_bit _ (by omega) (by omega), ← isUser_bit,
        ← isWritable_bit] at hall
    rw [flagsAllow]
    cases write <;> cases user <;> simp_all
  · intro hh
    rw [hp] at hh
    exact absurd hh.2.2 (by decide)

lemma Settled.resolved (h : Settled k L u.vm vm' u.cr3 va) (hb : Backed k L u.vm) (hl : u.cr3 ∈ spaces k u.vm.dirs)
    (hv : privateBase ≤ va) (hcow : MadeCow k u₀ u u.cr3 va) : FaultResolved k u₀ u { u with vm := vm' } va := by
  obtain ⟨e, he, _, hplain⟩ := h.writable
  obtain ⟨u₁, d₁, e₁, hrun, hd₁, hsince, he₁, hplain₁, hgrant⟩ := hcow
  have hg : vm'.grant u.cr3 va = u₁.vm.grant d₁ va := by
    rw [hgrant]
    exact ((h.same u.cr3 hl).grant (dirIndex_private hv)).symm
  refine ⟨rfl, ⟨e, he, hplain⟩, .inr ⟨u₁, d₁, e₁, hrun, hd₁, hsince, he₁, hplain₁, fun write user => ?_⟩,
    fun d hd va' hne write user => ?_⟩
  · have hg₁ := Vm.grant_some he₁
    rw [Mmu.allows_grant (u := { u with vm := vm' }) he hplain (hg.trans hg₁), Mmu.allows_grant he₁ hplain₁ hg₁]
  · by_cases hlow : 2 ≤ dirIndex va'
    · refine Mmu.allows_congr (h.ptes d _ _ (page_ref hd (privateBase_le_of hlow)) fun hh => hne ?_)
        (fun _ => h.entries d hd _) write user
      exact ⟨hh.1, frameOf_eq_of_index hh.2.1 hh.2.2⟩
    · have hd' : d ∈ spaces k vm'.dirs := by
        rw [h.dirs]
        exact hd
      exact Mmu.allows_congr (hb.pte_low h.booked.layout h.low hd hd' (not_le.mp hlow))
        (fun _ => h.entries d hd _) write user

lemma Mmu.Plain.absent (h : u.Plain k u₀) (hl : u.cr3 ∈ spaces k u.vm.dirs) (hv : privateBase ≤ va)
    (habs : u.pte va = none) (write user : Bool) : ∃ u', isrPageFault u va (accessCode write user) = (u', false) ∨
      isrPageFault u va (accessCode write user) = (u', true) ∧ FaultResolved k u₀ u u' va := by
  obtain ⟨L, hb⟩ := h.fit.backed
  have hal : frameOf u.cr3 = u.cr3 := hb.layout.space_aligned hl
  have herr := accessCode_absent write user
  cases hr : promised u.demand (frameOf u.cr3) va with
  | none =>
    have hdem : demandHandle u va (accessCode write user) = (u, false) := by
      rw [demandHandle, if_neg (not_not.mpr herr), hr]
    exact ⟨_, .inl (isrPageFault_unserved hal hdem habs)⟩
  | some r =>
    rcases h.fit.demandHandle hl hv herr hr with ⟨_, vm', hdem, hsame⟩ | ⟨_, u', hdem, hs⟩
    · exact ⟨_, .inl (isrPageFault_unserved hal hdem ((hsame.pte _ hl va).trans habs))⟩
    · refine ⟨u', .inr ⟨?_, hs.resolved hr (h.regions.promised hr) habs⟩⟩
      rw [isrPageFault, hdem]
      rfl

lemma Mmu.Plain.present (h : u.Plain k u₀) (hl : u.cr3 ∈ spaces k u.vm.dirs) (hv : privateBase ≤ va)
    (write user : Bool) :
    ∃ u', isrPageFault u va (accessCode write user ||| 0x1) = (u', false) ∨
      isrPageFault u va (accessCode write user ||| 0x1) = (u', true) ∧ FaultResolved k u₀ u u' va := by
  obtain ⟨L, hb⟩ := h.fit.backed
  have hdem : demandHandle u va (accessCode write user ||| 0x1) = (u, false) := by
    rw [demandHandle, if_pos (accessCode_present write user)]
  rw [isrPageFault, hdem]
  dsimp only
  rw [if_neg Bool.false_ne_true]
  rcases hb.booked.cowHandle (accessCode write user ||| 0x1) hl hv with ⟨hc, _⟩ | ⟨_, vm', hc, hs⟩
  · exact ⟨u, .inl (by rw [hc])⟩
  · refine ⟨{ u with vm := vm' }, .inr ⟨by rw [hc], hs.resolved hb hl hv ?_⟩⟩
    exact h.cow u.cr3 hl va (dirIndex_private hv) hs.cow

/-! ### Retrying -/

def Reached (k : BootDir) (s₀ : Sys) (u : Mmu) : Prop :=
  MmuRun k (MmuOp.Fair k) s₀.mmu u ∧ u.cr3 ∈ spaces k u.vm.dirs ∨
    ∃ n s, Run k (fun op s => op.Attempted s ∧ op.Plain) s₀ n s ∧ s.mmu = u

structure AccessSettled (k : BootDir) (u₀ u : Mmu) (va : Word) (write user : Bool) : Prop where
  ends : ∃ n u' r, Retries va write user u n u' r ∧ access u va write user = (u', r)
  once : ∀ n u' r, Retries va write user u n u' r → n ≤ 1
  resolved : ∀ code u', walk u.vm.mem u.cr3 va write user = .error code → isrPageFault u va code = (u', true) →
    FaultResolved k u₀ u u' va

lemma AccessSettled.of_fault (hal : Aligned u.cr3) (hw : walk u.vm.mem u.cr3 va write user = .error code)
    (hf : ∃ u', isrPageFault u va code = (u', false) ∨ isrPageFault u va code = (u', true) ∧
      FaultResolved k u₀ u u' va) :
    AccessSettled k u₀ u va write user := by
  obtain ⟨u', hf | ⟨hf, hres⟩⟩ := hf
  · have hret : Retries va write user u 0 u' none := .reported hw hf
    refine ⟨⟨0, u', none, hret, hret.accessWith_eq (by omega)⟩, fun n _ _ hr => by rw [← hret.count_unique hr]; omega,
      fun code' u'' hw' hf' => ?_⟩
    cases hw.symm.trans hw'
    cases hf.symm.trans hf'
  · obtain ⟨e, he, hc⟩ := hres.ordinary
    obtain ⟨r, hlast⟩ := retries_plain write user (hres.cr3 ▸ hal) he hc
    have hret := Retries.again hw hf hlast
    refine ⟨⟨1, u', r, hret, hret.accessWith_eq (by omega)⟩, fun n _ _ hr => by rw [← hret.count_unique hr],
      fun code' u'' hw' hf' => ?_⟩
    cases hw.symm.trans hw'
    cases hf.symm.trans hf'
    exact hres

lemma AccessSettled.of_plain (hal : Aligned u.cr3) (he : u.pte va = some e) (hc : isCow e = false) :
    AccessSettled k u₀ u va write user := by
  obtain ⟨r, hret⟩ := retries_plain write user hal he hc
  refine ⟨⟨0, u, r, hret, hret.accessWith_eq (by omega)⟩, fun n _ _ hr => by rw [← hret.count_unique hr]; omega,
    fun code u' hw hf => ?_⟩
  cases hret with
  | done hw' => cases hw.symm.trans hw'
  | reported hw' hf' =>
    cases hw.symm.trans hw'
    cases hf.symm.trans hf'

lemma Reached.run {first second memBytes : Word} {m : PhysMem} (ht : BootTables k first second)
    (h : Reached k (bootWith k first second memBytes m) u) :
    MmuRun k (MmuOp.Fair k) (bootWith k first second memBytes m).mmu u ∧ u.cr3 ∈ spaces k u.vm.dirs := by
  rcases h with h | ⟨n, s, hrun, rfl⟩
  · exact h
  · exact ⟨(hrun.mmuRun (fun _ _ ho => ho.1) (boot_holding ht)).mono fun _ _ ho => ⟨ho.1, ho.2 fun _ _ h => h.2⟩,
      ((hrun.mono fun _ _ ho => ho.1).holding (boot_holding ht)).loaded⟩

/-- An access is retried at most once, and a resolved fault gives no right that was not promised or there before. -/
theorem fault_retries {first second memBytes : Word} {m : PhysMem} (ht : BootTables k first second)
    (hne : first ≠ second) (h : Reached k (bootWith k first second memBytes m) u) (va : Word) (write user : Bool) :
    AccessSettled k (bootWith k first second memBytes m).mmu u va write user := by
  obtain ⟨hrun, hl⟩ := h.run ht
  have hplain := hrun.plain (boot_plain ht)
  obtain ⟨L, hb⟩ := hplain.fit.backed
  have hal : Aligned u.cr3 := hb.layout.space_aligned hl
  by_cases hv : privateBase ≤ va
  · cases hpte : u.pte va with
    | none => exact .of_fault hal (walk_absent hal hpte) (hplain.absent hl hv hpte write user)
    | some e =>
      have hw := walk_present write user hal hpte
      split at hw
      · have hret : Retries va write user u 0 u (some e) := .done hw
        refine ⟨⟨0, u, some e, hret, hret.accessWith_eq (by omega)⟩,
          fun n _ _ hr => by rw [← hret.count_unique hr]; omega, fun code u' hw' => ?_⟩
        cases hw.symm.trans hw'
      · exact .of_fault hal hw (hplain.present hl hv write user)
  · have hlow := (hrun.mono fun _ _ ho => ho.1).step_all ⟨0, boot_backed ht⟩
    have hmap : KernelMap k u.vm.mem := hlow.2.kernelMap (boot_backed ht) (boot_kernelMap ht hne)
    obtain ⟨e, he, _, hc⟩ := hmap.pte hb.layout hl hv
    exact .of_plain hal he hc

def samplePromised : Mmu := (MmuOp.promise 0x20000 0x800000 0x900000 2).apply sampleDir sampleBoot.mmu

theorem fault_retries_promised : AccessSettled sampleDir sampleBoot.mmu samplePromised 0x800123 true true :=
  fault_retries sample_tables (by decide)
    (.inl ⟨.one (.promise 0x20000 0x800000 0x900000 2) ⟨trivial, rfl⟩, List.mem_cons_self⟩) _ _ _

end PyroOS
