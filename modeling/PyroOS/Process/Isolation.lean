import PyroOS.Launch.Paging
import PyroOS.Process.Attempts

/-! What ring 3 can reach, whatever the kernel and the programs have done before. -/

namespace PyroOS

open Sharing

variable {k : BootDir} {first second : Word} {m : PhysMem} {s s₀ : Sys} {u u' : Mmu} {vm : Vm} {L : Multiset Word}
  {va e b : Word} {write : Bool}

/-- The kernel's directory and tables are in `.bss`, which the linker script keeps below the user zone. -/
structure KernelTables (k : BootDir) (first second : Word) : Prop extends BootTables k first second where
  ne : first ≠ second
  below : k.dir < userZoneStart ∧ first < userZoneStart ∧ second < userZoneStart

def firstEntry (i : ℕ) : Word :=
  BitVec.ofNat 32 (i * 0x1000) |||
    (if userZoneStart ≤ BitVec.ofNat 32 (i * 0x1000) ∧ BitVec.ofNat 32 (i * 0x1000) < userZoneEnd then
      pfPresent ||| pfRw ||| pfUser else pfPresent ||| pfRw)

structure LowMap (k : BootDir) (first second : Word) (m : PhysMem) : Prop where
  dir₀ : m k.dir 0 = first ||| (pfPresent ||| pfRw ||| pfUser)
  dir₁ : m k.dir 1 = second ||| (pfPresent ||| pfRw)
  zone : ∀ i < 1024, m first i &&& ~~~pfRw = firstEntry i &&& ~~~pfRw
  pool : ∀ i < 1024, isPresent (m second i) = true ∧ isCow (m second i) = false

/-- Process calls, changes of permissions by `paging_set_user_writable`, and accesses from ring 3 to any address. -/
inductive GuestOp where
  | sys (op : Op)
  | protect (a len : Word) (writable : Bool)
  | load (va : Word)
  | store (va : Word) (b : Byte)

section

variable (k first)

def GuestOp.apply : GuestOp → Sys → Sys
  | .sys op, s => op.apply k s
  | .protect a len writable, s =>
    s.withVm { s.mmu.vm with mem := s.mmu.vm.mem.setPage first (tableSet a len writable (s.mmu.vm.mem first)) }
  | .load va, s => { s with mmu := (loadByte s.mmu va true).1 }
  | .store va b, s => { s with mmu := (storeByte s.mmu va b true).1 }

def GuestOp.Allowed : GuestOp → Sys → Prop
  | .sys op, s => op.Attempted s
  | _, _ => True

inductive GuestRun (s₀ : Sys) : Sys → Prop
  | start : GuestRun s₀ s₀
  | step {s : Sys} (op : GuestOp) : GuestRun s₀ s → op.Allowed s → GuestRun s₀ (op.apply k first s)

end

structure Guarded (k : BootDir) (first second : Word) (s : Sys) : Prop where
  holding : Holding (Lossy k) k s
  low : LowMap k first second s.mmu.vm.mem

/-! ### Accesses below 8 MB -/

lemma butRw_bit {e e' : Word} (h : e &&& ~~~pfRw = e' &&& ~~~pfRw) {i : ℕ} (hi : i ≠ 1) : e.getLsbD i = e'.getLsbD i := by
  by_cases hlt : i < 32
  · have hb := congrArg (·.getLsbD i) h
    simpa only [BitVec.getLsbD_and, BitVec.getLsbD_not, pfRw_bit, hi, hlt, decide_true, decide_false, Bool.not_false,
      Bool.and_true] using hb
  · rw [BitVec.getLsbD_of_ge _ _ (by omega), BitVec.getLsbD_of_ge _ _ (by omega)]

lemma firstEntry_flags {i : ℕ} (hi : i < 1024) : isPresent (firstEntry i) = true ∧ isCow (firstEntry i) = false ∧
    (isUser (firstEntry i) = true ↔ 128 ≤ i ∧ i < 256) := by
  have hzone : (userZoneStart ≤ BitVec.ofNat 32 (i * 0x1000) ∧ BitVec.ofNat 32 (i * 0x1000) < userZoneEnd) ↔
      128 ≤ i ∧ i < 256 := by
    rw [BitVec.le_def, BitVec.lt_def, BitVec.toNat_ofNat, Nat.mod_eq_of_lt (by omega)]
    simp only [userZoneStart, userZoneEnd, BitVec.ofNat_eq_ofNat, BitVec.toNat_ofNat]
    omega
  rw [isPresent_bit, isCow_bit, isUser_bit, firstEntry, or_flags_bit (aligned_ofNat i) (by omega),
    or_flags_bit (aligned_ofNat i) (by omega), or_flags_bit (aligned_ofNat i) (by omega), ← hzone]
  split
  · rename_i h
    exact ⟨by decide, by decide, fun _ => h, fun _ => by decide⟩
  · rename_i h
    exact ⟨by decide, by decide, fun hf => absurd hf (by decide), fun hz => absurd hz h⟩

namespace LowMap

lemma entry (h : LowMap k first second m) {i : ℕ} (hi : i < 1024) : isPresent (m first i) = true ∧
    isCow (m first i) = false ∧ (isUser (m first i) = true ↔ 128 ≤ i ∧ i < 256) ∧
    frameOf (m first i) = BitVec.ofNat 32 (i * 0x1000) := by
  have hbit : ∀ {j : ℕ}, j ≠ 1 → (m first i).getLsbD j = (firstEntry i).getLsbD j :=
    fun hj => butRw_bit (h.zone i hi) hj
  have hflags := firstEntry_flags hi
  rw [isPresent_bit, isCow_bit, isUser_bit] at hflags ⊢
  rw [hbit (by omega), hbit (by omega), hbit (by omega)]
  refine ⟨hflags.1, hflags.2.1, hflags.2.2, ?_⟩
  have hframe : frameOf (m first i) = frameOf (firstEntry i) := by
    apply BitVec.eq_of_getLsbD_eq
    intro j _
    rw [frameOf_bit, frameOf_bit]
    by_cases hj : j = 1
    · simp [hj]
    · rw [hbit hj]
  rw [hframe, firstEntry]
  split <;> exact frameOf_or_flags (aligned_ofNat i) (by decide)

lemma tables (h : LowMap k first second m) (ht : KernelTables k first second) :
    frameOf (m k.dir 0) = first ∧ frameOf (m k.dir 1) = second := by
  rw [h.dir₀, h.dir₁]
  exact ⟨frameOf_or_flags ht.aligned.1 (by decide), frameOf_or_flags ht.aligned.2 (by decide)⟩

lemma kernelMap (h : LowMap k first second m) (ht : KernelTables k first second) : KernelMap k m := by
  intro di hdi
  obtain ⟨h₀, h₁⟩ := h.tables ht
  obtain rfl | rfl : di = 0 ∨ di = 1 := by omega
  · rw [h₀]
    refine ⟨?_, fun ti hti => ⟨(h.entry hti).1, (h.entry hti).2.1⟩⟩
    rw [h.dir₀]
    exact (or_flags_present ht.aligned.1 (by decide) (by decide)).1
  · rw [h₁]
    refine ⟨?_, h.pool⟩
    rw [h.dir₁]
    exact (or_flags_present ht.aligned.2 (by decide) (by decide)).1

lemma access (h : LowMap k first second u.vm.mem) (ht : KernelTables k first second) (hl : Layout k u.vm.dirs u.vm.mem)
    (hu : u.cr3 ∈ spaces k u.vm.dirs) (hv : ¬ privateBase ≤ va) (write : Bool) :
    PyroOS.access u va write true = (u, none) ∨ userZoneStart ≤ va ∧ va < userZoneEnd ∧
      ∃ e, PyroOS.access u va write true = (u, some e) ∧ frameOf e = frameOf va := by
  obtain ⟨e, hpte, he, hcow⟩ := (h.kernelMap ht).pte hl hu hv
  have hw := walk_present write true (hl.space_aligned hu) hpte
  rw [hl.kernel_entry hu (dirIndex_low hv)] at hw
  split at hw
  · rename_i hperm
    have hdi : dirIndex va = 0 := by
      by_contra hne
      have hone : dirIndex va = 1 := by
        have := dirIndex_low hv
        omega
      have huser : isUser (u.vm.mem k.dir 1) = false := by
        rw [h.dir₁, isUser_bit, or_flags_bit ht.aligned.2 (by omega)]
        decide
      rw [hone, permits, huser] at hperm
      simp at hperm
    rw [hdi, (h.tables ht).1] at he
    rw [he, permits] at hperm
    obtain ⟨-, -, huser, hframe⟩ := h.entry (tabIndex_lt va)
    have hzone := huser.mp (by
      simp only [Bool.not_true, Bool.false_or, Bool.and_eq_true] at hperm
      exact hperm.1.2)
    rw [dirIndex_eq] at hdi
    rw [tabIndex_eq] at hzone hframe
    refine .inr ⟨?_, ?_, e, accessWith_ok hw, ?_⟩
    · rw [BitVec.le_def]
      simp only [userZoneStart, BitVec.ofNat_eq_ofNat, BitVec.toNat_ofNat]
      omega
    · rw [BitVec.lt_def]
      simp only [userZoneEnd, BitVec.ofNat_eq_ofNat, BitVec.toNat_ofNat]
      omega
    · rw [he, tabIndex_eq, hframe]
      apply BitVec.eq_of_toNat_eq
      rw [frameOf_toNat, BitVec.toNat_ofNat]
      omega
  · exact .inl (accessWith_refused hw (isrPageFault_plain write true (hl.space_aligned hu) hpte hcow))

lemma kept (h : LowMap k first second vm.mem) (ht : KernelTables k first second) {vm' : Vm} (hk : LowKept k vm vm') :
    LowMap k first second vm'.mem := by
  refine ⟨?_, ?_, fun i hi => ?_, fun i hi => ?_⟩
  · rw [hk _ _ k.low (.inr (by omega)), h.dir₀]
  · rw [hk _ _ k.low (.inr (by omega)), h.dir₁]
  · rw [hk _ _ ht.low.1 (.inl ht.apart.1)]
    exact h.zone i hi
  · rw [hk _ _ ht.low.2 (.inl ht.apart.2)]
    exact h.pool i hi

lemma setPage (h : LowMap k first second m) (ht : KernelTables k first second) {page : ℕ → Word} (hdir : b ≠ k.dir)
    (hpool : b ≠ second) (hzone : b = first → ∀ i < 1024, page i &&& ~~~pfRw = m first i &&& ~~~pfRw) :
    LowMap k first second (m.setPage b page) := by
  have hk : m.setPage b page k.dir = m k.dir := Function.update_of_ne hdir.symm _ _
  refine ⟨by rw [hk, h.dir₀], by rw [hk, h.dir₁], fun i hi => ?_, fun i hi => ?_⟩
  · by_cases hb : b = first
    · subst hb
      rw [PhysMem.setPage, Function.update_self, hzone rfl i hi]
      exact h.zone i hi
    · rw [PhysMem.setPage, Function.update_of_ne (Ne.symm hb)]
      exact h.zone i hi
  · rw [PhysMem.setPage, Function.update_of_ne hpool.symm]
    exact h.pool i hi

end LowMap

/-! ### Every state of a run -/

lemma Lossy.low_write (h : Lossy k vm) (hb : b < managedBase) (hne : b ≠ k.dir) (page : ℕ → Word) :
    Lossy k { vm with mem := vm.mem.setPage b page } := by
  obtain ⟨L, hbacked, ha⟩ := h
  have hag : Agree k vm.dirs vm.mem (vm.mem.setPage b page) := by
    refine ⟨fun d hd => Function.update_of_ne ?_ _ _, fun d di f hr ht => Function.update_of_ne ?_ _ _⟩
    · rintro rfl
      obtain rfl | hd := List.mem_cons.mp hd
      · exact hne rfl
      · exact (hbacked.layout.high _ (dir_mem_refs.mpr hd) _ rfl).1 hb
    · rintro rfl
      exact (hbacked.layout.high _ hr _ ht).1 hb
  refine ⟨L, ⟨hbacked.layout.agree hag, ?_, fun j hj => ?_⟩, fun f hf hm => ha f hf ?_⟩
  · rw [hag.targets_eq]
    exact hbacked.counts
  · dsimp only
    rw [PhysMem.setPage, Function.update_of_ne hne.symm]
    exact hbacked.low j hj
  · rwa [hag.targets_eq] at hm

lemma withWritable_table (a len : Word) (writable : Bool) (table : ℕ → Word) (i : ℕ) :
    tableSet a len writable table i &&& ~~~pfRw = table i &&& ~~~pfRw := by
  rw [tableSet]
  split
  · exact withWritable_bits writable (table i)
  · rfl

namespace Guarded

lemma sys (op : Op) (h : Guarded k first second s) (ht : KernelTables k first second) (hop : op.Attempted s) :
    Guarded k first second (op.apply k s) := by
  obtain ⟨L, hb⟩ := h.holding.books.backed
  have hrun := (op.mmuRun h.holding hop).mono fun _ _ ho => ho.1
  exact ⟨h.holding.step op hop, h.low.kept ht (hrun.step_all ⟨L, hb⟩).2⟩

lemma lowWrite (h : Guarded k first second s) (ht : KernelTables k first second) {page : ℕ → Word}
    (hb : b < managedBase) (hdir : b ≠ k.dir) (hpool : b ≠ second)
    (hzone : b = first → ∀ i < 1024, page i &&& ~~~pfRw = s.mmu.vm.mem first i &&& ~~~pfRw) :
    Guarded k first second (s.withVm { s.mmu.vm with mem := s.mmu.vm.mem.setPage b page }) :=
  ⟨h.holding.withVm (h.holding.books.low_write hb hdir page) rfl, h.low.setPage ht hdir hpool hzone⟩

lemma step (op : GuestOp) (h : Guarded k first second s) (ht : KernelTables k first second) (hop : op.Allowed s) :
    Guarded k first second (op.apply k first s) := by
  obtain ⟨L, hb⟩ := h.holding.books.backed
  cases op with
  | sys op => exact h.sys op ht hop
  | protect a len writable =>
    exact h.lowWrite ht ht.low.1 ht.apart.1 ht.ne fun _ i _ => withWritable_table a len writable _ i
  | load va =>
    by_cases hv : privateBase ≤ va
    · exact h.sys (.load va true) ht hv
    · rw [GuestOp.apply, loadByte]
      obtain ha | ⟨-, -, e, ha, -⟩ := h.low.access ht hb.layout h.holding.loaded hv false
      · rw [ha]
        exact h
      · rw [ha]
        exact h
  | store va b =>
    by_cases hv : privateBase ≤ va
    · exact h.sys (.store va b true) ht hv
    · rw [GuestOp.apply, storeByte]
      obtain ha | ⟨h₁, h₂, e, ha, he⟩ := h.low.access ht hb.layout h.holding.loaded hv true
      · rw [ha]
        exact h
      · rw [ha]
        have hzone : userZoneStart ≤ frameOf e ∧ frameOf e < managedBase := by
          rw [he, BitVec.le_def, BitVec.lt_def, frameOf_toNat]
          rw [BitVec.le_def] at h₁
          rw [BitVec.lt_def] at h₂
          simp only [userZoneStart, userZoneEnd, managedBase, BitVec.ofNat_eq_ofNat, BitVec.toNat_ofNat] at h₁ h₂ ⊢
          omega
        have hne : ∀ {a : Word}, a < userZoneStart → frameOf e ≠ a := by
          rintro _ hlt rfl
          exact absurd hlt (BitVec.not_lt.mpr hzone.1)
        exact h.lowWrite ht hzone.2 (hne ht.below.1) (hne ht.below.2.2) fun heq => absurd heq (hne ht.below.2.1)

lemma boot {memBytes : Word} (ht : KernelTables k first second) :
    Guarded k first second (bootWith k first second memBytes m) := by
  refine ⟨boot_holding ht.toBootTables, ?_, ?_, fun i hi => ?_, fun i hi => ?_⟩
  · rw [boot_dir, if_pos rfl]
  · rw [boot_dir, if_neg one_ne_zero, if_pos rfl]
  · rw [ht.boot_first ht.ne, firstEntry]
  · rw [ht.boot_second]
    exact or_flags_present (frameAddr_aligned (by simp only [maxFrames]; omega)) (by decide) (by decide)

end Guarded

lemma GuestRun.guarded (h : GuestRun k first s₀ s) (ht : KernelTables k first second) (h₀ : Guarded k first second s₀) :
    Guarded k first second s := by
  induction h with
  | start => exact h₀
  | step op _ hop ih => exact ih.step op ht hop

structure OwnPage (k : BootDir) (u : Mmu) (va e : Word) (write : Bool) : Prop where
  page : target u.vm.mem (.page u.cr3 (dirIndex va) (tabIndex va)) = some (frameOf e)
  high : ¬ frameOf e < managedBase
  notDir : frameOf e ∉ spaces k u.vm.dirs
  notTable : ∀ d di, Ref.tab d di ∈ refs k u.vm.dirs → target u.vm.mem (.tab d di) ≠ some (frameOf e)
  alone : write = true → ∀ r ∈ refs k u.vm.dirs, target u.vm.mem r = some (frameOf e) →
    r = .page u.cr3 (dirIndex va) (tabIndex va)

/-- After any process calls, permission changes and accesses, a program in ring 3 reaches the user zone, in place, and
else only pages of its own address space: never the kernel, a directory or a table. What it can write, no other page of
any address space shows. -/
theorem ring3_isolated {memBytes : Word} (ht : KernelTables k first second)
    (h : GuestRun k first (bootWith k first second memBytes m) s) (hacc : access s.mmu va write true = (u', some e)) :
    (userZoneStart ≤ va ∧ va < userZoneEnd ∧ u' = s.mmu ∧ frameOf e = frameOf va) ∨
      privateBase ≤ va ∧ u'.cr3 = s.mmu.cr3 ∧ OwnPage k u' va e write := by
  have hs := h.guarded ht (.boot ht)
  obtain ⟨L, hb⟩ := hs.holding.books.backed
  by_cases hv : privateBase ≤ va
  · refine .inr ?_
    have ha := hs.holding.books.accessWith write true 3 hs.holding.loaded hv
    rw [← access, hacc] at ha
    obtain ⟨hdirs, hcr3, hlossy⟩ := ha
    dsimp only at hdirs hcr3 hlossy
    obtain ⟨L', hb'⟩ := hlossy.backed
    have hl : u'.cr3 ∈ spaces k u'.vm.dirs := by
      rw [hdirs, hcr3]
      exact hs.holding.loaded
    obtain ⟨hpte, hperm⟩ := walk_ok (hb'.layout.space_aligned hl) (accessWith_walk 3 hacc)
    have hr := page_ref hl hv
    have htarget := target_page hpte
    refine ⟨hv, hcr3, htarget, (hb'.layout.high _ hr _ htarget).1, hb'.layout.page_not_space hr htarget,
      fun d di hr' => hb'.layout.page_not_table hr htarget hr', fun hw => hb'.layout.exclusive _ _ _ e hr hpte ?_⟩
    rw [hw] at hperm
    simp only [permits, Bool.not_true, Bool.false_or, Bool.and_eq_true] at hperm
    exact hperm.2.2
  · obtain hn | ⟨h₁, h₂, e', ha, he⟩ := hs.low.access ht hb.layout hs.holding.loaded hv write
    · cases hacc.symm.trans hn
    · obtain ⟨rfl, he'⟩ := Prod.mk.inj (hacc.symm.trans ha)
      rw [Option.some.inj he']
      exact .inl ⟨h₁, h₂, rfl, he⟩

lemma sample_kernelTables : KernelTables sampleDir 0x21000 0x22000 :=
  ⟨⟨by decide, by decide, by decide⟩, by decide, by decide⟩

def sampleOwnPage : Sys :=
  Op.apply sampleDir (.switch 1) (Op.apply sampleDir (.map 0x400000 privateBase (pfRw ||| pfUser))
    (Op.apply sampleDir (.assign 1) (Op.apply sampleDir (.alloc none) sampleBoot)))

def sampleGuest : Sys := GuestOp.apply sampleDir 0x21000 (.store 0x80000 9) sampleOwnPage

lemma sampleGuest_run : GuestRun sampleDir 0x21000 sampleBoot sampleGuest := by
  have h₁ : GuestRun sampleDir 0x21000 sampleBoot _ := .step (.sys (.alloc none)) .start trivial
  have h₂ := h₁.step (.sys (.assign 1)) ⟨by decide +kernel, by decide +kernel⟩
  have h₃ := h₂.step (.sys (.map 0x400000 privateBase (pfRw ||| pfUser)))
    ⟨⟨by decide, 1, by decide +kernel, by decide +kernel⟩, by decide, by decide +kernel⟩
  exact (h₃.step (.sys (.switch 1)) trivial).step (.store 0x80000 9) trivial

theorem ring3_isolated_page :
    OwnPage sampleDir (access sampleGuest.mmu privateBase true true).1 privateBase 0x401007 true := by
  have hacc : access sampleGuest.mmu privateBase true true =
      ((access sampleGuest.mmu privateBase true true).1, some 0x401007) :=
    Prod.ext rfl (by decide +kernel)
  obtain ⟨-, h, -⟩ | ⟨-, -, h⟩ := ring3_isolated sample_kernelTables sampleGuest_run hacc
  · exact absurd h (by decide)
  · exact h

end PyroOS
