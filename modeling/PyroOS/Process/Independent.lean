import PyroOS.Memory.Duplicate
import PyroOS.Process.Reachable

/-! Address spaces are independent finite maps. -/

namespace PyroOS

inductive VmOp where
  | create
  | mapAlloc (d virt flags : Word)
  | unmap (d virt : Word)
  | cloneDir (src : Word)
  | cloneCow (src : Word)
  | cowHandle (d virt err : Word)
  | destroy (d : Word)

section

variable (k : BootDir)

def VmOp.apply : VmOp → Vm → Vm
  | .create, vm => (vmmCreateDir k vm).1
  | .mapAlloc d virt flags, vm => (vmmMapAlloc vm d virt flags).1
  | .unmap d virt, vm => vmmUnmap vm d virt
  | .cloneDir src, vm => (vmmCloneDir k vm src).1
  | .cloneCow src, vm => (vmmCloneCow k vm src).1
  | .cowHandle d virt err, vm => (vmmCowHandle vm d virt err).1
  | .destroy d, vm => vmmDestroyDir k vm d

/-- Directories are live, pages private, and sharing gives no frame more than 255 owners. -/
def VmOp.Allowed : VmOp → Vm → Prop
  | .create, _ => True
  | .mapAlloc d virt _, vm | .unmap d virt, vm | .cowHandle d virt _, vm =>
    d ∈ spaces k vm.dirs ∧ privateBase ≤ virt
  | .cloneDir d, vm | .destroy d, vm => d ∈ spaces k vm.dirs
  | .cloneCow src, vm => src ∈ spaces k vm.dirs ∧ RoomToShare k vm src

inductive VmRun (vm₀ : Vm) : Vm → Prop
  | start : VmRun vm₀ vm₀
  | step {vm : Vm} (op : VmOp) : VmRun vm₀ vm → op.Allowed k vm → VmRun vm₀ (op.apply k vm)

end

def VmOp.On (d virt : Word) : VmOp → Prop
  | .mapAlloc d' virt' _ | .unmap d' virt' | .cowHandle d' virt' _ => d' = d ∧ frameOf virt' = frameOf virt
  | _ => False

structure OwnZeroFrame (k : BootDir) (vm : Vm) (d virt f : Word) : Prop where
  aligned : Aligned f
  zero : ∀ i, vm.mem f i = 0
  alone : ∀ r ∈ refs k vm.dirs, target vm.mem r = some f → r = .page d (dirIndex virt) (tabIndex virt)

structure Independent (k : BootDir) (vm : Vm) : Prop where
  others : ∀ op : VmOp, op.Allowed k vm → ∀ d ∈ spaces k vm.dirs, op ≠ .destroy d →
    d ∈ spaces k (op.apply k vm).dirs ∧
      ∀ virt, ¬ op.On d virt → vmmTranslate (op.apply k vm) d virt = vmmTranslate vm d virt
  mapped : ∀ d ∈ spaces k vm.dirs, ∀ virt flags, privateBase ≤ virt → (vmmMapAlloc vm d virt flags).2 = 0 →
    ∃ f, vmmTranslate (vmmMapAlloc vm d virt flags).1 d virt = f ||| (virt &&& 0xFFF) ∧
      OwnZeroFrame k (vmmMapAlloc vm d virt flags).1 d virt f
  unmapped : ∀ d ∈ spaces k vm.dirs, ∀ virt, privateBase ≤ virt → vmmTranslate (vmmUnmap vm d virt) d virt = 0
  copied : ∀ src ∈ spaces k vm.dirs, (vmmCloneDir k vm src).2 ≠ 0 → (vmmCloneDir k vm src).2 ∉ spaces k vm.dirs ∧
    ∀ virt, vmmTranslate (vmmCloneDir k vm src).1 (vmmCloneDir k vm src).2 virt ≠ 0 ↔ vmmTranslate vm src virt ≠ 0
  shared : ∀ src ∈ spaces k vm.dirs, RoomToShare k vm src → (vmmCloneCow k vm src).2 ≠ 0 →
    (vmmCloneCow k vm src).2 ∉ spaces k vm.dirs ∧
    ∀ virt, vmmTranslate (vmmCloneCow k vm src).1 (vmmCloneCow k vm src).2 virt ≠ 0 ↔ vmmTranslate vm src virt ≠ 0

variable {k : BootDir} {vm vm' : Vm} {L L' : Multiset Word} {d virt flags src dst f : Word} {op : VmOp}

/-! ### Steps and runs -/

def VmOp.moves : VmOp → Ref → Prop
  | .mapAlloc d virt _ | .unmap d virt | .cowHandle d virt _ => OnWay d virt
  | _ => Nowhere

lemma Edited.subset {moved : Ref → Prop} (h : Edited k moved vm vm') (hd : d ∈ spaces k vm.dirs) :
    d ∈ spaces k vm'.dirs := by rwa [h.dirs]

lemma Duplicated.subset (h : Duplicated k vm vm' src dst) (hd : d ∈ spaces k vm.dirs) : d ∈ spaces k vm'.dirs := by
  rw [h.dirs]
  exact List.cons_subset_cons _ (List.subset_cons_self _ _) hd

lemma VmOp.step (op : VmOp) (h : Backed k L vm) (hop : op.Allowed k vm) :
    (∃ L', Backed k L' (op.apply k vm)) ∧ Undisturbed k op.moves vm (op.apply k vm) ∧
      ∀ d ∈ spaces k vm.dirs, op ≠ .destroy d → d ∈ spaces k (op.apply k vm).dirs := by
  cases op with
  | create =>
    rw [VmOp.apply]
    rcases h.create with hc | ⟨vm', a, hc, _, _, hdirs, hb, hu, _⟩
    · rw [hc]
      exact ⟨⟨L, h⟩, .refl _ _ _, fun d hd _ => hd⟩
    · rw [hc]
      refine ⟨⟨L, hb⟩, hu, fun d hd _ => ?_⟩
      rw [hdirs]
      exact List.cons_subset_cons _ (List.subset_cons_self _ _) hd
  | mapAlloc d virt flags =>
    have he := (h.mapAlloc flags hop.1 hop.2).1
    exact ⟨he.backed, he.rest, fun d hd _ => he.subset hd⟩
  | unmap d virt =>
    have he := (h.unmap hop.1 hop.2).1
    exact ⟨he.backed, he.rest, fun d hd _ => he.subset hd⟩
  | cowHandle d virt err =>
    have he := h.cowHandle err hop.1 hop.2
    exact ⟨he.backed, he.rest, fun d hd _ => he.subset hd⟩
  | cloneDir src =>
    rw [VmOp.apply]
    rcases h.cloneDir hop with ⟨vm', dst, hc, _, hd⟩ | ⟨vm', hc, he⟩
    · rw [hc]
      exact ⟨hd.backed, hd.rest, fun d hd' _ => hd.subset hd'⟩
    · rw [hc]
      exact ⟨he.backed, he.rest, fun d hd _ => he.subset hd⟩
  | cloneCow src =>
    rw [VmOp.apply]
    rcases h.cloneCow hop.1 hop.2 with ⟨vm', dst, hc, _, hd⟩ | ⟨vm', hc, he⟩
    · rw [hc]
      exact ⟨hd.backed, hd.rest, fun d hd' _ => hd.subset hd'⟩
    · rw [hc]
      exact ⟨he.backed, he.rest, fun d hd _ => he.subset hd⟩
  | destroy d =>
    rcases List.mem_cons.mp hop with rfl | hd
    · rw [VmOp.apply, vmmDestroyDir, if_pos (.inr rfl)]
      exact ⟨⟨L, h⟩, .refl _ _ _, fun d hd _ => hd⟩
    · obtain ⟨hdirs, hb, hu⟩ := h.destroy hd
      refine ⟨⟨L, hb⟩, hu, fun d' hd' hne => ?_⟩
      rw [VmOp.apply, hdirs]
      rcases List.mem_cons.mp hd' with rfl | hd'
      · exact List.mem_cons_self
      · exact List.mem_cons_of_mem _ ((List.mem_erase_of_ne (by rintro rfl; exact hne rfl)).mpr hd')

/-- Where the kernel keeps the tables of its own range: in its memory, apart from the directory. -/
structure BootTables (k : BootDir) (first second : Word) : Prop where
  aligned : Aligned first ∧ Aligned second
  low : first < managedBase ∧ second < managedBase
  apart : first ≠ k.dir ∧ second ≠ k.dir

section boot

variable {first second memBytes : Word} {m : PhysMem}

lemma boot_dir (di : ℕ) : (bootWith k first second memBytes m).mmu.vm.mem k.dir di =
    if di = 0 then first ||| (pfPresent ||| pfRw ||| pfUser)
    else if di = 1 then second ||| (pfPresent ||| pfRw) else 0 := by
  simp only [bootWith, procInstall, pagingInstall, PhysMem.setPage, Function.update_self]

lemma BootTables.boot_first (ht : BootTables k first second) (hne : first ≠ second) (i : ℕ) :
    (bootWith k first second memBytes m).mmu.vm.mem first i = BitVec.ofNat 32 (i * 0x1000) |||
      (if userZoneStart ≤ BitVec.ofNat 32 (i * 0x1000) ∧ BitVec.ofNat 32 (i * 0x1000) < userZoneEnd then
        pfPresent ||| pfRw ||| pfUser else pfPresent ||| pfRw) := by
  simp only [bootWith, procInstall, pagingInstall, PhysMem.setPage, Function.update_of_ne ht.apart.1,
    Function.update_of_ne hne, Function.update_self]

lemma BootTables.boot_second (ht : BootTables k first second) (i : ℕ) :
    (bootWith k first second memBytes m).mmu.vm.mem second i =
      (managedBase + BitVec.ofNat 32 (i * 0x1000)) ||| (pfPresent ||| pfRw) := by
  simp only [bootWith, procInstall, pagingInstall, PhysMem.setPage, Function.update_of_ne ht.apart.2,
    Function.update_self]

lemma boot_backed (ht : BootTables k first second) : Backed k 0 (bootWith k first second memBytes m).mmu.vm := by
  have hs : Sound k (bootWith k first second memBytes m).mmu.vm := boot_sound
  refine ⟨hs.layout, by rw [add_zero]; exact hs.counts, fun j hj => ?_⟩
  obtain rfl | rfl : j = 0 ∨ j = 1 := by omega
  · rw [boot_dir, if_pos rfl, frameOf_or_flags ht.aligned.1 (by decide)]
    exact ⟨ht.low.1, ht.apart.1⟩
  · rw [boot_dir, if_neg one_ne_zero, if_pos rfl, frameOf_or_flags ht.aligned.2 (by decide)]
    exact ⟨ht.low.2, ht.apart.2⟩

end boot

lemma VmRun.backed {vm₀ : Vm} (h : VmRun k vm₀ vm) (h₀ : ∃ L, Backed k L vm₀) : ∃ L, Backed k L vm := by
  induction h with
  | start => exact h₀
  | step op _ hop ih =>
    obtain ⟨L, hb⟩ := ih
    exact (op.step hb hop).1

/-! ### Independence -/

lemma placed_ne_zero {t : Option Word} (h : ∀ f, t = some f → f ≠ 0) : placed t virt ≠ 0 ↔ t.isSome = true := by
  cases t with
  | none => simp [placed]
  | some f =>
    simp only [placed, Option.elim_some, Option.isSome_some, iff_true]
    intro hz
    exact h f rfl (BitVec.or_eq_zero_iff.mp hz).1

lemma Backed.translate_ne_zero (h : Backed k L vm) (hd : d ∈ spaces k vm.dirs) (hv : 2 ≤ dirIndex virt) :
    vmmTranslate vm d virt ≠ 0 ↔ (target vm.mem (.page d (dirIndex virt) (tabIndex virt))).isSome = true := by
  rw [h.layout.translate hd hv]
  refine placed_ne_zero fun f hf => ?_
  rintro rfl
  exact (h.layout.high _ (page_mem_refs.mpr ⟨hd, hv, dirIndex_lt _, tabIndex_lt _⟩) _ hf).1 (by decide)

lemma Duplicated.translate (h : Duplicated k vm vm' src dst) (hb : Backed k L vm) (hsrc : src ∈ spaces k vm.dirs)
    (virt : Word) : vmmTranslate vm' dst virt ≠ 0 ↔ vmmTranslate vm src virt ≠ 0 := by
  obtain ⟨L', hb'⟩ := h.backed
  have hdst : dst ∈ spaces k vm'.dirs := by
    rw [h.dirs]
    exact List.mem_cons_of_mem _ List.mem_cons_self
  by_cases hv : 2 ≤ dirIndex virt
  · rw [hb'.translate_ne_zero hdst hv, hb.translate_ne_zero hsrc hv, h.pages _ _ hv (dirIndex_lt _) (tabIndex_lt _)]
  · rw [not_le] at hv
    rw [hb'.layout.translate_low hdst hv, hb.layout.translate_low hsrc hv,
      h.rest.translate hb hb' List.mem_cons_self List.mem_cons_self id]

lemma VmOp.not_moves (hon : ¬ op.On d virt) :
    ¬ op.moves (.page d (dirIndex virt) (tabIndex virt)) := by
  intro hm
  cases op with
  | mapAlloc d' virt' _ | unmap d' virt' | cowHandle d' virt' _ =>
    rcases hm with hm | hm
    · obtain ⟨rfl, h₁, h₂⟩ := Ref.page.inj hm
      exact hon ⟨rfl, frameOf_eq_of_index h₁.symm h₂.symm⟩
    · cases hm
  | _ => exact hm

theorem spaces_independent {first second : Word} {m : PhysMem} (ht : BootTables k first second)
    (h : VmRun k (boot k first second m).mmu.vm vm) : Independent k vm := by
  obtain ⟨L, hb⟩ := h.backed ⟨0, boot_backed ht⟩
  refine ⟨fun op hop d hd hne => ?_, fun d hd virt flags hv hok => ?_, fun d hd virt hv => ?_, fun src hsrc hne => ?_,
    fun src hsrc hroom hne => ?_⟩
  · obtain ⟨⟨L', hb'⟩, hu, hlive⟩ := op.step hb hop
    exact ⟨hlive d hd hne, fun virt hon => hu.translate hb hb' hd (hlive d hd hne) (VmOp.not_moves hon)⟩
  · obtain ⟨he, hzero⟩ := hb.mapAlloc flags hd hv
    obtain ⟨L', hb'⟩ := he.backed
    obtain ⟨f, hal, hz, halone⟩ := hzero hok
    have hr := page_ref (he.subset hd) hv
    refine ⟨f, ?_, hal, fun i => by rw [hz], fun r hr' ht => (halone r hr').mp ht⟩
    rw [hb'.layout.translate (he.subset hd) (dirIndex_private hv), (halone _ hr).mpr rfl]
    rfl
  · obtain ⟨he, hnone⟩ := hb.unmap hd hv
    obtain ⟨L', hb'⟩ := he.backed
    rw [hb'.layout.translate (he.subset hd) (dirIndex_private hv), hnone]
    rfl
  · rcases hb.cloneDir hsrc with ⟨vm', dst, hc, _, hdup⟩ | ⟨vm', hc, _⟩
    · rw [hc]
      exact ⟨hdup.new, hdup.translate hb hsrc⟩
    · rw [hc] at hne
      exact (hne rfl).elim
  · rcases hb.cloneCow hsrc hroom with ⟨vm', dst, hc, _, hdup⟩ | ⟨vm', hc, _⟩
    · rw [hc]
      exact ⟨hdup.new, hdup.translate hb hsrc⟩
    · rw [hc] at hne
      exact (hne rfl).elim

def sampleSpaces : Vm :=
  VmOp.apply sampleDir (.cloneCow 0x400000) (VmOp.apply sampleDir (.mapAlloc 0x400000 0x800000 6)
    (VmOp.apply sampleDir .create sampleBoot.mmu.vm))

theorem spaces_independent_cloned : VmRun sampleDir sampleBoot.mmu.vm sampleSpaces ∧
    Independent sampleDir sampleSpaces := by
  have hrun : VmRun sampleDir sampleBoot.mmu.vm sampleSpaces := by
    refine .step _ (.step _ (.step .create .start trivial) ⟨?_, by decide⟩) ⟨?_, ?_⟩
    · decide +kernel
    · decide +kernel
    · exact fun di ti f _ _ => lt_of_le_of_lt List.countP_le_length (by decide +kernel)
  exact ⟨hrun, spaces_independent ⟨⟨by decide, by decide⟩, ⟨by decide, by decide⟩, by decide, by decide⟩ hrun⟩

end PyroOS
