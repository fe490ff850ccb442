import PyroOS.Process.Calls

/-! From boot on, frames are accounted for exactly and the process table stays consistent. -/

namespace PyroOS

open Sharing

/-! ### Boot -/

def pagingInstall (k : BootDir) (first second : Word) (m : PhysMem) : PhysMem :=
  let m := m.setPage first fun i =>
    let addr := BitVec.ofNat 32 (i * 0x1000)
    let flags := pfPresent ||| pfRw
    addr ||| (if userZoneStart ≤ addr ∧ addr < userZoneEnd then flags ||| pfUser else flags)
  let m := m.setPage second fun i =>
    (managedBase + BitVec.ofNat 32 (i * 0x1000)) ||| (pfPresent ||| pfRw)
  m.setPage k.dir fun i =>
    if i = 0 then first ||| (pfPresent ||| pfRw ||| pfUser)
    else if i = 1 then second ||| (pfPresent ||| pfRw)
    else 0

def bootWith (k : BootDir) (first second memBytes : Word) (m : PhysMem) : Sys :=
  procInstall k
    { mmu :=
        { vm := ⟨pagingInstall k first second m, pmmInstall memBytes, []⟩
          demand := ⟨fun _ => ⟨0, 0, 0, 0, false⟩, 0⟩
          cr3 := k.dir }
      table := fun _ => Proc.zero
      nextPid := 1
      currentIdx := 0 }

def bootMemory : Word := 0x00800000

def boot (k : BootDir) (first second : Word) (m : PhysMem) : Sys := bootWith k first second bootMemory m

variable {k : BootDir} {first second memBytes : Word} {m : PhysMem}

lemma pagingInstall_high {di : ℕ} (h : 2 ≤ di) : pagingInstall k first second m k.dir di = 0 := by
  simp only [pagingInstall, PhysMem.setPage, Function.update_self]
  rw [if_neg (by omega), if_neg (by omega)]

lemma boot_target {r : Ref} (hr : r ∈ refs k []) : target (pagingInstall k first second m) r = none := by
  have hsp : ∀ d, d ∈ spaces k [] → d = k.dir := fun d hd => by simpa [spaces] using hd
  cases r with
  | dir d => simp [dir_mem_refs] at hr
  | tab d di =>
    obtain ⟨hd, h₁, _⟩ := tab_mem_refs.mp hr
    rw [hsp d hd, target, pagingInstall_high h₁]
    rfl
  | page d di ti =>
    obtain ⟨hd, h₁, _⟩ := page_mem_refs.mp hr
    rw [hsp d hd, target, pteAt_of_absent (by simp [pagingInstall_high h₁])]
    rfl

lemma boot_sound : Sound k ⟨pagingInstall k first second m, pmmInstall memBytes, []⟩ := by
  have ht : ∀ r ∈ refs k [], ∀ f, target (pagingInstall k first second m) r ≠ some f := by
    intro r hr f
    rw [boot_target hr]
    simp
  refine ⟨⟨by simp [spaces], fun r hr f hf => (ht r hr f hf).elim,
    fun r hr _ _ f hf => (ht r hr f hf).elim, ?_, fun d hd => by simp at hd, ?_⟩, ?_⟩
  · intro d di ti e hr he
    exact (ht _ hr _ (target_page he)).elim
  · intro d di hr hp
    exact (ht _ hr _ (target_tab hp)).elim
  · rw [targets_eq_zero fun r hr => boot_target hr]
    exact pmmInstall_counts memBytes

lemma boot_inv : Inv k (bootWith k first second memBytes m) := by
  have htable : ∀ i : Slot, i ≠ 0 → (bootWith k first second memBytes m).table i = Proc.zero :=
    fun i hi => by simp only [bootWith, procInstall, Function.update_of_ne hi]
  refine ⟨boot_sound, ?_, ⟨rfl, rfl, Or.inr rfl, ?_⟩, ⟨?_, rfl, k.ne_zero⟩⟩
  · apply targets_eq_zero
    intro i _
    apply holds_eq_none.mpr
    by_cases hi : i = 0
    · subst hi
      exact fun _ => Or.inr rfl
    · rw [htable i hi]
      exact fun hl => (hl rfl).elim
  · intro i hz
    by_cases hi : i = 0
    · subst hi
      cases hz
    · rw [htable i hi] at hz
      cases hz
  · intro i
    by_cases hi : i = 0
    · subst hi
      exact ⟨fun _ => rfl, fun _ => rfl⟩
    · rw [htable i hi]
      exact ⟨fun hh => (by cases hh), fun hh => (hi hh).elim⟩

/-! ### Steps and runs -/

variable {s s₀ : Sys} {n : ℕ}

lemma Inv.mmu {u : Mmu} (h : Inv k s) (ha : Accessed k s.mmu u) : Inv k { s with mmu := u } := by
  refine ⟨ha.sound, ?_, h.slots, ?_⟩
  · rw [ha.dirs]
    exact h.owns
  · rw [ha.cr3]
    exact h.runs

lemma Inv.step (h : Inv k s) (op : Op) (hop : op.Enabled s) : Inv k (op.apply k s) := by
  cases op with
  | alloc name =>
    rcases procAlloc_cases s name with ⟨ha, _⟩ | ⟨i, hi, hu, _, ha⟩
    · simpa only [Op.apply, ha] using h
    · simpa only [Op.apply, ha] using h.fresh hi hu name
  | assign i => exact h.assign hop.1 hop.2
  | fork => exact h.forkWith (cloneSpec_cow k)
  | exit code => exact h.exit code
  | wait => exact h.wait
  | switch pid => exact h.switch pid
  | beginUser name => exact h.beginUser name
  | endUser pid => exact h.endUser pid
  | map dir virt flags =>
    obtain ⟨hd, hv, habs, hok⟩ := hop
    have hm := h.sound.mapAlloc (h.live_space hd) hv habs (Prod.ext rfl hok)
    exact h.withVm hm.sound hm.dirs
  | unmap dir virt =>
    have hu := h.sound.unmap (h.live_space hop.1) hop.2
    exact h.withVm hu.sound hu.dirs
  | promise dir start stop flags => exact ⟨h.sound, h.owns, h.slots, h.runs⟩
  | unpromise => exact ⟨h.sound, h.owns, h.slots, h.runs⟩
  | load va user => exact h.mmu (loadByte_accessed h.ok hop.1 hop.2)
  | store va b user => exact h.mmu (storeByte_accessed h.ok hop.1 hop.2 b)

lemma Run.mono {ok ok' : Op → Sys → Prop} (h : Run k ok s₀ n s) (hok : ∀ op s, ok op s → ok' op s) :
    Run k ok' s₀ n s := by
  induction h with
  | boot => exact .boot
  | step op _ hop ih => exact .step op ih (hok _ _ hop)

lemma Run.inv (h : Run k Op.Enabled s₀ n s) (h₀ : Inv k s₀) : Inv k s := by
  induction h with
  | boot => exact h₀
  | step op _ hop ih => exact ih.step op hop

/-! A short run: one process with a directory of its own, switched to and forked. -/

def sampleDir : BootDir := ⟨0x20000, by decide, by decide, by decide⟩

def sampleBoot : Sys := boot sampleDir 0x21000 0x22000 fun _ _ => 0

def sampleFork : Sys :=
  Op.fork.apply sampleDir (Op.apply sampleDir (.switch 1)
    (Op.apply sampleDir (.assign 1) (Op.apply sampleDir (.alloc none) sampleBoot)))

lemma sample_run : ∃ n : ℕ, n ≤ 2 ∧ Run sampleDir Op.Enabled sampleBoot n sampleFork := by
  refine ⟨_, ?_, .step .fork (.step (.switch 1) (.step (.assign 1) (.step (.alloc none) .boot trivial)
    ⟨by decide, by decide⟩) trivial) trivial⟩
  simp only [Op.creates]
  split <;> split <;> omega

example : (sampleFork.table 2).state = .ready ∧ (sampleFork.table 2).ppid = 1 := by decide +kernel

/-! ### Frame accounting -/

def liveDirs (k : BootDir) (s : Sys) : List Word := (allSlots.filterMap fun i => holds k (s.table i)).dedup

def liveRefs (k : BootDir) (s : Sys) : List Ref := refs k (liveDirs k s)

def references (k : BootDir) (s : Sys) (f : ℕ) : ℕ :=
  (liveRefs k s).countP fun r => decide (target s.mmu.vm.mem r = some (frameAddr f))

lemma Inv.liveDirs_perm (h : Inv k s) : (liveDirs k s).Perm s.mmu.vm.dirs := by
  have hperm : (allSlots.filterMap fun i => holds k (s.table i)).Perm s.mmu.vm.dirs :=
    Multiset.coe_eq_coe.mp h.owns
  rw [liveDirs, (hperm.nodup_iff.mpr h.dirs_nodup).dedup]
  exact hperm

lemma Inv.mem_liveRefs (h : Inv k s) {r : Ref} : r ∈ liveRefs k s ↔ r ∈ refs k s.mmu.vm.dirs :=
  (refs_perm h.liveDirs_perm).mem_iff

lemma Inv.references_eq (h : Inv k s) (f : ℕ) : references k s f =
    (targets (refs k s.mmu.vm.dirs) (target s.mmu.vm.mem)).count (frameAddr f) := by
  rw [references, count_targets]
  exact (refs_perm h.liveDirs_perm).countP_eq _

namespace Inv

lemma bit_iff (h : Inv k s) {f : ℕ} (hf : f < s.mmu.vm.pmm.totalFrames) :
    s.mmu.vm.pmm.bitmap f = true ↔ ∃ r ∈ liveRefs k s, target s.mmu.vm.mem r = some (frameAddr f) := by
  rw [h.sound.counts.bit f hf, mem_targets]
  exact exists_congr fun r => and_congr_left fun _ => h.mem_liveRefs.symm

lemma refcount_eq (h : Inv k s) {f : ℕ} (hf : f < s.mmu.vm.pmm.totalFrames) :
    s.mmu.vm.pmm.refcount f = references k s f := by
  rw [h.references_eq, h.sound.counts.count f hf]

lemma references_le (h : Inv k s) (f : ℕ) : references k s f ≤ 16 := by
  rw [h.references_eq]
  exact (h.sound.layout.count_le _).trans (by have := h.length_le; omega)

lemma alloc_unused (h : Inv k s) {r : Ref} (hr : r ∈ liveRefs k s) :
    target s.mmu.vm.mem r ≠ some (pmmAlloc s.mmu.vm.pmm).2 := by
  intro ht
  have hmem := mem_targets.mpr ⟨r, h.mem_liveRefs.mp hr, ht⟩
  rcases h.sound.counts.alloc with ⟨ha, _⟩ | ⟨p', a, ha, _, hn, _⟩
  · rw [ha] at hmem
    exact h.sound.counts.ne_zero hmem rfl
  · rw [ha] at hmem
    exact hn hmem

lemma shared_readonly (h : Inv k s) {f : ℕ} (hc : 2 ≤ references k s f) {d e : Word} {di ti : ℕ}
    (hr : Ref.page d di ti ∈ liveRefs k s) (he : pteAt s.mmu.vm.mem d di ti = some e)
    (hf : frameOf e = frameAddr f) : isWritable e = false := by
  by_contra hw
  rw [Bool.not_eq_false] at hw
  rw [h.mem_liveRefs] at hr
  have hone := count_one (refs_nodup h.sound.layout.nodup) hr (target_page he)
    (fun r hr' ht => h.sound.layout.exclusive d di ti e hr he hw r hr' ht)
  rw [h.references_eq, ← hf, hone] at hc
  omega

end Inv

/-- In every reachable state the bit of a frame says whether it is referred to and its count says
how often; so the count never saturates, an allocated frame is one that nobody uses, and a frame
with two or more references is writable through none of them and survives the release of one. -/
theorem frame_accounting (h : Run k Op.Enabled (boot k first second m) n s) :
    (∀ f < s.mmu.vm.pmm.totalFrames,
      (s.mmu.vm.pmm.bitmap f = true ↔
        ∃ r ∈ liveRefs k s, target s.mmu.vm.mem r = some (frameAddr f)) ∧
      s.mmu.vm.pmm.refcount f = references k s f ∧ s.mmu.vm.pmm.refcount f < 255) ∧
    (∀ r ∈ liveRefs k s, target s.mmu.vm.mem r ≠ some (pmmAlloc s.mmu.vm.pmm).2) ∧
    ∀ f < s.mmu.vm.pmm.totalFrames, 2 ≤ references k s f →
      (pmmFree s.mmu.vm.pmm (frameAddr f)).bitmap f = true ∧
      ∀ d di ti e, Ref.page d di ti ∈ liveRefs k s → pteAt s.mmu.vm.mem d di ti = some e →
        frameOf e = frameAddr f → isWritable e = false := by
  have hi := h.inv boot_inv
  refine ⟨fun f hf => ⟨hi.bit_iff hf, hi.refcount_eq hf, ?_⟩, fun r hr => hi.alloc_unused hr, ?_⟩
  · rw [hi.refcount_eq hf]
    exact lt_of_le_of_lt (hi.references_le f) (by norm_num)
  · intro f hf hc
    refine ⟨hi.sound.counts.free_shared hf ?_, fun d di ti e hr he hfe => hi.shared_readonly hc hr he hfe⟩
    rwa [← hi.references_eq]

theorem frame_accounting_forked : ∃ n, Run sampleDir Op.Enabled sampleBoot n sampleFork ∧
    ∀ f < sampleFork.mmu.vm.pmm.totalFrames,
      sampleFork.mmu.vm.pmm.refcount f = references sampleDir sampleFork f := by
  obtain ⟨n, _, h⟩ := sample_run
  exact ⟨n, h, fun f hf => ((frame_accounting h).1 f hf).2.1⟩

end PyroOS
