import PyroOS.Process.KernelRange

/-! Process calls when frames run out. A mapping that finds a frame for the page and none for its table leaves the
frame counted and unused; the books are exact but for such frames. -/

namespace PyroOS

open Sharing

variable {k : BootDir} {s s₀ : Sys} {u : Mmu} {vm vm' : Vm} {L : Multiset Word} {d virt flags va code : Word}
  {write user : Bool} {n : ℕ}

def Lossy (k : BootDir) (vm : Vm) : Prop :=
  ∃ L, Backed k L vm ∧ ∀ f ∈ L, f ∉ targets (refs k vm.dirs) (target vm.mem)

lemma Lossy.backed (h : Lossy k vm) : ∃ L, Backed k L vm := by
  obtain ⟨L, hb, _⟩ := h
  exact ⟨L, hb⟩

lemma Backed.lossy (h : Backed k 0 vm) : Lossy k vm := ⟨0, h, fun f hf => (Multiset.notMem_zero f hf).elim⟩

/-! ### The memory manager -/

lemma Backed.spared (hb : Backed k L vm') (hdirs : vm'.dirs = vm.dirs) (hs : Spared k vm.dirs L vm.mem vm'.mem)
    (h : ∀ f ∈ L, f ∉ targets (refs k vm.dirs) (target vm.mem)) : Lossy k vm' := by
  refine ⟨L, hb, fun f hf hm => h f hf (hs f hf ?_)⟩
  rwa [← hdirs]

namespace Lossy

lemma create (h : Lossy k vm) : vmmCreateDir k vm = (vm, 0) ∨
    ∃ vm' a, vmmCreateDir k vm = (vm', a) ∧ a ≠ 0 ∧ vm'.dirs = a :: vm.dirs ∧ Lossy k vm' := by
  obtain ⟨L, hb, ha⟩ := h
  rcases hb.booked.create with ⟨hc, _⟩ | ⟨p, a, hc, hne, hf, haL, _, hb'⟩
  · exact .inl hc
  refine .inr ⟨_, a, hc, hne, rfl, L, hb'.backed hb fun b i hb _ => congrFun (withDir_other (hf.high_ne hb)) i,
    fun f hfL hm => ?_⟩
  rw [withDir_targets hf] at hm
  rcases Multiset.mem_cons.mp hm with rfl | hm
  · exact haL hfL
  · exact ha f hfL hm

lemma destroy (h : Lossy k vm) (hd : d ∈ vm.dirs) :
    (vmmDestroyDir k vm d).dirs = vm.dirs.erase d ∧ Lossy k (vmmDestroyDir k vm d) := by
  obtain ⟨L, hb, ha⟩ := h
  obtain ⟨hdirs, hb', hu⟩ := hb.destroy hd
  refine ⟨hdirs, L, hb', fun f hf hm => ha f hf ?_⟩
  obtain ⟨r, hr, ht⟩ := mem_targets.mp hm
  have hold : r ∈ refs k vm.dirs := by
    rw [hdirs] at hr
    exact refs_subset List.erase_subset hr
  exact mem_targets.mpr ⟨r, hold, (hu.refs r hold hr id).symm.trans ht⟩

lemma uncrowded (hb : Backed k L vm) (ha : ∀ f ∈ L, f ∉ targets (refs k vm.dirs) (target vm.mem))
    (hlen : vm.dirs.length ≤ 15) (src : Word) : Uncrowded k L vm src := by
  intro di ti f hr ht
  have hcount := hb.layout.count_le f
  rw [Multiset.count_add, Multiset.count_eq_zero_of_notMem fun hf => ha f hf (mem_targets.mpr ⟨_, hr, ht⟩)]
  omega

lemma carried {src : Word} {L' : Multiset Word} (hL : Carried k L vm src L' vm') (hb : Backed k L vm)
    (hlow : LowSame k vm.mem vm'.mem) (ha : ∀ f ∈ L, f ∉ targets (refs k vm.dirs) (target vm.mem)) : Lossy k vm' :=
  ⟨L', hL.booked.backed hb hlow, fun f hf hm => ha f (Multiset.mem_of_le hL.le hf) (hL.spare f hf hm)⟩

lemma cloneCow (k : BootDir) : CloneKeeps k (Lossy k) (vmmCloneCow k) := by
  rintro vm src ⟨L, hb, ha⟩ hsrc hlen
  rcases hb.booked.cloneCow hsrc fun _ _ f _ _ => lt_of_le_of_lt (hb.layout.count_le f) (by omega) with
    ⟨vm', dst, hc, hne, hcl⟩ | ⟨vm', hc, hun, _⟩
  · obtain ⟨L', hL⟩ := hcl.books
    exact .inl ⟨vm', dst, hc, hne, hcl.dirs, carried hL hb hcl.low ha⟩
  · obtain ⟨L', hL⟩ := hun.books
    exact .inr ⟨vm', hc, hun.dirs, carried hL hb hun.low ha⟩

lemma books (k : BootDir) : Books k (Lossy k) :=
  ⟨fun _ ⟨_, hb, _⟩ => hb.layout.nodup, fun _ h => h.create, fun _ _ h hd => h.destroy hd⟩

lemma mapAlloc (flags : Word) (h : Lossy k vm) (hd : d ∈ spaces k vm.dirs) (hv : privateBase ≤ virt)
    (habs : pteAt vm.mem d (dirIndex virt) (tabIndex virt) = none) :
    (vmmMapAlloc vm d virt flags).1.dirs = vm.dirs ∧ Lossy k (vmmMapAlloc vm d virt flags).1 := by
  obtain ⟨L, hb, ha⟩ := h
  rcases hb.mapAlloc_cases flags hd hv with ⟨hm, _⟩ | ⟨p, x, _, _, _, _, hm, hf, hb'⟩ |
    ⟨p, x, vm', _, _, _, hm, _, he, hb'⟩
  · rw [hm]
    exact ⟨rfl, L, hb, ha⟩
  · rw [hm]
    refine ⟨rfl, _, hb', fun f hfL hmem => ?_⟩
    rw [(hf.setPage_agree fun _ => 0).targets_eq] at hmem
    rcases Multiset.mem_cons.mp hfL with rfl | hfL
    · obtain ⟨r, hr, ht⟩ := mem_targets.mp hmem
      exact hf.2.2 r hr ht
    · exact ha f hfL hmem
  · rw [hm]
    rw [target, habs, Option.map_none, single_none, add_zero] at hb'
    exact ⟨he.dirs, hb'.spared he.dirs he.spare ha⟩

lemma unmap (h : Lossy k vm) (hd : d ∈ spaces k vm.dirs) (hv : privateBase ≤ virt) :
    (vmmUnmap vm d virt).dirs = vm.dirs ∧ Lossy k (vmmUnmap vm d virt) := by
  obtain ⟨L, hb, ha⟩ := h
  have hc := hb.booked.unmap hd hv
  refine ⟨hc.dirs, (hc.backed hb).spared hc.dirs (.of_one hc.rest fun f _ ht => ?_) ha⟩
  rw [target, hc.gone] at ht
  cases ht

lemma cowHandle (code : Word) (h : Lossy k vm) (hd : d ∈ spaces k vm.dirs) (hv : privateBase ≤ virt) :
    (vmmCowHandle vm d virt code).1.dirs = vm.dirs ∧ Lossy k (vmmCowHandle vm d virt code).1 := by
  obtain ⟨L, hb, ha⟩ := h
  rcases hb.booked.cowHandle code hd hv with ⟨hc, _⟩ | ⟨_, vm', hc, hs⟩
  · rw [hc]
    exact ⟨rfl, L, hb, ha⟩
  · rw [hc]
    exact ⟨hs.dirs, (hs.backed hb).spared hs.dirs hs.spare ha⟩

/-! ### Accesses -/

lemma demandHandle (h : Lossy k u.vm) (hl : u.cr3 ∈ spaces k u.vm.dirs) (hv : privateBase ≤ va)
    (hcode : code &&& 0x1 = 0 → u.pte va = none) : (demandHandle u va code).1.vm.dirs = u.vm.dirs ∧
      (demandHandle u va code).1.cr3 = u.cr3 ∧ Lossy k (demandHandle u va code).1.vm := by
  rw [PyroOS.demandHandle]
  split
  · exact ⟨rfl, rfl, h⟩
  · rename_i hc
    cases hp : promised u.demand (frameOf u.cr3) va with
    | none => exact ⟨rfl, rfl, h⟩
    | some r =>
      obtain ⟨L, hb⟩ := h.backed
      have hdir : r.dir = u.cr3 := (promised_dir hp).trans (hb.layout.space_aligned hl)
      obtain ⟨hdirs, hm⟩ := h.mapAlloc r.flags hl (frameOf_private hv)
        (by rw [dirIndex_frameOf, tabIndex_frameOf]; exact hcode (not_not.mp hc))
      simp only [hdir, and_pageMask]
      split
      · exact ⟨hdirs, rfl, hm⟩
      · exact ⟨hdirs, rfl, hm⟩

lemma isrPageFault (h : Lossy k u.vm) (hl : u.cr3 ∈ spaces k u.vm.dirs) (hv : privateBase ≤ va)
    (hcode : code &&& 0x1 = 0 → u.pte va = none) : (isrPageFault u va code).1.vm.dirs = u.vm.dirs ∧
      (isrPageFault u va code).1.cr3 = u.cr3 ∧ Lossy k (isrPageFault u va code).1.vm := by
  have hd := h.demandHandle hl hv hcode
  rw [PyroOS.isrPageFault]
  generalize PyroOS.demandHandle u va code = r at hd ⊢
  obtain ⟨u', served⟩ := r
  cases served with
  | true => exact hd
  | false =>
    obtain ⟨hdirs, hcr3, h'⟩ := hd
    dsimp only at hdirs hcr3 h'
    have hl' : u'.cr3 ∈ spaces k u'.vm.dirs := by
      rw [hdirs, hcr3]
      exact hl
    obtain ⟨hdirs', hc⟩ := h'.cowHandle code hl' hv
    exact ⟨hdirs'.trans hdirs, hcr3, hc⟩

lemma accessWith (write user : Bool) (n : ℕ) (h : Lossy k u.vm) (hl : u.cr3 ∈ spaces k u.vm.dirs)
    (hv : privateBase ≤ va) :
    (accessWith n u va write user).1.vm.dirs = u.vm.dirs ∧ (accessWith n u va write user).1.cr3 = u.cr3 ∧
      Lossy k (accessWith n u va write user).1.vm := by
  induction n generalizing u with
  | zero => exact ⟨rfl, rfl, h⟩
  | succ n ih =>
    obtain ⟨L, hb⟩ := h.backed
    rw [PyroOS.accessWith]
    cases hw : walk u.vm.mem u.cr3 va write user with
    | ok e => exact ⟨rfl, rfl, h⟩
    | error code =>
      have hcode : code &&& 0x1 = 0 → u.pte va = none := by
        intro hz
        by_contra hp
        obtain ⟨e, he⟩ := Option.ne_none_iff_exists'.mp hp
        rw [walk_present write user (hb.layout.space_aligned hl) he] at hw
        split at hw
        · cases hw
        · obtain rfl := Except.error.inj hw
          exact accessCode_present write user hz
      have hf := h.isrPageFault hl hv hcode
      simp only
      generalize PyroOS.isrPageFault u va code = r at hf ⊢
      obtain ⟨u', again⟩ := r
      obtain ⟨hdirs, hcr3, h'⟩ := hf
      cases again with
      | false => exact ⟨hdirs, hcr3, h'⟩
      | true =>
        dsimp only at hdirs hcr3 h'
        obtain ⟨hdirs', hcr3', h''⟩ := ih h' (by rw [hdirs, hcr3]; exact hl)
        exact ⟨hdirs'.trans hdirs, hcr3'.trans hcr3, h''⟩

lemma loadByte (user : Bool) (h : Lossy k u.vm) (hl : u.cr3 ∈ spaces k u.vm.dirs) (hv : privateBase ≤ va) :
    (loadByte u va user).1.vm.dirs = u.vm.dirs ∧ (loadByte u va user).1.cr3 = u.cr3 ∧
      Lossy k (loadByte u va user).1.vm := by
  have ha := h.accessWith false user 3 hl hv
  rw [PyroOS.loadByte, access]
  generalize PyroOS.accessWith 3 u va false user = r at ha ⊢
  obtain ⟨u', _ | e⟩ := r <;> exact ha

lemma storeByte (b : Byte) (user : Bool) (h : Lossy k u.vm) (hl : u.cr3 ∈ spaces k u.vm.dirs) (hv : privateBase ≤ va) :
    (storeByte u va b user).1.vm.dirs = u.vm.dirs ∧ (storeByte u va b user).1.cr3 = u.cr3 ∧
      Lossy k (storeByte u va b user).1.vm := by
  have ha := h.accessWith true user 3 hl hv
  rw [PyroOS.storeByte, access]
  rcases hr : PyroOS.accessWith 3 u va true user with ⟨u', _ | e⟩
  · rw [hr] at ha
    exact ha
  · rw [hr] at ha
    obtain ⟨hdirs, hcr3, L, hb, hap⟩ := ha
    dsimp only at hdirs hcr3
    have hl' : u'.cr3 ∈ spaces k u'.vm.dirs := by
      rw [hdirs, hcr3]
      exact hl
    have hpte := (walk_ok (hb.layout.space_aligned hl') (accessWith_walk _ hr)).1
    obtain ⟨hw, hag, _⟩ := hb.write (wordIndex va) (withByte (u'.vm.mem (frameOf e) (wordIndex va)) (byteIndex va) b)
      hl' hv hpte
    refine ⟨hdirs, hcr3, L, hw, fun f hf hm => hap f hf ?_⟩
    rwa [hag.targets_eq] at hm

end Lossy

/-! ### Runs -/

lemma Holding.step (op : Op) (h : Holding (Lossy k) k s) (hop : op.Attempted s) : Holding (Lossy k) k (op.apply k s) := by
  have hB := Lossy.books k
  have hmmu : ∀ u : Mmu, u.vm.dirs = s.mmu.vm.dirs ∧ u.cr3 = s.mmu.cr3 ∧ Lossy k u.vm →
      Holding (Lossy k) k { s with mmu := u } := fun u ⟨hdirs, hcr3, hl⟩ =>
    ⟨hl, by rw [hdirs]; exact h.owns, h.slots, by rw [hcr3]; exact h.runs⟩
  cases op with
  | alloc name =>
    rcases procAlloc_cases s name with ⟨ha, _⟩ | ⟨i, hi, hu, _, ha⟩
    · rw [Op.apply, ha]
      exact h
    · rw [Op.apply, ha]
      exact h.fresh hi hu name
  | assign i => exact h.assign hB hop.1 hop.2
  | fork => exact h.forkWith hB (Lossy.cloneCow k)
  | exit code => exact h.exit hB code
  | wait => exact h.wait hB
  | switch pid => exact h.switch pid
  | beginUser name => exact h.beginUser name
  | endUser pid => exact h.endUser hB pid
  | map dir virt flags =>
    obtain ⟨hdirs, hl⟩ := h.books.mapAlloc flags (h.live_space hop.1) hop.2.1 hop.2.2
    exact h.withVm hl hdirs
  | unmap dir virt =>
    obtain ⟨hdirs, hl⟩ := h.books.unmap (h.live_space hop.1) hop.2
    exact h.withVm hl hdirs
  | promise dir start stop flags => exact ⟨h.books, h.owns, h.slots, h.runs⟩
  | unpromise => exact ⟨h.books, h.owns, h.slots, h.runs⟩
  | load va user => exact hmmu _ (h.books.loadByte user h.loaded hop)
  | store va b user => exact hmmu _ (h.books.storeByte b user h.loaded hop)

lemma boot_holding {first second memBytes : Word} {m : PhysMem} (ht : BootTables k first second) :
    Holding (Lossy k) k (bootWith k first second memBytes m) :=
  ⟨(boot_backed ht).lossy, boot_inv.owns, boot_inv.slots, boot_inv.runs⟩

lemma Run.holding (h : Run k Op.Attempted s₀ n s) (h₀ : Holding (Lossy k) k s₀) : Holding (Lossy k) k s := by
  induction h with
  | boot => exact h₀
  | step op _ hop ih => exact ih.step op hop

lemma Run.mmuRun {ok : Op → Sys → Prop} (h : Run k ok s₀ n s) (hok : ∀ op s, ok op s → op.Attempted s)
    (h₀ : Holding (Lossy k) k s₀) :
    MmuRun k (fun o u => o.Allowed k u ∧ ((∀ op s, ok op s → op.Plain) → o.Plain)) s₀.mmu s.mmu := by
  induction h with
  | boot => exact .start
  | step op hrun hop ih =>
    have hs := (hrun.mono hok).holding h₀
    exact ih.trans ((op.mmuRun hs (hok _ _ hop)).mono fun o u ho => ⟨ho.1, fun hp => ho.2 (hp _ _ hop)⟩)

end PyroOS
