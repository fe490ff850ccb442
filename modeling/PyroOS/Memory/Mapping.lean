import PyroOS.Library.Loop
import PyroOS.Memory.View

/-! Building and taking down address spaces keeps the frame books exact. -/

namespace PyroOS

open Sharing

variable {k : BootDir} {dirs : List Word} {m m' : PhysMem} {p : Pmm} {vm : Vm}

/-- Directories, tables and pages are laid out properly, and every frame's bit and count say
exactly how often it is referred to. -/
structure Sound (k : BootDir) (vm : Vm) : Prop where
  layout : Layout k vm.dirs vm.mem
  counts : Counts vm.pmm (targets (refs k vm.dirs) (target vm.mem))

structure Booked (k : BootDir) (L : Multiset Word) (vm : Vm) : Prop where
  layout : Layout k vm.dirs vm.mem
  counts : Counts vm.pmm (targets (refs k vm.dirs) (target vm.mem) + L)

lemma Sound.booked (h : Sound k vm) : Booked k 0 vm := ⟨h.layout, by rw [add_zero]; exact h.counts⟩

lemma Booked.sound (h : Booked k 0 vm) : Sound k vm := ⟨h.layout, by rw [← add_zero (targets _ _)]; exact h.counts⟩

lemma fresh_of_counts {a : Word} {R : Multiset Word} (hc : Counts p (a ::ₘ R)) (hn : a ∉ R)
    (hsub : targets (refs k dirs) (target m) ⊆ R) : Fresh k dirs m a :=
  ⟨hc.not_low (Multiset.mem_cons_self a R), hc.aligned (Multiset.mem_cons_self a R),
    fun r hr ht => hn (hsub (mem_targets.mpr ⟨r, hr, ht⟩))⟩

lemma Fresh.high_ne {a b : Word} (h : Fresh k dirs m a) (hb : b < managedBase) : b ≠ a := by
  rintro rfl
  exact h.1 hb

lemma Fresh.of_agree {a : Word} (h : Fresh k dirs m a) (ha : Agree k dirs m m') :
    Fresh k dirs m' a :=
  ⟨h.1, h.2.1, fun r hr ht => h.2.2 r hr (by rwa [ha.target_eq hr] at ht)⟩

@[simp] lemma isPresent_zero : isPresent 0#32 = false := by decide

def withTable (m : PhysMem) (d : Word) (di : ℕ) (a fl : Word) : PhysMem :=
  (m.setPage a fun _ => 0).setWord d di (a ||| fl)

lemma withTable_page {d a fl f : Word} {di : ℕ} (h₁ : f ≠ a) (h₂ : f ≠ d) :
    withTable m d di a fl f = m f := by
  rw [withTable, setWord_page _ _ _ h₂, PhysMem.setPage, Function.update_of_ne h₁]

structure NewTable (k : BootDir) (dirs : List Word) (m : PhysMem) (d : Word) (di : ℕ)
    (a fl : Word) : Prop where
  layout : Layout k dirs m
  fresh : Fresh k dirs m a
  ref : Ref.tab d di ∈ refs k dirs
  absent : isPresent (m d di) = false
  bare : frameOf fl = 0
  present : isPresent fl = true

namespace NewTable

variable {d a fl : Word} {di : ℕ} (h : NewTable k dirs m d di a fl)
include h

lemma space : d ∈ spaces k dirs := (tab_mem_refs.mp h.ref).1

lemma entry {d' : Word} (hd' : d' ∈ spaces k dirs) (di' : ℕ) :
    withTable m d di a fl d' di' = if d' = d ∧ di' = di then a ||| fl else m d' di' := by
  split
  · rename_i he
    rw [he.1, he.2]
    exact setWord_same _ _ _ _
  · rename_i he
    rw [withTable, setWord_other _ _ (by tauto), PhysMem.setPage,
      Function.update_of_ne (by rintro rfl; exact h.fresh.not_space hd')]

lemma isPresent_entry : isPresent (a ||| fl) = true := by
  rw [isPresent_bit, or_flags_bit h.fresh.2.1 (by omega), ← isPresent_bit, h.present]

lemma self : isPresent (withTable m d di a fl d di) = true ∧
    frameOf (withTable m d di a fl d di) = a := by
  rw [h.entry h.space, if_pos ⟨rfl, rfl⟩]
  exact ⟨h.isPresent_entry, frameOf_or_flags h.fresh.2.1 h.bare⟩

lemma pte {d' : Word} {di' ti' : ℕ} (hr' : Ref.tab d' di' ∈ refs k dirs) :
    pteAt (withTable m d di a fl) d' di' ti' = pteAt m d' di' ti' := by
  have hd' := (tab_mem_refs.mp hr').1
  by_cases he : d' = d ∧ di' = di
  · obtain ⟨rfl, rfl⟩ := he
    have hne : a ≠ d' := fun hh => h.fresh.not_space (hh ▸ hd')
    have hzero : withTable m d' di' a fl a ti' = 0 := by
      rw [withTable, setWord_other _ _ (Or.inl hne), PhysMem.setPage, Function.update_self]
    rw [pteAt_of_absent h.absent, pteAt_of_present h.self.1, h.self.2, hzero]
    rfl
  · have hh := h.entry hd' di'
    rw [if_neg he] at hh
    cases hp : isPresent (m d' di') with
    | false => rw [pteAt_of_absent hp, pteAt_of_absent (by rw [hh, hp])]
    | true =>
      have h₁ : frameOf (m d' di') ≠ a := fun hh => h.fresh.2.2 _ hr' (by rw [target_tab hp, hh])
      have h₂ : frameOf (m d' di') ≠ d := fun hh =>
        h.layout.table_not_space hr' (target_tab hp) (by rw [hh]; exact h.space)
      rw [pteAt_of_present hp, pteAt_of_present (by rw [hh, hp]), hh, withTable_page h₁ h₂]

lemma target_other {r : Ref} (hr : r ∈ refs k dirs) (hne : r ≠ .tab d di) :
    target (withTable m d di a fl) r = target m r := by
  cases r with
  | dir d' => rfl
  | tab d' di' =>
    have hh := h.entry (tab_mem_refs.mp hr).1 di'
    rw [if_neg (by rintro ⟨rfl, rfl⟩; exact hne rfl)] at hh
    simp only [target, hh]
  | page d' di' ti' => rw [target, target, h.pte (tab_of_page hr)]

lemma target_self : target (withTable m d di a fl) (.tab d di) = some a := by
  rw [target_tab h.self.1, h.self.2]

lemma targets_eq : targets (refs k dirs) (target (withTable m d di a fl)) =
    a ::ₘ targets (refs k dirs) (target m) := by
  have hh := targets_redirect (refs_nodup h.layout.nodup) h.ref
    (fun r hr hne => h.target_other hr hne)
  have hnone : target m (.tab d di) = none := by simp [target, h.absent]
  rw [h.target_self, hnone, single_none, single_some, add_zero, add_comm,
    Multiset.singleton_add] at hh
  exact hh

lemma layout_withTable (hw : isWritable fl = true) : Layout k dirs (withTable m d di a fl) := by
  have hdi := (tab_mem_refs.mp h.ref).2.1
  refine ⟨h.layout.nodup, ?_, ?_, ?_, ?_, ?_⟩
  · intro r hr f ht
    by_cases hne : r = .tab d di
    · rw [hne, h.target_self] at ht
      obtain rfl := Option.some.inj ht
      exact ⟨h.fresh.1, h.fresh.2.1⟩
    · exact h.layout.high r hr f (by rwa [h.target_other hr hne] at ht)
  · intro r₁ hr₁ r₂ hr₂ f ht₁ ht₂
    by_cases hne₁ : r₁ = .tab d di <;> by_cases hne₂ : r₂ = .tab d di
    · exact Or.inl (hne₁.trans hne₂.symm)
    · rw [hne₁, h.target_self] at ht₁
      rw [h.target_other hr₂ hne₂, ← ht₁] at ht₂
      exact (h.fresh.2.2 r₂ hr₂ ht₂).elim
    · rw [hne₂, h.target_self] at ht₂
      rw [h.target_other hr₁ hne₁, ← ht₂] at ht₁
      exact (h.fresh.2.2 r₁ hr₁ ht₁).elim
    · rw [h.target_other hr₁ hne₁] at ht₁
      rw [h.target_other hr₂ hne₂] at ht₂
      exact h.layout.sharing r₁ hr₁ r₂ hr₂ f ht₁ ht₂
  · intro d' di' ti' e hr he hwe r hr₂ ht
    rw [h.pte (tab_of_page hr)] at he
    by_cases hne : r = .tab d di
    · rw [hne, h.target_self] at ht
      have hh := target_page he
      rw [← ht] at hh
      exact (h.fresh.2.2 _ hr hh).elim
    · rw [h.target_other hr₂ hne] at ht
      exact h.layout.exclusive d' di' ti' e hr he hwe r hr₂ ht
  · intro d' hd' di' hdi'
    rw [h.entry (List.mem_cons_of_mem _ hd'), h.entry List.mem_cons_self,
      if_neg (by omega), if_neg (by omega)]
    exact h.layout.kernel d' hd' di' hdi'
  · intro d' di' hr hp
    rw [h.entry (tab_mem_refs.mp hr).1] at hp ⊢
    split
    · rw [isWritable_bit, or_flags_bit h.fresh.2.1 (by omega), ← isWritable_bit, hw]
    · rename_i hne
      rw [if_neg hne] at hp
      exact h.layout.tableRw d' di' hr hp

lemma pageView_eq {d' : Word} {di' ti' : ℕ} (hr : Ref.page d' di' ti' ∈ refs k dirs) :
    pageView (withTable m d di a fl) d' di' ti' = pageView m d' di' ti' := by
  rw [pageView, pageView, h.pte (tab_of_page hr)]
  cases he : pteAt m d' di' ti' with
  | none => rfl
  | some e =>
    have h₁ : frameOf e ≠ a := fun hh => h.fresh.2.2 _ hr (by rw [target_page he, hh])
    have h₂ : frameOf e ≠ d := fun hh =>
      h.layout.page_not_space hr (target_page he) (by rw [hh]; exact h.space)
    have h₃ : ¬ (d' = d ∧ di' = di) := by
      rintro ⟨rfl, rfl⟩
      have hp := h.absent
      rw [(pteAt_some he).1] at hp
      cases hp
    simp only [Option.map_some, withTable_page h₁ h₂, h.entry (page_mem_refs.mp hr).1, if_neg h₃]

lemma tableView_eq {d' : Word} (hd' : d' ∈ spaces k dirs) (di' : ℕ) :
    tableView (withTable m d di a fl) d' di' =
      if d' = d ∧ di' = di then some fl else tableView m d' di' := by
  rw [tableView, h.entry hd' di']
  split
  · rw [h.isPresent_entry, flags_or h.fresh.2.1 h.bare]
    rfl
  · rfl

end NewTable

lemma refs_cons (a : Word) (t : Ref → Option Word) : targets (refs k (a :: dirs)) t =
    single (t (.dir a)) + targets (spaceRefs a) t + targets (refs k dirs) t := by
  simp only [refs, spaces, List.map_cons, List.flatMap_cons, targets_append, List.cons_append,
    targets_cons]
  abel

lemma refs_perm {dirs' : List Word} (h : dirs.Perm dirs') : (refs k dirs).Perm (refs k dirs') :=
  (h.map _).append ((h.cons _).flatMap_right _)

lemma refs_subset {dirs' : List Word} (hs : dirs' ⊆ dirs) : refs k dirs' ⊆ refs k dirs := by
  have hsp : spaces k dirs' ⊆ spaces k dirs := List.cons_subset_cons _ hs
  intro r hr
  cases r with
  | dir d => exact dir_mem_refs.mpr (hs (dir_mem_refs.mp hr))
  | tab d di => exact tab_mem_refs.mpr ⟨hsp (tab_mem_refs.mp hr).1, (tab_mem_refs.mp hr).2⟩
  | page d di ti =>
    exact page_mem_refs.mpr ⟨hsp (page_mem_refs.mp hr).1, (page_mem_refs.mp hr).2⟩

lemma Layout.mono (h : Layout k dirs m) {dirs' : List Word} (hn : (spaces k dirs').Nodup)
    (hs : dirs' ⊆ dirs) : Layout k dirs' m := by
  have hsub : refs k dirs' ⊆ refs k dirs := refs_subset hs
  exact ⟨hn, fun r hr => h.high r (hsub hr),
    fun r hr r' hr' => h.sharing r (hsub hr) r' (hsub hr'),
    fun d di ti e hr he hw r hr' => h.exclusive d di ti e (hsub hr) he hw r (hsub hr'),
    fun d hd => h.kernel d (hs hd), fun d di hr => h.tableRw d di (hsub hr)⟩

/-! ### Creating a directory -/

def withDir (k : BootDir) (m : PhysMem) (a : Word) : PhysMem :=
  let m := m.setPage a (fun _ => 0)
  let m := m.setWord a 0 (m k.dir 0)
  m.setWord a 1 (m k.dir 1)

lemma withDir_other {a b : Word} (h : b ≠ a) : withDir k m a b = m b := by
  simp only [withDir]
  rw [setWord_page _ _ _ h, setWord_page _ _ _ h, PhysMem.setPage, Function.update_of_ne h]

lemma withDir_empty (a : Word) {di : ℕ} (h : 2 ≤ di) : withDir k m a a di = 0 := by
  simp only [withDir]
  rw [setWord_other _ _ (Or.inr (by omega)), setWord_other _ _ (Or.inr (by omega)), PhysMem.setPage,
    Function.update_self]

lemma withDir_kernel {a : Word} (h : k.dir ≠ a) {di : ℕ} (hdi : di < 2) :
    withDir k m a a di = m k.dir di := by
  simp only [withDir]
  obtain rfl | rfl : di = 0 ∨ di = 1 := by omega
  · rw [setWord_other _ _ (Or.inr (by omega)), setWord_same, PhysMem.setPage,
      Function.update_of_ne h]
  · rw [setWord_same, setWord_other _ _ (Or.inl h), PhysMem.setPage, Function.update_of_ne h]

lemma Fresh.withDir_agree {a : Word} (h : Fresh k dirs m a) : Agree k dirs m (withDir k m a) :=
  ⟨fun _ hd => withDir_other (fun he => h.not_space (he ▸ hd)),
    fun _ _ _ hr ht => withDir_other (fun he => h.2.2 _ hr (he ▸ ht))⟩

lemma withDir_target_new {a : Word} {r : Ref} (hr : r ∈ spaceRefs a) :
    target (withDir k m a) r = none := by
  rcases mem_spaceRefs.mp hr with ⟨di, rfl, h₁, _⟩ | ⟨di, ti, rfl, h₁, _⟩
  · simp [target, withDir_empty a h₁]
  · rw [target, pteAt_of_absent (by rw [withDir_empty a h₁]; exact isPresent_zero)]
    rfl

lemma withDir_targets {a : Word} (h : Fresh k dirs m a) :
    targets (refs k (a :: dirs)) (target (withDir k m a)) =
      a ::ₘ targets (refs k dirs) (target m) := by
  rw [refs_cons, h.withDir_agree.targets_eq, targets_eq_zero (fun r hr => withDir_target_new hr),
    add_zero]
  rfl

lemma mem_refs_cons {a : Word} {r : Ref} (h : r ∈ refs k (a :: dirs)) :
    r = .dir a ∨ r ∈ spaceRefs a ∨ r ∈ refs k dirs := by
  simp only [refs, spaces, List.map_cons, List.flatMap_cons, List.cons_append, List.mem_cons,
    List.mem_append] at h ⊢
  tauto

lemma withDir_layout {a : Word} (hl : Layout k dirs m) (h : Fresh k dirs m a) :
    Layout k (a :: dirs) (withDir k m a) := by
  have hl' := hl.agree h.withDir_agree
  have hk : k.dir ≠ a := fun he => h.not_space (he ▸ List.mem_cons_self)
  have hcase : ∀ r ∈ refs k (a :: dirs), ∀ f, target (withDir k m a) r = some f →
      (r = .dir a ∧ f = a) ∨ (r ∈ refs k dirs ∧ f ≠ a) := by
    intro r hr f ht
    rcases mem_refs_cons hr with rfl | hn | ho
    · exact Or.inl ⟨rfl, (Option.some.inj ht).symm⟩
    · simp [withDir_target_new hn] at ht
    · refine Or.inr ⟨ho, ?_⟩
      rintro rfl
      rw [h.withDir_agree.target_eq ho] at ht
      exact h.2.2 r ho ht
  refine ⟨?_, ?_, ?_, ?_, ?_, ?_⟩
  · have hn := List.nodup_cons.mp hl.nodup
    refine List.nodup_cons.mpr ⟨?_, List.nodup_cons.mpr ⟨?_, hn.2⟩⟩
    · simpa using ⟨hk, hn.1⟩
    · exact fun ha => h.not_space (List.mem_cons_of_mem _ ha)
  · intro r hr f ht
    rcases hcase r hr f ht with ⟨_, rfl⟩ | ⟨hr, _⟩
    · exact ⟨h.1, h.2.1⟩
    · exact hl'.high r hr f ht
  · intro r hr r' hr' f ht ht'
    rcases hcase r hr f ht with ⟨rfl, rfl⟩ | ⟨hr, hne⟩ <;>
      rcases hcase r' hr' _ ht' with ⟨rfl, he⟩ | ⟨hr', hne'⟩
    · exact Or.inl rfl
    · exact (hne' rfl).elim
    · exact (hne he).elim
    · exact hl'.sharing r hr r' hr' f ht ht'
  · intro d di ti e hr he hw r hr' ht
    rcases hcase _ hr _ (target_page he) with ⟨hh, _⟩ | ⟨hr, hne⟩
    · cases hh
    rcases hcase r hr' _ ht with ⟨_, hh⟩ | ⟨hr', _⟩
    · exact (hne hh).elim
    · exact hl'.exclusive d di ti e hr he hw r hr' ht
  · intro d hd di hdi
    rcases List.mem_cons.mp hd with rfl | hd
    · rw [withDir_kernel hk hdi, withDir_other hk]
    · exact hl'.kernel d hd di hdi
  · intro d di hr hp
    obtain ⟨hd, h₁, h₂⟩ := tab_mem_refs.mp hr
    by_cases he : d = a
    · subst he
      rw [withDir_empty d h₁] at hp
      exact absurd hp (by decide)
    · apply hl'.tableRw d di (tab_mem_refs.mpr ⟨?_, h₁, h₂⟩) hp
      simpa [spaces, he] using hd

structure Created (k : BootDir) (vm vm' : Vm) (a : Word) : Prop where
  sound : Sound k vm'
  dirs : vm'.dirs = a :: vm.dirs
  ne_zero : a ≠ 0
  fresh : Fresh k vm.dirs vm.mem a
  total : vm'.pmm.totalFrames = vm.pmm.totalFrames
  empty : ∀ di, 2 ≤ di → vm'.mem a di = 0
  keep : ∀ b, b ≠ a → vm'.mem b = vm.mem b

def Exhausted (k : BootDir) (vm : Vm) : Prop :=
  ∀ i < vm.pmm.totalFrames, frameAddr i ∈ targets (refs k vm.dirs) (target vm.mem)

lemma Booked.create {L : Multiset Word} (h : Booked k L vm) :
    (vmmCreateDir k vm = (vm, 0) ∧ (pmmAlloc vm.pmm).2 = 0) ∨
    ∃ p a, vmmCreateDir k vm = (⟨withDir k vm.mem a, p, a :: vm.dirs⟩, a) ∧ a ≠ 0 ∧ Fresh k vm.dirs vm.mem a ∧ a ∉ L ∧
      p.totalFrames = vm.pmm.totalFrames ∧ Booked k L ⟨withDir k vm.mem a, p, a :: vm.dirs⟩ := by
  rcases h.counts.alloc with ⟨ha, _⟩ | ⟨p, a, ha, hne, hn, htot, hc⟩
  · exact .inl (by simp [vmmCreateDir, ha])
  · have hf : Fresh k vm.dirs vm.mem a := fresh_of_counts hc hn fun _ hm => Multiset.mem_add.mpr (.inl hm)
    have heq : vmmCreateDir k vm = (⟨withDir k vm.mem a, p, a :: vm.dirs⟩, a) := by
      simp only [vmmCreateDir, ha, if_neg hne]
      rfl
    refine .inr ⟨p, a, heq, hne, hf, fun hm => hn (Multiset.mem_add.mpr (.inr hm)), htot, withDir_layout h.layout hf,
      ?_⟩
    rw [withDir_targets hf, Multiset.cons_add]
    exact hc

lemma Sound.exhausted (h : Sound k vm) (ha : (pmmAlloc vm.pmm).2 = 0) : Exhausted k vm := by
  rcases h.counts.alloc with ⟨_, hx⟩ | ⟨p, a, he, hne, _⟩
  · exact hx
  · rw [he] at ha
    exact (hne ha).elim

lemma Sound.create (h : Sound k vm) : (vmmCreateDir k vm = (vm, 0) ∧ Exhausted k vm) ∨
    ∃ vm' a, vmmCreateDir k vm = (vm', a) ∧ Created k vm vm' a := by
  rcases h.booked.create with ⟨hc, ha⟩ | ⟨p, a, hc, hne, hf, _, htot, hb⟩
  · exact .inl ⟨hc, h.exhausted ha⟩
  · exact .inr ⟨_, a, hc, hb.sound, rfl, hne, hf, htot, fun di hdi => withDir_empty a hdi,
      fun b hb => withDir_other hb⟩

/-! ### Destroying a directory -/

def entryRefs (d : Word) (di : ℕ) : List Ref :=
  (List.range' 0 1024).map (Ref.page d di) ++ [Ref.tab d di]

def spaceRefsFrom (d : Word) (di : ℕ) : List Ref := (List.range' di (1024 - di)).flatMap (entryRefs d)

lemma spaceRefsFrom_succ (d : Word) {di : ℕ} (h : di < 1024) :
    spaceRefsFrom d di = entryRefs d di ++ spaceRefsFrom d (di + 1) := by
  rw [spaceRefsFrom, show 1024 - di = (1024 - (di + 1)) + 1 by omega, List.range'_succ,
    List.flatMap_cons]
  rfl

lemma foldl_free_pages (m : PhysMem) (tab : Word) (l : List ℕ) (p : Pmm) :
    l.foldl (fun p ti => if isPresent (m tab ti) then pmmFree p (frameOf (m tab ti)) else p) p =
      (l.filterMap fun ti => if isPresent (m tab ti) then some (frameOf (m tab ti)) else none).foldl
        pmmFree p := by
  induction l generalizing p with
  | nil => rfl
  | cons ti l ih =>
    rw [List.foldl_cons, ih]
    cases hp : isPresent (m tab ti) <;> simp [hp]

lemma destroyEntry_eq (vm : Vm) (d : Word) (di : ℕ) (hne : isPresent (vm.mem d di) = true) :
    destroyEntry d vm di =
      { vm with
        mem := vm.mem.setWord d di 0
        pmm := ((entryRefs d di).filterMap (target vm.mem)).foldl pmmFree vm.pmm } := by
  have hpages : ((List.range' 0 1024).map (Ref.page d di)).filterMap (target vm.mem) =
      (List.range' 0 1024).filterMap fun ti =>
        if isPresent (vm.mem (frameOf (vm.mem d di)) ti) then
          some (frameOf (vm.mem (frameOf (vm.mem d di)) ti)) else none := by
    rw [List.filterMap_map]
    apply List.filterMap_congr
    intro ti _
    simp only [Function.comp, target, pteAt_of_present hne]
    split <;> rfl
  have htab : [Ref.tab d di].filterMap (target vm.mem) = [frameOf (vm.mem d di)] := by
    simp [target_tab hne]
  rw [destroyEntry, hne, entryRefs, List.filterMap_append, hpages, htab, List.foldl_append,
    ← foldl_free_pages, List.range_eq_range']
  rfl

lemma entryRefs_absent {d : Word} {di : ℕ} (hp : isPresent (m d di) = false) :
    targets (entryRefs d di) (target m) = 0 := by
  apply targets_eq_zero
  intro r hr
  simp only [entryRefs, List.mem_append, List.mem_map, List.mem_singleton] at hr
  rcases hr with ⟨ti, _, rfl⟩ | rfl
  · rw [target, pteAt_of_absent hp]
    rfl
  · simp [target, hp]

lemma destroyEntries_counts {d : Word} {R : Multiset Word} {vm : Vm}
    (htab : ∀ di, 2 ≤ di → di < 1024 → isPresent (vm.mem d di) = true → frameOf (vm.mem d di) ≠ d)
    (hc : Counts vm.pmm (targets (spaceRefs d) (target vm.mem) + R)) :
    (∀ b, b ≠ d → (destroyEntries d vm).mem b = vm.mem b) ∧ (destroyEntries d vm).dirs = vm.dirs ∧
      Counts (destroyEntries d vm).pmm R ∧
      (destroyEntries d vm).pmm.totalFrames = vm.pmm.totalFrames := by
  let I : ℕ → Vm → Prop := fun di s =>
    (∀ b, b ≠ d → s.mem b = vm.mem b) ∧ (∀ j, di ≤ j → s.mem d j = vm.mem d j) ∧
      s.dirs = vm.dirs ∧ Counts s.pmm (targets (spaceRefsFrom d di) (target vm.mem) + R) ∧
      s.pmm.totalFrames = vm.pmm.totalFrames
  have hI : I (2 + 1022) (destroyEntries d vm) := by
    rw [destroyEntries]
    apply Loop.foldl_range I ⟨fun _ _ => rfl, fun _ _ => rfl, rfl, hc, rfl⟩
    intro di s h₁ h₂ ⟨hoth, hent, hdirs, hcnt, htot⟩
    rw [spaceRefsFrom_succ d (by omega), targets_append] at hcnt
    have he := hent di le_rfl
    cases hp : isPresent (vm.mem d di) with
    | false =>
      rw [entryRefs_absent hp, zero_add] at hcnt
      have hs : destroyEntry d s di = s := by simp [destroyEntry, he, hp]
      rw [hs]
      exact ⟨hoth, fun j hj => hent j (by omega), hdirs, hcnt, htot⟩
    | true =>
      have htgt : ∀ r ∈ entryRefs d di, target s.mem r = target vm.mem r := by
        intro r hr
        simp only [entryRefs, List.mem_append, List.mem_map, List.mem_singleton] at hr
        rcases hr with ⟨ti, _, rfl⟩ | rfl
        · rw [target, target, pteAt, pteAt, he, hoth _ (htab di h₁ (by omega) hp)]
        · simp only [target, he]
      rw [destroyEntry_eq s d di (by rw [he, hp]), List.filterMap_congr htgt]
      rw [add_assoc] at hcnt
      obtain ⟨hf₁, hf₂⟩ := Counts.free_list _ hcnt
      refine ⟨?_, ?_, hdirs, hf₁, hf₂.trans htot⟩
      · intro b hb
        rw [← hoth b hb]
        exact setWord_page _ _ _ hb
      · intro j hj
        rw [← hent j (by omega)]
        exact setWord_other _ _ (Or.inr (by omega))
  obtain ⟨hoth, -, hdirs, hcnt, htot⟩ := hI
  refine ⟨hoth, hdirs, ?_, htot⟩
  have hend : spaceRefsFrom d (2 + 1022) = [] := rfl
  rwa [hend, targets_nil, zero_add] at hcnt

structure Destroyed (k : BootDir) (vm vm' : Vm) (d : Word) : Prop where
  sound : Sound k vm'
  dirs : vm'.dirs = vm.dirs.erase d
  total : vm'.pmm.totalFrames = vm.pmm.totalFrames
  keep : ∀ b, b ≠ d → vm'.mem b = vm.mem b

lemma Layout.erase (h : Layout k dirs m) (d : Word) : Layout k (dirs.erase d) m := by
  have hn := List.nodup_cons.mp h.nodup
  apply h.mono _ List.erase_subset
  exact List.nodup_cons.mpr ⟨fun hk => hn.1 (List.erase_subset hk), hn.2.erase d⟩

lemma Layout.erase_agree (h : Layout k dirs m) {d : Word} (hd : d ∈ dirs)
    (hm : ∀ b, b ≠ d → m' b = m b) : Agree k (dirs.erase d) m m' := by
  have hn := List.nodup_cons.mp h.nodup
  have hsp : ∀ b ∈ spaces k (dirs.erase d), b ≠ d := by
    rintro b hb rfl
    rcases List.mem_cons.mp hb with rfl | hb
    · exact hn.1 hd
    · exact hn.2.not_mem_erase hb
  refine ⟨fun b hb => hm b (hsp b hb), ?_⟩
  intro b di f hr ht
  apply hm
  rintro rfl
  obtain ⟨hb, h₁, h₂⟩ := tab_mem_refs.mp hr
  have hb' : b ∈ spaces k dirs := List.cons_subset_cons _ List.erase_subset hb
  exact h.table_not_space (tab_mem_refs.mpr ⟨hb', h₁, h₂⟩) ht (List.mem_cons_of_mem _ hd)

lemma vmmDestroyDir_eq {d : Word} (hz : d ≠ 0) (hk : d ≠ k.dir) : vmmDestroyDir k vm d =
    ⟨(destroyEntries d vm).mem, pmmFree (destroyEntries d vm).pmm d, (destroyEntries d vm).dirs.erase d⟩ := by
  rw [vmmDestroyDir, if_neg (not_or.mpr ⟨hz, hk⟩)]

lemma Layout.destroy (h : Layout k vm.dirs vm.mem) {d : Word} {L : Multiset Word} (hd : d ∈ vm.dirs)
    (hc : Counts vm.pmm (targets (refs k vm.dirs) (target vm.mem) + L)) :
    (vmmDestroyDir k vm d).dirs = vm.dirs.erase d ∧ (∀ b, b ≠ d → (vmmDestroyDir k vm d).mem b = vm.mem b) ∧
      Layout k (vm.dirs.erase d) (vmmDestroyDir k vm d).mem ∧ Counts (vmmDestroyDir k vm d).pmm
        (targets (refs k (vm.dirs.erase d)) (target (vmmDestroyDir k vm d).mem) + L) ∧
      (vmmDestroyDir k vm d).pmm.totalFrames = vm.pmm.totalFrames := by
  have hk : d ≠ k.dir := fun he => (List.nodup_cons.mp h.nodup).1 (he ▸ hd)
  have hz : d ≠ 0 := by
    apply hc.ne_zero
    exact Multiset.mem_add.mpr (.inl (mem_targets.mpr ⟨.dir d, dir_mem_refs.mpr hd, rfl⟩))
  have hsplit : targets (refs k vm.dirs) (target vm.mem) + L = targets (spaceRefs d) (target vm.mem) +
      (d ::ₘ (targets (refs k (vm.dirs.erase d)) (target vm.mem) + L)) := by
    rw [targets_perm (refs_perm (List.perm_cons_erase hd)), refs_cons, ← Multiset.singleton_add]
    simp only [target, single_some]
    abel
  rw [hsplit] at hc
  have htab : ∀ di, 2 ≤ di → di < 1024 → isPresent (vm.mem d di) = true →
      frameOf (vm.mem d di) ≠ d := by
    intro di h₁ h₂ hp he
    have hsp : d ∈ spaces k vm.dirs := List.mem_cons_of_mem _ hd
    exact h.table_not_space (tab_mem_refs.mpr ⟨hsp, h₁, h₂⟩) (target_tab hp) (by rwa [he])
  have hloop := destroyEntries_counts htab hc
  rw [vmmDestroyDir_eq hz hk]
  -- the state after the loop is a value of its own: unfolding it would run the loop
  obtain ⟨s, hs⟩ : ∃ s, destroyEntries d vm = s := ⟨_, rfl⟩
  rw [hs] at hloop ⊢
  obtain ⟨hoth, hdirs, hcnt, htot⟩ := hloop
  obtain ⟨hf₁, hf₂⟩ := hcnt.free
  have hag := h.erase_agree hd hoth
  rw [← hag.targets_eq] at hf₁
  rw [hdirs]
  exact ⟨rfl, hoth, (h.erase d).agree hag, hf₁, hf₂.trans htot⟩

lemma Sound.destroy (h : Sound k vm) {d : Word} (hd : d ∈ vm.dirs) :
    Destroyed k vm (vmmDestroyDir k vm d) d := by
  have hc := h.counts
  rw [← add_zero (targets (refs k vm.dirs) (target vm.mem))] at hc
  obtain ⟨hdirs, hkeep, hl, hcnt, htot⟩ := h.layout.destroy hd hc
  rw [add_zero, ← hdirs] at hcnt
  rw [← hdirs] at hl
  exact ⟨⟨hl, hcnt⟩, hdirs, htot, hkeep⟩

end PyroOS
