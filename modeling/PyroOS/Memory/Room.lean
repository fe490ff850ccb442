import PyroOS.Memory.Clone

/-! How many frames the address spaces hold, and when an operation cannot run out of them. -/

namespace PyroOS

open Sharing

variable {k : BootDir} {dirs : List Word} {m m' : PhysMem} {vm vm' s : Vm} {p : Pmm} {R : Multiset Word}

def held (m : PhysMem) (d : Word) : ℕ := Multiset.card (targets (spaceRefs d) (target m))

def Ref.move (d : Word) : Ref → Ref
  | .dir _ => .dir d
  | .tab _ di => .tab d di
  | .page _ di ti => .page d di ti

lemma spaceRefs_move (d d' : Word) : spaceRefs d' = (spaceRefs d).map (Ref.move d') := by
  simp only [spaceRefs, List.map_flatMap, List.map_append, List.map_map, List.map_cons, List.map_nil]
  rfl

lemma held_eq (m : PhysMem) (d : Word) : held m d = (spaceRefs d).countP fun r => (target m r).isSome :=
  card_targets _ _

lemma held_le {d d' : Word} (ht : ∀ di, 2 ≤ di → di < 1024 → tableView m d di = none →
      tableView m' d' di = none)
    (hp : ∀ di ti, 2 ≤ di → di < 1024 → ti < 1024 → pageView m d di ti = none →
      pageView m' d' di ti = none) : held m' d' ≤ held m d := by
  rw [held_eq, held_eq, spaceRefs_move d d', List.countP_map]
  apply List.countP_mono_left
  intro r hr hsome
  rw [Function.comp] at hsome
  by_contra hnone
  rw [Option.not_isSome_iff_eq_none] at hnone
  rcases mem_spaceRefs.mp hr with ⟨di, rfl, h₁, h₂⟩ | ⟨di, ti, rfl, h₁, h₂, h₃⟩
  · have hv : tableView m d di = none := by
      simpa [target, tableView_eq_none] using hnone
    have hv' := tableView_eq_none.mp (ht di h₁ h₂ hv)
    simp [Ref.move, target, hv'] at hsome
  · have hv : pageView m d di ti = none := by
      simpa [target, pageView_eq_none] using hnone
    have hv' := pageView_eq_none.mp (hp di ti h₁ h₂ h₃ hv)
    simp [Ref.move, target, hv'] at hsome

lemma SameSpace.held_eq {d d' : Word} (h : SameSpace m d m' d') : held m d = held m' d' := by
  apply le_antisymm
  · exact held_le (fun di h₁ h₂ hv => by rw [(h di h₁ h₂).1, hv])
      (fun di ti h₁ h₂ h₃ hv => by rw [(h di h₁ h₂).2 ti h₃, hv])
  · exact held_le (fun di h₁ h₂ hv => by rw [← (h di h₁ h₂).1, hv])
      (fun di ti h₁ h₂ h₃ hv => by rw [← (h di h₁ h₂).2 ti h₃, hv])

lemma card_refs (k : BootDir) (dirs : List Word) (m : PhysMem) :
    Multiset.card (targets (refs k dirs) (target m)) =
      dirs.length + ((spaces k dirs).map (held m)).sum := by
  have hdirs : ∀ l : List Word, Multiset.card (targets (l.map Ref.dir) (target m)) = l.length := by
    intro l
    rw [card_targets, List.countP_map]
    exact List.countP_eq_length.mpr (fun _ _ => rfl)
  have hspaces : ∀ l : List Word, Multiset.card (targets (l.flatMap spaceRefs) (target m)) =
      (l.map (held m)).sum := by
    intro l
    induction l with
    | nil => rfl
    | cons d l ih =>
      rw [List.flatMap_cons, targets_append, Multiset.card_add, ih, List.map_cons, List.sum_cons]
      rfl
  rw [refs, targets_append, Multiset.card_add, hdirs, hspaces]

lemma Counts.card_le (h : Counts p R) {S : Multiset Word} (hS : S ⊆ R) (hn : S.Nodup) :
    Multiset.card S ≤ p.totalFrames := by
  have hsub : S.toFinset ⊆ (Finset.range p.totalFrames).image frameAddr := by
    intro a ha
    obtain ⟨i, hi, rfl⟩ := h.pool a (hS (Multiset.mem_toFinset.mp ha))
    exact Finset.mem_image_of_mem _ (Finset.mem_range.mpr hi)
  calc Multiset.card S = S.toFinset.card := (Multiset.toFinset_card_of_nodup hn).symm
    _ ≤ ((Finset.range p.totalFrames).image frameAddr).card := Finset.card_le_card hsub
    _ ≤ p.totalFrames := (Finset.card_image_le).trans (Finset.card_range _).le

lemma Sound.held_le (h : Sound k vm) {d : Word} (hd : d ∈ spaces k vm.dirs) :
    held vm.mem d ≤ vm.pmm.totalFrames := by
  have hsub : ∀ r ∈ spaceRefs d, r ∈ refs k vm.dirs := by
    intro r hr
    exact List.mem_append_right _ (List.mem_flatMap.mpr ⟨d, hd, hr⟩)
  apply h.counts.card_le
  · intro f hf
    obtain ⟨r, hr, ht⟩ := mem_targets.mp hf
    exact mem_targets.mpr ⟨r, hsub r hr, ht⟩
  · rw [Multiset.nodup_iff_count_le_one]
    intro f
    apply Sharing.count_le (spaceRefs_nodup d) (fun _ => ()) [()]
    · intro _ _ _
      exact List.mem_singleton.mpr rfl
    · intro r hr r' hr' ht ht' _
      rcases h.layout.sharing r (hsub r hr) r' (hsub r' hr') f ht ht' with he | he
      · exact he
      · rcases mem_spaceRefs.mp hr with ⟨_, rfl, _⟩ | ⟨di, ti, rfl, _⟩
        · exact he.elim
        · rcases mem_spaceRefs.mp hr' with ⟨_, rfl, _⟩ | ⟨di', ti', rfl, _⟩
          · exact he.elim
          · obtain ⟨rfl, rfl⟩ := he
            rfl

lemma Counts.total_le_card (h : Counts p R) (hx : ∀ i < p.totalFrames, frameAddr i ∈ R) :
    p.totalFrames ≤ Multiset.card R := by
  have hinj : Set.InjOn frameAddr (Finset.range p.totalFrames) := by
    intro i hi j hj he
    simp only [Finset.coe_range, Set.mem_Iio] at hi hj
    exact frameAddr_inj (hi.trans_le h.total_le) (hj.trans_le h.total_le) he
  have hsub : (Finset.range p.totalFrames).image frameAddr ⊆ R.toFinset := by
    intro a ha
    obtain ⟨i, hi, rfl⟩ := Finset.mem_image.mp ha
    exact Multiset.mem_toFinset.mpr (hx i (Finset.mem_range.mp hi))
  calc p.totalFrames = ((Finset.range p.totalFrames).image frameAddr).card := by
        rw [Finset.card_image_of_injOn hinj, Finset.card_range]
    _ ≤ R.toFinset.card := Finset.card_le_card hsub
    _ ≤ Multiset.card R := Multiset.toFinset_card_le R

def usage (k : BootDir) (vm : Vm) : ℕ := Multiset.card (targets (refs k vm.dirs) (target vm.mem))

lemma Sound.not_exhausted (h : Sound k vm) (hroom : usage k vm < vm.pmm.totalFrames) : ¬ Exhausted k vm :=
  fun hx => absurd (h.counts.total_le_card hx) (not_le.mpr hroom)

lemma Sound.create_ok (h : Sound k vm) (hroom : usage k vm < vm.pmm.totalFrames) :
    ∃ vm' a, vmmCreateDir k vm = (vm', a) ∧ Created k vm vm' a := by
  rcases h.create with ⟨_, hx⟩ | hc
  · exact (h.not_exhausted hroom hx).elim
  · exact hc

lemma Sound.mapAlloc_ok (h : Sound k vm) {d virt : Word} (flags : Word) (hd : d ∈ spaces k vm.dirs)
    (hv : privateBase ≤ virt) (hroom : usage k vm + 2 ≤ vm.pmm.totalFrames) :
    (vmmMapAlloc vm d virt flags).2 = 0 := by
  rcases vmmMapAlloc_cases flags h.layout hd hv h.booked.counts with ⟨-, hz⟩ | ⟨p, x, ha, -, -, -, hc, -, hz, -⟩ |
    ⟨_, _, _, _, _, _, _, hm, -⟩
  · exact (h.not_exhausted (by omega) (h.exhausted hz)).elim
  · rcases hc.alloc with ⟨-, hx⟩ | ⟨_, _, ha₂, hne, -⟩
    · have hle := hc.total_le_card hx
      have htot : p.totalFrames = vm.pmm.totalFrames := by rw [← pmmAlloc_total vm.pmm, ha]
      rw [Multiset.card_add, Multiset.card_cons, Multiset.card_zero, htot] at hle
      have hl : usage k vm = Multiset.card (targets (refs k vm.dirs) (target vm.mem)) := rfl
      omega
    · rw [ha₂] at hz
      exact (hne hz).elim
  · rw [hm]

lemma Sound.cloneDir_ok (h : Sound k vm) {src : Word} (hsrc : src ∈ spaces k vm.dirs)
    (hroom : usage k vm + held vm.mem src + 1 < vm.pmm.totalFrames) :
    ∃ vm' dst, vmmCloneDir k vm src = (vm', dst) ∧ dst ≠ 0 ∧ Cloned k vm vm' src dst := by
  rcases h.cloneDir hsrc with hc | ⟨_, _, _, hx | ⟨dst, s, ⟨a, di, ti, hcl⟩, hx⟩⟩
  · exact hc
  · exact (h.not_exhausted (by omega) hx).elim
  · have hle := hcl.sound.counts.total_le_card (hcl.sound.exhausted hx)
    have hdst : held s.mem dst ≤ held vm.mem src := by
      apply PyroOS.held_le
      · intro j h₁ h₂ hv
        rw [hcl.tables j h₁ h₂, hv, ite_self]
      · intro j t h₁ h₂ h₃ hv
        rw [hcl.pages j t h₁ h₂ h₃, hv, ite_self]
    have hold : (spaces k vm.dirs).map (held s.mem) = (spaces k vm.dirs).map (held vm.mem) :=
      List.map_congr_left fun d hd => (hcl.same d hd).held_eq.symm
    rw [usage, card_refs] at hroom
    rw [card_refs, hcl.dirs, hcl.total] at hle
    simp only [spaces, List.map_cons, List.sum_cons, List.length_cons, List.cons.injEq] at hle hold hroom
    rw [hold.1, hold.2] at hle
    omega

end PyroOS
