import PyroOS.Memory.Backed

/-! Creating, destroying and cloning address spaces moves no page of the others. -/

namespace PyroOS

open Sharing

variable {k : BootDir} {vm vm' : Vm} {L : Multiset Word} {d src dst : Word} {di ti : ℕ} {m : PhysMem}

/-! ### Creating and destroying -/

lemma Backed.create (h : Backed k L vm) : vmmCreateDir k vm = (vm, 0) ∨
    ∃ vm' a, vmmCreateDir k vm = (vm', a) ∧ a ≠ 0 ∧ a ∉ spaces k vm.dirs ∧ vm'.dirs = a :: vm.dirs ∧
      Backed k L vm' ∧ Undisturbed k Nowhere vm vm' ∧ ∀ r ∈ spaceRefs a, target vm'.mem r = none := by
  rcases h.booked.create with ⟨hc, _⟩ | ⟨p, a, hc, hne, hf, _, _, hb⟩
  · exact .inl hc
  have hlow : LowSame k vm.mem (withDir k vm.mem a) := fun b i hb _ => congrFun (withDir_other (hf.high_ne hb)) i
  exact .inr ⟨_, a, hc, hne, hf.not_space, rfl, hb.backed h hlow,
    ⟨fun r hr _ _ => hf.withDir_agree.target_eq hr, hlow⟩, fun r hr => withDir_target_new hr⟩

lemma Backed.destroy (h : Backed k L vm) (hd : d ∈ vm.dirs) :
    (vmmDestroyDir k vm d).dirs = vm.dirs.erase d ∧ Backed k L (vmmDestroyDir k vm d) ∧
      Undisturbed k Nowhere vm (vmmDestroyDir k vm d) := by
  have hhigh : ∀ b < managedBase, b ≠ d := fun b hb he =>
    (h.layout.high (.dir d) (dir_mem_refs.mpr hd) d rfl).1 (he ▸ hb)
  obtain ⟨hdirs, hkeep, hl, hc, _⟩ := h.layout.destroy hd h.counts
  refine ⟨hdirs, ⟨hdirs ▸ hl, hdirs ▸ hc, fun j hj => ?_⟩, fun r hr hr' _ => ?_, fun b i hb _ => ?_⟩
  · rw [hkeep _ (hhigh _ k.low)]
    exact h.low j hj
  · rw [hdirs] at hr'
    exact (h.layout.erase_agree hd hkeep).target_eq hr'
  · exact congrFun (hkeep b (hhigh b hb)) i

/-! ### Cloning -/

structure Duplicated (k : BootDir) (vm vm' : Vm) (src dst : Word) : Prop where
  new : dst ∉ spaces k vm.dirs
  dirs : vm'.dirs = dst :: vm.dirs
  backed : ∃ L, Backed k L vm'
  rest : Undisturbed k Nowhere vm vm'
  pages : ∀ j t, 2 ≤ j → j < 1024 → t < 1024 →
    (target vm'.mem (.page dst j t)).isSome = (target vm.mem (.page src j t)).isSome

lemma target_isSome : (target m (.page d di ti)).isSome = (pageView m d di ti).isSome := by
  rw [target, pageView, Option.isSome_map, Option.isSome_map]

lemma Cloning.duplicated (h : Cloning k L vm src dst 1024 1024 0 vm') (hb : Backed k L vm) :
    Duplicated k vm vm' src dst := by
  obtain ⟨L', hL⟩ := h.books
  refine ⟨fun hd => h.new_ne hd rfl, h.dirs, ⟨L', hL.booked.backed hb h.low⟩, ⟨fun r hr _ _ => h.old r hr, h.low⟩,
    fun j t h₁ h₂ ht => ?_⟩
  rw [target_isSome, target_isSome, (h.finish j h₁ h₂).2 t ht]

lemma Undone.edited (h : Undone k L vm src vm') (hb : Backed k L vm) : Edited k Nowhere vm vm' := by
  obtain ⟨L', hL⟩ := h.books
  exact ⟨h.dirs, ⟨L', hL.booked.backed hb h.low⟩, fun r hr _ _ => h.old r hr, h.low⟩

lemma Backed.cloneDir (h : Backed k L vm) (hsrc : src ∈ spaces k vm.dirs) :
    (∃ vm' dst, vmmCloneDir k vm src = (vm', dst) ∧ dst ≠ 0 ∧ Duplicated k vm vm' src dst) ∨
      ∃ vm', vmmCloneDir k vm src = (vm', 0) ∧ Edited k Nowhere vm vm' := by
  rcases h.booked.cloneDir hsrc with ⟨vm', dst, hc, hne, hcl⟩ | ⟨vm', hc, hun, _⟩
  · exact .inl ⟨vm', dst, hc, hne, hcl.duplicated h⟩
  · exact .inr ⟨vm', hc, hun.edited h⟩

def sharers (k : BootDir) (vm : Vm) (f : Word) : ℕ :=
  (spaces k vm.dirs).countP fun d => decide (∃ r ∈ spaceRefs d, target vm.mem r = some f)

def RoomToShare (k : BootDir) (vm : Vm) (src : Word) : Prop :=
  ∀ di ti f, Ref.page src di ti ∈ refs k vm.dirs → target vm.mem (.page src di ti) = some f → sharers k vm f < 255

lemma Layout.count_le_sharers (h : Layout k vm.dirs vm.mem) {f : Word}
    (hr : Ref.page d di ti ∈ refs k vm.dirs) (ht : target vm.mem (.page d di ti) = some f) :
    (targets (refs k vm.dirs) (target vm.mem)).count f ≤ sharers k vm f := by
  rw [sharers, List.countP_eq_length_filter]
  refine Sharing.count_le (refs_nodup h.nodup) Ref.space _ (fun r hr' ht' => List.mem_filter.mpr ?_)
    fun r hr r' hr' ht ht' hs => h.space_inj hr hr' ht ht' hs
  cases r with
  | dir d' =>
    rw [← Option.some.inj (show some d' = some f from ht')] at ht
    exact (h.page_not_space hr ht (List.mem_cons_of_mem _ (dir_mem_refs.mp hr'))).elim
  | tab d' di' =>
    obtain ⟨hd', hdi⟩ := tab_mem_refs.mp hr'
    exact ⟨hd', decide_eq_true ⟨_, mem_spaceRefs.mpr (.inl ⟨di', rfl, hdi⟩), ht'⟩⟩
  | page d' di' ti' =>
    obtain ⟨hd', hdi⟩ := page_mem_refs.mp hr'
    exact ⟨hd', decide_eq_true ⟨_, mem_spaceRefs.mpr (.inr ⟨di', ti', rfl, hdi⟩), ht'⟩⟩

lemma RoomToShare.count_lt (hroom : RoomToShare k vm src) (h : Layout k vm.dirs vm.mem) {f : Word}
    (hr : Ref.page src di ti ∈ refs k vm.dirs) (ht : target vm.mem (.page src di ti) = some f) :
    (targets (refs k vm.dirs) (target vm.mem)).count f < 255 :=
  lt_of_le_of_lt (h.count_le_sharers hr ht) (hroom _ _ f hr ht)

lemma Backed.cloneCow (h : Backed k L vm) (hsrc : src ∈ spaces k vm.dirs) (hroom : RoomToShare k vm src) :
    (∃ vm' dst, vmmCloneCow k vm src = (vm', dst) ∧ dst ≠ 0 ∧ Duplicated k vm vm' src dst) ∨
      ∃ vm', vmmCloneCow k vm src = (vm', 0) ∧ Edited k Nowhere vm vm' := by
  rcases h.booked.cloneCow hsrc fun _ _ _ hr ht => hroom.count_lt h.layout hr ht with
    ⟨vm', dst, hc, hne, hcl⟩ | ⟨vm', hc, hun, _⟩
  · exact .inl ⟨vm', dst, hc, hne, hcl.duplicated h⟩
  · exact .inr ⟨vm', hc, hun.edited h⟩

end PyroOS
