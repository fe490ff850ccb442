import PyroOS.Memory.Clone

/-! What address spaces need of the frame books: every reference is counted. A frame that is counted too often
is lost to the pool, but cannot come back into use by mistake. -/

namespace PyroOS

open Sharing

variable {k : BootDir} {dirs : List Word} {m m' : PhysMem} {p : Pmm} {vm vm' vm'' : Vm} {L : Multiset Word}
  {d virt flags x e : Word} {di ti : ℕ} {moved : Ref → Prop}

structure Backed (k : BootDir) (L : Multiset Word) (vm : Vm) : Prop where
  layout : Layout k vm.dirs vm.mem
  counts : Counts vm.pmm (targets (refs k vm.dirs) (target vm.mem) + L)
  low : ∀ j < 2, frameOf (vm.mem k.dir j) < managedBase ∧ frameOf (vm.mem k.dir j) ≠ k.dir

lemma Backed.booked (h : Backed k L vm) : Booked k L vm := ⟨h.layout, h.counts⟩

lemma Booked.backed {L' : Multiset Word} (h : Booked k L' vm') (hb : Backed k L vm) (hlow : LowSame k vm.mem vm'.mem) :
    Backed k L' vm' := by
  refine ⟨h.layout, h.counts, fun j hj => ?_⟩
  rw [hlow k.dir j k.low (.inr hj)]
  exact hb.low j hj

structure Undisturbed (k : BootDir) (moved : Ref → Prop) (vm vm' : Vm) : Prop where
  refs : ∀ r ∈ refs k vm.dirs, r ∈ refs k vm'.dirs → ¬ moved r → target vm'.mem r = target vm.mem r
  low : ∀ b i, b < managedBase → b ≠ k.dir ∨ i < 2 → vm'.mem b i = vm.mem b i

def Nowhere : Ref → Prop := fun _ => False

def OnWay (d virt : Word) (r : Ref) : Prop := r = .page d (dirIndex virt) (tabIndex virt) ∨ r = .tab d (dirIndex virt)

namespace Undisturbed

lemma refl (k : BootDir) (moved : Ref → Prop) (vm : Vm) : Undisturbed k moved vm vm :=
  ⟨fun _ _ _ _ => rfl, fun _ _ _ _ => rfl⟩

lemma trans (h : Undisturbed k moved vm vm') (h' : Undisturbed k moved vm' vm'')
    (hdirs : ∀ r ∈ PyroOS.refs k vm.dirs, r ∈ PyroOS.refs k vm''.dirs → r ∈ PyroOS.refs k vm'.dirs) :
    Undisturbed k moved vm vm'' :=
  ⟨fun r hr hr'' hm => (h'.refs r (hdirs r hr hr'') hr'' hm).trans (h.refs r hr (hdirs r hr hr'') hm),
    fun b i hb hi => (h'.low b i hb hi).trans (h.low b i hb hi)⟩

lemma mono {moved' : Ref → Prop} (h : Undisturbed k moved vm vm') (hm : ∀ r, moved r → moved' r) :
    Undisturbed k moved' vm vm' :=
  ⟨fun r hr hr' hn => h.refs r hr hr' fun hh => hn (hm r hh), h.low⟩

end Undisturbed

structure Edited (k : BootDir) (moved : Ref → Prop) (vm vm' : Vm) : Prop where
  dirs : vm'.dirs = vm.dirs
  backed : ∃ L, Backed k L vm'
  rest : Undisturbed k moved vm vm'

lemma Backed.edited (h : Backed k L vm) : Edited k moved vm vm := ⟨rfl, ⟨L, h⟩, .refl _ _ _⟩

/-! ### Translation -/

def placed (f : Option Word) (virt : Word) : Word := f.elim 0 fun f => f ||| (virt &&& 0xFFF)

lemma Layout.translate (h : Layout k vm.dirs vm.mem) (hd : d ∈ spaces k vm.dirs) (hv : 2 ≤ dirIndex virt) :
    vmmTranslate vm d virt = placed (target vm.mem (.page d (dirIndex virt) (tabIndex virt))) virt := by
  have hr : Ref.tab d (dirIndex virt) ∈ refs k vm.dirs := tab_mem_refs.mpr ⟨hd, hv, dirIndex_lt virt⟩
  cases hp : isPresent (vm.mem d (dirIndex virt)) with
  | false =>
    rw [target, pteAt_of_absent hp]
    simp [vmmTranslate, tableFor, hp, placed]
  | true =>
    have hz : frameOf (vm.mem d (dirIndex virt)) ≠ 0 := fun hz =>
      (h.high _ hr _ (target_tab hp)).1 (by rw [hz]; decide)
    rw [target, pteAt_of_present hp]
    simp only [vmmTranslate, tableFor, hp, Bool.not_true, Bool.false_eq_true, if_false, hz]
    cases isPresent (vm.mem (frameOf (vm.mem d (dirIndex virt))) (tabIndex virt)) <;> rfl

lemma Layout.kernel_entry (h : Layout k dirs m) (hd : d ∈ spaces k dirs) (hdi : di < 2) : m d di = m k.dir di := by
  rcases List.mem_cons.mp hd with rfl | hd
  · rfl
  · exact h.kernel d hd di hdi

lemma Layout.translate_low (h : Layout k vm.dirs vm.mem) (hd : d ∈ spaces k vm.dirs) (hv : dirIndex virt < 2) :
    vmmTranslate vm d virt = vmmTranslate vm k.dir virt := by
  simp only [vmmTranslate, tableFor, h.kernel_entry hd hv, Bool.not_false, if_true]

lemma Backed.entry_low (h : Backed k L vm) (hl : Layout k vm'.dirs vm'.mem) (hlow : LowSame k vm.mem vm'.mem)
    (hd : d ∈ spaces k vm.dirs) (hd' : d ∈ spaces k vm'.dirs) (hdi : di < 2) :
    vm'.mem d di = vm.mem d di ∧ ∀ ti, vm'.mem (frameOf (vm'.mem d di)) ti = vm.mem (frameOf (vm.mem d di)) ti := by
  have hent : vm'.mem d di = vm.mem d di := by
    rw [hl.kernel_entry hd' hdi, h.layout.kernel_entry hd hdi]
    exact hlow _ _ k.low (.inr hdi)
  refine ⟨hent, fun ti => ?_⟩
  obtain ⟨hb, hne⟩ := h.low di hdi
  rw [hent, h.layout.kernel_entry hd hdi]
  exact hlow _ _ hb (.inl hne)

lemma Backed.pte_low {ti : ℕ} (h : Backed k L vm) (hl : Layout k vm'.dirs vm'.mem) (hlow : LowSame k vm.mem vm'.mem)
    (hd : d ∈ spaces k vm.dirs) (hd' : d ∈ spaces k vm'.dirs) (hdi : di < 2) :
    pteAt vm'.mem d di ti = pteAt vm.mem d di ti := by
  obtain ⟨hent, htab⟩ := h.entry_low hl hlow hd hd' hdi
  rw [pteAt, pteAt, htab, hent]

lemma Undisturbed.translate (h : Undisturbed k moved vm vm') {L' : Multiset Word} (hb : Backed k L vm)
    (hb' : Backed k L' vm') (hd : d ∈ spaces k vm.dirs) (hd' : d ∈ spaces k vm'.dirs)
    (hm : ¬ moved (.page d (dirIndex virt) (tabIndex virt))) : vmmTranslate vm' d virt = vmmTranslate vm d virt := by
  by_cases hv : 2 ≤ dirIndex virt
  · rw [hb.layout.translate hd hv, hb'.layout.translate hd' hv, h.refs _
      (page_mem_refs.mpr ⟨hd, hv, dirIndex_lt _, tabIndex_lt _⟩)
      (page_mem_refs.mpr ⟨hd', hv, dirIndex_lt _, tabIndex_lt _⟩) hm]
  · obtain ⟨hent, htab⟩ := hb.entry_low hb'.layout h.low hd hd' (not_le.mp hv)
    rw [hent] at htab
    simp only [vmmTranslate, tableFor, hent]
    cases isPresent (vm.mem d (dirIndex virt)) with
    | false => rfl
    | true => simp only [Bool.not_true, Bool.false_eq_true, if_false, htab]

lemma Backed.setPage (h : Backed k L vm) (hf : Fresh k vm.dirs vm.mem x) (page : ℕ → Word) :
    Backed k L { vm with mem := vm.mem.setPage x page } ∧
      Undisturbed k Nowhere vm { vm with mem := vm.mem.setPage x page } := by
  have hag := hf.setPage_agree page
  have hlow : ∀ b < managedBase, vm.mem.setPage x page b = vm.mem b := fun b hb =>
    Function.update_of_ne (hf.high_ne hb) _ _
  refine ⟨⟨h.layout.agree hag, ?_, fun j hj => ?_⟩, fun r hr _ _ => hag.target_eq hr, fun b i hb _ => ?_⟩
  · rw [hag.targets_eq]
    exact h.counts
  · dsimp only
    rw [hlow _ k.low]
    exact h.low j hj
  · exact congrFun (hlow b hb) i

/-! ### Operations on one page -/

def ZeroAlone (k : BootDir) (vm : Vm) (d virt f : Word) : Prop :=
  vm.mem f = (fun _ => 0) ∧
    ∀ r ∈ refs k vm.dirs, target vm.mem r = some f ↔ r = .page d (dirIndex virt) (tabIndex virt)

section mapped

variable {page : ℕ → Word} (he : Entered k L vm vm' d virt flags x page)
include he

lemma Entered.backed (h : Backed k L vm) :
    Backed k (L + single (target vm.mem (.page d (dirIndex virt) (tabIndex virt)))) vm' :=
  Booked.backed ⟨by rw [he.dirs]; exact he.layout, by rw [he.dirs]; exact he.counts⟩ h he.low

lemma Entered.target_self : target vm'.mem (.page d (dirIndex virt) (tabIndex virt)) = some x := by
  rw [target_page he.entry, frameOf_or_flags he.fresh.2.1 (pageFlags_spec flags).1]

lemma Entered.undisturbed : Undisturbed k (OnWay d virt) vm vm' := by
  refine ⟨fun r hr _ hm => ?_, he.low⟩
  cases r with
  | dir d' => rfl
  | tab d' di' =>
    have hent := he.entries d' (tab_mem_refs.mp hr).1 di' fun hh => hm (.inr (by rw [hh.1, hh.2.1]))
    simp only [target, hent]
  | page d' di' ti' =>
    have hpte := he.ptes d' di' ti' hr fun hh => hm (.inl (by rw [hh.1, hh.2.1, hh.2.2]))
    simp only [target, hpte]

lemma Entered.alone (hr : Ref.page d (dirIndex virt) (tabIndex virt) ∈ refs k vm.dirs) {r : Ref}
    (hr' : r ∈ refs k vm.dirs) (ht : target vm'.mem r = some x) : r = .page d (dirIndex virt) (tabIndex virt) := by
  by_contra hne
  rcases he.layout.sharing r hr' _ hr x ht he.target_self with hh | hh
  · exact hne hh
  · cases r with
    | page d' di' ti' =>
      have hu := he.undisturbed.refs _ hr' (by rw [he.dirs]; exact hr') fun hm =>
        hm.elim (fun hh => hne hh) (fun hh => by cases hh)
      exact he.fresh.2.2 _ hr' (hu.symm.trans ht)
    | dir _ => exact hh
    | tab _ _ => exact hh

end mapped

lemma Backed.mapAlloc_cases (flags : Word) (h : Backed k L vm) (hd : d ∈ spaces k vm.dirs) (hv : privateBase ≤ virt) :
    (vmmMapAlloc vm d virt flags = (vm, -1) ∧ (pmmAlloc vm.pmm).2 = 0) ∨
    (∃ p x, pmmAlloc vm.pmm = (p, x) ∧ x ≠ 0 ∧ isPresent (vm.mem d (dirIndex virt)) = false ∧ (pmmAlloc p).2 = 0 ∧
      vmmMapAlloc vm d virt flags = ({ vm with mem := vm.mem.setPage x fun _ => 0, pmm := p }, -1) ∧
      Fresh k vm.dirs vm.mem x ∧ Backed k (x ::ₘ L) { vm with mem := vm.mem.setPage x fun _ => 0, pmm := p }) ∨
    ∃ p x vm', pmmAlloc vm.pmm = (p, x) ∧ x ≠ 0 ∧ (isPresent (vm.mem d (dirIndex virt)) = true ∨ (pmmAlloc p).2 ≠ 0) ∧
      vmmMapAlloc vm d virt flags = (vm', 0) ∧ x ∉ L ∧ Entered k L vm vm' d virt flags x (fun _ => 0) ∧
      Backed k (L + single (target vm.mem (.page d (dirIndex virt) (tabIndex virt)))) vm' := by
  rcases vmmMapAlloc_cases flags h.layout hd hv h.counts with hm | ⟨p, x, ha, hne, hf, _, hc, habs, hnone, hm⟩ |
    ⟨p, x, vm', ha, hne, hxL, hwhy, hm, he⟩
  · exact .inl hm
  · have hb : Backed k (x ::ₘ L) { vm with pmm := p } := ⟨h.layout, hc, h.low⟩
    exact .inr (.inl ⟨p, x, ha, hne, habs, hnone, hm, hf, (hb.setPage hf _).1⟩)
  · exact .inr (.inr ⟨p, x, vm', ha, hne, hwhy, hm, hxL, he, he.backed h⟩)

lemma Backed.mapAlloc (flags : Word) (h : Backed k L vm) (hd : d ∈ spaces k vm.dirs) (hv : privateBase ≤ virt) :
    Edited k (OnWay d virt) vm (vmmMapAlloc vm d virt flags).1 ∧
      ((vmmMapAlloc vm d virt flags).2 = 0 → ∃ f, Aligned f ∧ ZeroAlone k (vmmMapAlloc vm d virt flags).1 d virt f) := by
  have hr := page_ref hd hv
  rcases h.mapAlloc_cases flags hd hv with ⟨hm, _⟩ | ⟨p, x, _, _, _, _, hm, hf, hb⟩ |
    ⟨p, x, vm', _, _, _, hm, _, he, hb⟩
  · rw [hm]
    exact ⟨h.edited, fun hh => by simp at hh⟩
  · rw [hm]
    have hag := hf.setPage_agree fun _ => 0
    refine ⟨⟨rfl, ⟨_, hb⟩, fun r hr' _ _ => hag.target_eq hr', fun b i hb' _ => ?_⟩, fun hh => by simp at hh⟩
    exact congrFun (Function.update_of_ne (hf.high_ne hb') _ _) i
  · rw [hm]
    refine ⟨⟨he.dirs, ⟨_, hb⟩, he.undisturbed⟩, fun _ => ⟨x, he.fresh.2.1, he.content, fun r hr' => ?_⟩⟩
    rw [he.dirs] at hr'
    exact ⟨he.alone hr hr', fun hh => hh ▸ he.target_self⟩

lemma Cleared.backed (hc : Cleared k L vm vm' d virt) (h : Backed k L vm) : Backed k L vm' :=
  hc.booked.backed h hc.low

lemma Backed.unmap (h : Backed k L vm) (hd : d ∈ spaces k vm.dirs) (hv : privateBase ≤ virt) :
    Edited k (OnWay d virt) vm (vmmUnmap vm d virt) ∧
      target (vmmUnmap vm d virt).mem (.page d (dirIndex virt) (tabIndex virt)) = none := by
  have hc := h.booked.unmap hd hv
  refine ⟨⟨hc.dirs, ⟨L, hc.backed h⟩, fun r hr _ hm => hc.rest r hr fun hh => hm (.inl hh), hc.low⟩, ?_⟩
  rw [target, hc.gone]
  rfl

lemma Settled.backed (hs : Settled k L vm vm' d virt) (h : Backed k L vm) : Backed k L vm' :=
  hs.booked.backed h hs.low

lemma Backed.cowHandle (err : Word) (h : Backed k L vm) (hd : d ∈ spaces k vm.dirs) (hv : privateBase ≤ virt) :
    Edited k (OnWay d virt) vm (vmmCowHandle vm d virt err).1 := by
  rcases h.booked.cowHandle err hd hv with ⟨hc, _⟩ | ⟨_, vm', hc, hs⟩
  · rw [hc]
    exact h.edited
  · rw [hc]
    exact ⟨hs.dirs, ⟨L, hs.backed h⟩, fun r hr _ hm => hs.rest r hr fun hh => hm (.inl hh), hs.low⟩

lemma Backed.write (i : ℕ) (w : Word) (h : Backed k L vm) (hd : d ∈ spaces k vm.dirs) (hv : privateBase ≤ virt)
    (he : pteAt vm.mem d (dirIndex virt) (tabIndex virt) = some e) :
    Backed k L { vm with mem := vm.mem.setWord (frameOf e) i w } ∧
      Agree k vm.dirs vm.mem (vm.mem.setWord (frameOf e) i w) ∧ LowSame k vm.mem (vm.mem.setWord (frameOf e) i w) := by
  have hr := page_ref hd hv
  have hag := h.layout.setWord_agree hr (target_page he) i w
  have hlow : LowSame k vm.mem (vm.mem.setWord (frameOf e) i w) := by
    intro b j hb _
    refine setWord_other _ _ (.inl ?_)
    rintro rfl
    exact (h.layout.high _ hr _ (target_page he)).1 hb
  refine ⟨Booked.backed ⟨h.layout.agree hag, ?_⟩ h hlow, hag, hlow⟩
  rw [hag.targets_eq]
  exact h.counts

end PyroOS
