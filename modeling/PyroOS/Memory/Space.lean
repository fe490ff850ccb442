import PyroOS.Library.Sharing
import PyroOS.Memory.Vmm

/-! References between frames: who points at which frame, and the layout every operation keeps. -/

namespace PyroOS

open Sharing

inductive Ref where
  | dir (d : Word)
  | tab (d : Word) (di : ℕ)
  | page (d : Word) (di ti : ℕ)
  deriving DecidableEq

def Ref.SamePage : Ref → Ref → Prop
  | .page _ di ti, .page _ di' ti' => di = di' ∧ ti = ti'
  | _, _ => False

def spaceRefs (d : Word) : List Ref :=
  (List.range' 2 1022).flatMap fun di => (List.range' 0 1024).map (Ref.page d di) ++ [Ref.tab d di]

def pteAt (m : PhysMem) (d : Word) (di ti : ℕ) : Option Word :=
  if isPresent (m d di) then
    if isPresent (m (frameOf (m d di)) ti) then some (m (frameOf (m d di)) ti) else none
  else none

def target (m : PhysMem) : Ref → Option Word
  | .dir d => some d
  | .tab d di => if isPresent (m d di) then some (frameOf (m d di)) else none
  | .page d di ti => (pteAt m d di ti).map frameOf

section

variable (k : BootDir) (dirs : List Word)

def spaces : List Word := k.dir :: dirs

def refs : List Ref := dirs.map Ref.dir ++ (spaces k dirs).flatMap spaceRefs

end

variable {k : BootDir} {dirs : List Word} {m m' : PhysMem}

lemma mem_spaceRefs {d : Word} {r : Ref} : r ∈ spaceRefs d ↔
    (∃ di, r = .tab d di ∧ 2 ≤ di ∧ di < 1024) ∨
      ∃ di ti, r = .page d di ti ∧ 2 ≤ di ∧ di < 1024 ∧ ti < 1024 := by
  simp only [spaceRefs, List.mem_flatMap, List.mem_range', List.mem_append, List.mem_map,
    List.mem_singleton]
  constructor
  · rintro ⟨di, ⟨i, hi, rfl⟩, ⟨ti, ⟨j, hj, rfl⟩, rfl⟩ | rfl⟩
    · exact Or.inr ⟨_, _, rfl, by omega, by omega, by omega⟩
    · exact Or.inl ⟨_, rfl, by omega, by omega⟩
  · rintro (⟨di, rfl, h₁, h₂⟩ | ⟨di, ti, rfl, h₁, h₂, h₃⟩)
    · exact ⟨di, ⟨di - 2, by omega, by omega⟩, Or.inr rfl⟩
    · exact ⟨di, ⟨di - 2, by omega, by omega⟩, Or.inl ⟨ti, ⟨ti, h₃, by omega⟩, rfl⟩⟩

@[simp] lemma dir_mem_refs {d : Word} : Ref.dir d ∈ refs k dirs ↔ d ∈ dirs := by
  simp [refs, mem_spaceRefs]

@[simp] lemma tab_mem_refs {d : Word} {di : ℕ} :
    Ref.tab d di ∈ refs k dirs ↔ d ∈ spaces k dirs ∧ 2 ≤ di ∧ di < 1024 := by
  simp only [refs, List.mem_append, List.mem_map, List.mem_flatMap, mem_spaceRefs]
  constructor
  · rintro (⟨_, _, h⟩ | ⟨d', hd, ⟨di', h, h₁, h₂⟩ | ⟨_, _, h, _⟩⟩)
    · cases h
    · cases h
      exact ⟨hd, h₁, h₂⟩
    · cases h
  · rintro ⟨hd, h₁, h₂⟩
    exact Or.inr ⟨d, hd, Or.inl ⟨di, rfl, h₁, h₂⟩⟩

@[simp] lemma page_mem_refs {d : Word} {di ti : ℕ} : Ref.page d di ti ∈ refs k dirs ↔
    d ∈ spaces k dirs ∧ 2 ≤ di ∧ di < 1024 ∧ ti < 1024 := by
  simp only [refs, List.mem_append, List.mem_map, List.mem_flatMap, mem_spaceRefs]
  constructor
  · rintro (⟨_, _, h⟩ | ⟨d', hd, ⟨_, h, _⟩ | ⟨di', ti', h, h₁⟩⟩)
    · cases h
    · cases h
    · cases h
      exact ⟨hd, h₁⟩
  · rintro ⟨hd, h₁⟩
    exact Or.inr ⟨d, hd, Or.inr ⟨di, ti, rfl, h₁⟩⟩

lemma spaceRefs_nodup (d : Word) : (spaceRefs d).Nodup := by
  rw [spaceRefs, List.nodup_flatMap]
  refine ⟨?_, ?_⟩
  · intro di _
    rw [List.nodup_append]
    refine ⟨(List.nodup_range' ..).map (fun a b h => by cases h; rfl), List.nodup_singleton _, ?_⟩
    intro a ha b hb
    obtain ⟨ti, _, rfl⟩ := List.mem_map.mp ha
    simp only [List.mem_singleton] at hb
    subst hb
    simp
  · refine (List.nodup_range' ..).imp ?_
    intro a b hab r hr hr'
    simp only [List.mem_append, List.mem_map, List.mem_singleton] at hr hr'
    rcases hr with ⟨_, _, rfl⟩ | rfl <;> rcases hr' with ⟨_, _, h⟩ | h <;> cases h <;> exact hab rfl

lemma refs_nodup (h : (spaces k dirs).Nodup) : (refs k dirs).Nodup := by
  rw [refs, List.nodup_append]
  refine ⟨(List.nodup_cons.mp h).2.map (fun a b he => by cases he; rfl), ?_, ?_⟩
  · rw [List.nodup_flatMap]
    refine ⟨fun d _ => spaceRefs_nodup d, h.imp ?_⟩
    intro a b hab r hr hr'
    rcases mem_spaceRefs.mp hr with ⟨_, rfl, _⟩ | ⟨_, _, rfl, _⟩ <;>
      rcases mem_spaceRefs.mp hr' with ⟨_, he, _⟩ | ⟨_, _, he, _⟩ <;> cases he <;> exact hab rfl
  · intro a ha b hb
    obtain ⟨d, _, rfl⟩ := List.mem_map.mp ha
    obtain ⟨d', _, hb⟩ := List.mem_flatMap.mp hb
    rcases mem_spaceRefs.mp hb with ⟨_, rfl, _⟩ | ⟨_, _, rfl, _⟩ <;> simp

variable (k dirs m) in
/-- How live address spaces may share frames: only pages at the same place of different spaces
coincide, and a page that is writable somewhere is mapped nowhere else. -/
structure Layout : Prop where
  nodup : (spaces k dirs).Nodup
  high : ∀ r ∈ refs k dirs, ∀ f, target m r = some f → ¬ f < managedBase ∧ Aligned f
  sharing : ∀ r ∈ refs k dirs, ∀ r' ∈ refs k dirs, ∀ f, target m r = some f →
    target m r' = some f → r = r' ∨ r.SamePage r'
  exclusive : ∀ d di ti e, Ref.page d di ti ∈ refs k dirs → pteAt m d di ti = some e →
    isWritable e = true → ∀ r ∈ refs k dirs, target m r = some (frameOf e) → r = .page d di ti
  kernel : ∀ d ∈ dirs, ∀ di < 2, m d di = m k.dir di
  tableRw : ∀ d di, Ref.tab d di ∈ refs k dirs → isPresent (m d di) = true →
    isWritable (m d di) = true

lemma target_tab {d : Word} {di : ℕ} (hp : isPresent (m d di) = true) :
    target m (.tab d di) = some (frameOf (m d di)) := by
  simp [target, hp]

lemma target_page {d : Word} {di ti : ℕ} {e : Word} (h : pteAt m d di ti = some e) :
    target m (.page d di ti) = some (frameOf e) := by
  simp [target, h]

lemma pteAt_some {d : Word} {di ti : ℕ} {e : Word} (h : pteAt m d di ti = some e) :
    isPresent (m d di) = true ∧ isPresent e = true ∧ m (frameOf (m d di)) ti = e := by
  rw [pteAt] at h
  split at h
  · rename_i hp
    split at h
    · rename_i he
      obtain rfl := Option.some.inj h
      exact ⟨hp, he, rfl⟩
    · cases h
  · cases h

lemma pteAt_of_present {d : Word} {di ti : ℕ} (hp : isPresent (m d di) = true) : pteAt m d di ti =
    if isPresent (m (frameOf (m d di)) ti) then some (m (frameOf (m d di)) ti) else none := by
  simp only [pteAt, hp, if_true]

lemma pteAt_of_absent {d : Word} {di ti : ℕ} (hp : isPresent (m d di) = false) :
    pteAt m d di ti = none := by
  simp [pteAt, hp]

namespace Layout

lemma not_space (h : Layout k dirs m) {r : Ref} {f : Word} (hr : r ∈ refs k dirs) (hd : r ≠ .dir f)
    (ht : target m r = some f) : f ∉ spaces k dirs := by
  intro hf
  rcases List.mem_cons.mp hf with rfl | hf
  · exact (h.high _ hr _ ht).1 k.low
  · rcases h.sharing _ hr (.dir f) (dir_mem_refs.mpr hf) f ht rfl with he | he
    · exact hd he
    · cases r <;> exact he

lemma table_not_space (h : Layout k dirs m) {d f : Word} {di : ℕ}
    (hr : Ref.tab d di ∈ refs k dirs) (ht : target m (.tab d di) = some f) :
    f ∉ spaces k dirs := h.not_space hr nofun ht

lemma table_inj (h : Layout k dirs m) {d d' f : Word} {di di' : ℕ}
    (hr : Ref.tab d di ∈ refs k dirs) (hr' : Ref.tab d' di' ∈ refs k dirs)
    (ht : target m (.tab d di) = some f) (ht' : target m (.tab d' di') = some f) :
    d = d' ∧ di = di' := by
  rcases h.sharing _ hr _ hr' f ht ht' with he | he
  · cases he
    exact ⟨rfl, rfl⟩
  · exact he.elim

lemma page_not_space (h : Layout k dirs m) {d f : Word} {di ti : ℕ}
    (hr : Ref.page d di ti ∈ refs k dirs) (ht : target m (.page d di ti) = some f) :
    f ∉ spaces k dirs := h.not_space hr nofun ht

lemma page_not_table (h : Layout k dirs m) {d d' f : Word} {di di' ti : ℕ}
    (hr : Ref.page d di ti ∈ refs k dirs) (ht : target m (.page d di ti) = some f)
    (hr' : Ref.tab d' di' ∈ refs k dirs) : target m (.tab d' di') ≠ some f := by
  intro ht'
  rcases h.sharing _ hr _ hr' f ht ht' with he | he
  · cases he
  · exact he

end Layout

variable (k dirs m m') in
def Agree : Prop :=
  (∀ d ∈ spaces k dirs, m' d = m d) ∧
    ∀ d di f, Ref.tab d di ∈ refs k dirs → target m (.tab d di) = some f → m' f = m f

namespace Agree

lemma entry (h : Agree k dirs m m') {d : Word} (hd : d ∈ spaces k dirs) (di : ℕ) :
    m' d di = m d di := by
  rw [h.1 d hd]

lemma pte (h : Agree k dirs m m') {d : Word} {di ti : ℕ} (hr : Ref.tab d di ∈ refs k dirs) :
    pteAt m' d di ti = pteAt m d di ti := by
  have hd := (tab_mem_refs.mp hr).1
  cases hp : isPresent (m d di) with
  | false => rw [pteAt_of_absent hp, pteAt_of_absent (by rw [h.entry hd, hp])]
  | true =>
    rw [pteAt_of_present hp, pteAt_of_present (by rw [h.entry hd, hp]), h.entry hd,
      h.2 d di _ hr (target_tab hp)]

lemma target_eq (h : Agree k dirs m m') {r : Ref} (hr : r ∈ refs k dirs) :
    target m' r = target m r := by
  cases r with
  | dir d => rfl
  | tab d di => simp only [target, h.entry (tab_mem_refs.mp hr).1]
  | page d di ti =>
    obtain ⟨hd, h₁, h₂, _⟩ := page_mem_refs.mp hr
    simp only [target, h.pte (tab_mem_refs.mpr ⟨hd, h₁, h₂⟩)]

lemma targets_eq (h : Agree k dirs m m') :
    targets (refs k dirs) (target m') = targets (refs k dirs) (target m) :=
  targets_congr (fun _ hr => h.target_eq hr)

end Agree

lemma tab_of_page {d : Word} {di ti : ℕ} (hr : Ref.page d di ti ∈ refs k dirs) :
    Ref.tab d di ∈ refs k dirs := by
  obtain ⟨hd, h₁, h₂, _⟩ := page_mem_refs.mp hr
  exact tab_mem_refs.mpr ⟨hd, h₁, h₂⟩

lemma Layout.agree (h : Layout k dirs m) (ha : Agree k dirs m m') : Layout k dirs m' where
  nodup := h.nodup
  high r hr f ht := h.high r hr f (by rwa [ha.target_eq hr] at ht)
  sharing r hr r' hr' f ht ht' := h.sharing r hr r' hr' f (by rwa [ha.target_eq hr] at ht)
    (by rwa [ha.target_eq hr'] at ht')
  exclusive d di ti e hr he hw r hr' ht := by
    rw [ha.pte (tab_of_page hr)] at he
    rw [ha.target_eq hr'] at ht
    exact h.exclusive d di ti e hr he hw r hr' ht
  kernel d hd di hdi := by
    rw [ha.entry (List.mem_cons_of_mem _ hd), ha.entry List.mem_cons_self]
    exact h.kernel d hd di hdi
  tableRw d di hr hp := by
    have hd := (tab_mem_refs.mp hr).1
    rw [ha.entry hd] at hp ⊢
    exact h.tableRw d di hr hp

def Fresh (k : BootDir) (dirs : List Word) (m : PhysMem) (a : Word) : Prop :=
  ¬ a < managedBase ∧ Aligned a ∧ ∀ r ∈ refs k dirs, target m r ≠ some a

namespace Fresh

variable {a : Word}

lemma not_space (h : Fresh k dirs m a) : a ∉ spaces k dirs := by
  intro ha
  rcases List.mem_cons.mp ha with rfl | ha
  · exact h.1 k.low
  · exact h.2.2 (.dir a) (dir_mem_refs.mpr ha) rfl

lemma setPage_agree (h : Fresh k dirs m a) (page : ℕ → Word) :
    Agree k dirs m (m.setPage a page) := by
  refine ⟨?_, ?_⟩
  · intro d hd
    exact Function.update_of_ne (fun he => h.not_space (by rwa [← he])) _ _
  · intro d di f hr ht
    exact Function.update_of_ne (fun he => h.2.2 _ hr (by rw [ht, he])) _ _

end Fresh

lemma Layout.setWord_agree (h : Layout k dirs m) {d f : Word} {di ti : ℕ}
    (hr : Ref.page d di ti ∈ refs k dirs) (ht : target m (.page d di ti) = some f) (i : ℕ) (w : Word) :
    Agree k dirs m (m.setWord f i w) := by
  refine ⟨?_, ?_⟩
  · intro d' hd'
    exact Function.update_of_ne (fun he => h.page_not_space hr ht (by rwa [← he])) _ _
  · intro d' di' f' hr' ht'
    exact Function.update_of_ne (fun he => h.page_not_table hr ht hr' (by rw [ht', he])) _ _

lemma setWord_same (m : PhysMem) (a : Word) (i : ℕ) (w : Word) : m.setWord a i w a i = w := by
  simp [PhysMem.setWord]

lemma setWord_other (m : PhysMem) {a b : Word} {i j : ℕ} (w : Word) (h : b ≠ a ∨ j ≠ i) :
    m.setWord a i w b j = m b j := by
  by_cases hb : b = a
  · subst hb
    simp [PhysMem.setWord, h.resolve_left (by simp)]
  · simp [PhysMem.setWord, hb]

lemma setWord_page (m : PhysMem) {a b : Word} (i : ℕ) (w : Word) (h : b ≠ a) :
    m.setWord a i w b = m b :=
  Function.update_of_ne h _ _

def presentOnly (e : Word) : Option Word := if isPresent e then some e else none

section setPte

variable {d e : Word} {di ti : ℕ}

lemma setPte_entry (h : Layout k dirs m) (hr : Ref.page d di ti ∈ refs k dirs)
    (hp : isPresent (m d di) = true) {d' : Word} (hd' : d' ∈ spaces k dirs) (di' : ℕ) :
    m.setWord (frameOf (m d di)) ti e d' di' = m d' di' := by
  apply setWord_other
  exact Or.inl (fun he => h.table_not_space (tab_of_page hr) (target_tab hp) (by rwa [← he]))

lemma setPte_at (h : Layout k dirs m) (hr : Ref.page d di ti ∈ refs k dirs)
    (hp : isPresent (m d di) = true) :
    pteAt (m.setWord (frameOf (m d di)) ti e) d di ti = presentOnly e := by
  have he := setPte_entry (e := e) h hr hp (page_mem_refs.mp hr).1 di
  rw [pteAt_of_present (by rw [he, hp]), he, setWord_same]
  rfl

lemma setPte_other (h : Layout k dirs m) (hr : Ref.page d di ti ∈ refs k dirs)
    (hp : isPresent (m d di) = true) {d' : Word} {di' ti' : ℕ}
    (hr' : Ref.tab d' di' ∈ refs k dirs) (hne : ¬ (d' = d ∧ di' = di ∧ ti' = ti)) :
    pteAt (m.setWord (frameOf (m d di)) ti e) d' di' ti' = pteAt m d' di' ti' := by
  have he := setPte_entry (e := e) h hr hp (tab_mem_refs.mp hr').1 di'
  cases hp' : isPresent (m d' di') with
  | false => rw [pteAt_of_absent hp', pteAt_of_absent (by rw [he, hp'])]
  | true =>
    rw [pteAt_of_present hp', pteAt_of_present (by rw [he, hp']), he, setWord_other]
    by_contra hcon
    push Not at hcon
    obtain ⟨hd, hi⟩ := h.table_inj hr' (tab_of_page hr) (target_tab hp')
      (by rw [target_tab hp, hcon.1])
    exact hne ⟨hd, hi, hcon.2⟩

lemma setPte_target (h : Layout k dirs m) (hr : Ref.page d di ti ∈ refs k dirs)
    (hp : isPresent (m d di) = true) {r : Ref} (hr' : r ∈ refs k dirs) (hne : r ≠ .page d di ti) :
    target (m.setWord (frameOf (m d di)) ti e) r = target m r := by
  cases r with
  | dir d' => rfl
  | tab d' di' => simp only [target, setPte_entry h hr hp (tab_mem_refs.mp hr').1]
  | page d' di' ti' =>
    rw [target, target, setPte_other h hr hp (tab_of_page hr')]
    rintro ⟨rfl, rfl, rfl⟩
    exact hne rfl

lemma setPte_targets (h : Layout k dirs m) (hr : Ref.page d di ti ∈ refs k dirs)
    (hp : isPresent (m d di) = true) :
    targets (refs k dirs) (target (m.setWord (frameOf (m d di)) ti e)) +
        single (target m (.page d di ti)) =
      targets (refs k dirs) (target m) + single ((presentOnly e).map frameOf) := by
  have ht : target (m.setWord (frameOf (m d di)) ti e) (.page d di ti) =
      (presentOnly e).map frameOf := by rw [target, setPte_at h hr hp]
  rw [← ht]
  exact targets_redirect (refs_nodup h.nodup) hr (fun r hr' hne => setPte_target h hr hp hr' hne)

lemma Layout.setPte (h : Layout k dirs m) (hr : Ref.page d di ti ∈ refs k dirs)
    (hp : isPresent (m d di) = true)
    (hnew : ∀ e', presentOnly e = some e' → ¬ frameOf e' < managedBase ∧
      ∀ r ∈ refs k dirs, r ≠ .page d di ti → target m r = some (frameOf e') →
        Ref.SamePage (.page d di ti) r ∧ isWritable e' = false ∧
        ∀ d' di' ti' e'', r = .page d' di' ti' → pteAt m d' di' ti' = some e'' →
          isWritable e'' = false) :
    Layout k dirs (m.setWord (frameOf (m d di)) ti e) := by
  have hself : ∀ f, target (m.setWord (frameOf (m d di)) ti e) (.page d di ti) = some f →
      ∃ e', presentOnly e = some e' ∧ frameOf e' = f := by
    intro f hf
    rw [target, setPte_at h hr hp] at hf
    simpa using hf
  refine ⟨h.nodup, ?_, ?_, ?_, ?_, ?_⟩
  · intro r hr' f ht
    by_cases hne : r = .page d di ti
    · subst hne
      obtain ⟨e', he', rfl⟩ := hself f ht
      exact ⟨(hnew e' he').1, frameOf_aligned e'⟩
    · exact h.high r hr' f (by rwa [setPte_target h hr hp hr' hne] at ht)
  · intro r₁ hr₁ r₂ hr₂ f ht₁ ht₂
    by_cases hne₁ : r₁ = .page d di ti <;> by_cases hne₂ : r₂ = .page d di ti
    · exact Or.inl (hne₁.trans hne₂.symm)
    · subst hne₁
      obtain ⟨e', he', rfl⟩ := hself f ht₁
      rw [setPte_target h hr hp hr₂ hne₂] at ht₂
      exact Or.inr ((hnew e' he').2 r₂ hr₂ hne₂ ht₂).1
    · subst hne₂
      obtain ⟨e', he', rfl⟩ := hself f ht₂
      rw [setPte_target h hr hp hr₁ hne₁] at ht₁
      have hs := ((hnew e' he').2 r₁ hr₁ hne₁ ht₁).1
      right
      cases r₁ with
      | dir _ => exact hs.elim
      | tab _ _ => exact hs.elim
      | page _ _ _ => exact ⟨hs.1.symm, hs.2.symm⟩
    · rw [setPte_target h hr hp hr₁ hne₁] at ht₁
      rw [setPte_target h hr hp hr₂ hne₂] at ht₂
      exact h.sharing r₁ hr₁ r₂ hr₂ f ht₁ ht₂
  · intro d' di' ti' e'' hr₁ he hw r₂ hr₂ ht₂
    by_cases hne₁ : Ref.page d' di' ti' = .page d di ti
    · cases hne₁
      rw [setPte_at h hr hp] at he
      by_contra hne₂
      rw [setPte_target h hr hp hr₂ hne₂] at ht₂
      have hh := ((hnew e'' he).2 r₂ hr₂ hne₂ ht₂).2.1
      rw [hw] at hh
      cases hh
    · rw [setPte_other h hr hp (tab_of_page hr₁) (by rintro ⟨rfl, rfl, rfl⟩; exact hne₁ rfl)] at he
      by_cases hne₂ : r₂ = .page d di ti
      · subst hne₂
        obtain ⟨e', he', hf⟩ := hself _ ht₂
        have hh := ((hnew e' he').2 _ hr₁ hne₁ (by rw [target_page he, hf])).2.2 d' di' ti' e'' rfl he
        rw [hw] at hh
        cases hh
      · rw [setPte_target h hr hp hr₂ hne₂] at ht₂
        exact h.exclusive d' di' ti' e'' hr₁ he hw r₂ hr₂ ht₂
  · intro d' hd' di' hdi'
    rw [setPte_entry h hr hp (List.mem_cons_of_mem _ hd'), setPte_entry h hr hp List.mem_cons_self]
    exact h.kernel d' hd' di' hdi'
  · intro d' di' hr' hp'
    have hd' := (tab_mem_refs.mp hr').1
    rw [setPte_entry h hr hp hd'] at hp' ⊢
    exact h.tableRw d' di' hr' hp'

end setPte

end PyroOS
