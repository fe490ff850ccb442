import PyroOS.Paging.FailedMap

/-! What a sequence of mappings allows: the entry of a 4 MB region is fixed by the mapping that makes
its table, and every later page in the region is subject to it. -/

namespace PyroOS

open Sharing

variable {k : BootDir} {vm vm' : Vm} {d virt phys flags : Word} {R : Multiset Word}

structure MapCall where
  virt : Word
  phys : Word
  flags : Word

def MapCall.page (c : MapCall) : ℕ × ℕ := (dirIndex c.virt, tabIndex c.virt)

def mapAll (d : Word) : Vm → List MapCall → Option Vm
  | vm, [] => some vm
  | vm, c :: cs =>
    let r := vmmMap vm d c.virt c.phys c.flags
    if r.2 = 0 then mapAll d r.1 cs else none

def permissions (m : PhysMem) (d virt : Word) : Bool × Bool :=
  match pteAt m d (dirIndex virt) (tabIndex virt) with
  | some e => (isUser (m d (dirIndex virt)) && isUser e, isWritable (m d (dirIndex virt)) && isWritable e)
  | none => (false, false)

def regionUser (vm : Vm) (d : Word) (cs : List MapCall) (di : ℕ) : Bool :=
  if isPresent (vm.mem d di) then isUser (vm.mem d di)
  else ((cs.find? fun c => dirIndex c.virt = di).map fun c => isUser c.flags).getD false

/-! ### One mapping -/

/-- The tables of a directory, whatever their pages point at: `R` holds them, and the directory unless it is
the kernel's, and the pool does not give out what is in `R`. -/
structure Rooted (d : Word) (R : Multiset Word) (vm : Vm) : Prop where
  counts : Counts vm.pmm R
  dir : d < managedBase ∨ d ∈ R
  table : ∀ di, 2 ≤ di → di < 1024 → isPresent (vm.mem d di) = true →
    frameOf (vm.mem d di) ∈ R ∧ frameOf (vm.mem d di) ≠ d ∧ isWritable (vm.mem d di) = true
  inj : ∀ di di', 2 ≤ di → di < 1024 → 2 ≤ di' → di' < 1024 → isPresent (vm.mem d di) = true →
    isPresent (vm.mem d di') = true → frameOf (vm.mem d di) = frameOf (vm.mem d di') → di = di'

lemma Booked.rooted {L : Multiset Word} (h : Booked k L vm) (hd : d ∈ spaces k vm.dirs) :
    Rooted d (targets (refs k vm.dirs) (target vm.mem) + L) vm := by
  have href : ∀ di, 2 ≤ di → di < 1024 → Ref.tab d di ∈ refs k vm.dirs := fun di h₁ h₂ =>
    tab_mem_refs.mpr ⟨hd, h₁, h₂⟩
  refine ⟨h.counts, ?_, fun di h₁ h₂ hp => ⟨?_, ?_, h.layout.tableRw d di (href di h₁ h₂) hp⟩, ?_⟩
  · rcases List.mem_cons.mp hd with rfl | hd
    · exact .inl k.low
    · exact .inr (Multiset.mem_add.mpr (.inl (mem_targets.mpr ⟨.dir d, dir_mem_refs.mpr hd, rfl⟩)))
  · exact Multiset.mem_add.mpr (.inl (mem_targets.mpr ⟨.tab d di, href di h₁ h₂, target_tab hp⟩))
  · have hno := h.layout.table_not_space (href di h₁ h₂) (target_tab hp)
    rintro he
    rw [he] at hno
    exact hno hd
  · intro di di' h₁ h₂ h₁' h₂' hp hp' he
    have ht' := target_tab hp'
    rw [← he] at ht'
    exact (h.layout.table_inj (href di h₁ h₂) (href di' h₁' h₂') (target_tab hp) ht').2

section

variable {di : ℕ} {a : Word} {p : Pmm}

lemma isUser_or (ha : Aligned a) (fl : Word) : isUser (a ||| fl) = isUser fl := by
  rw [isUser_bit, isUser_bit, or_flags_bit ha (by decide)]

lemma isWritable_or (ha : Aligned a) (fl : Word) : isWritable (a ||| fl) = isWritable fl := by
  rw [isWritable_bit, isWritable_bit, or_flags_bit ha (by decide)]

lemma Rooted.ne_dir (h : Rooted d R vm) (hc : Counts p (a ::ₘ R)) (hn : a ∉ R) : a ≠ d := by
  rintro rfl
  rcases h.dir with hlow | hmem
  · exact hc.not_low (Multiset.mem_cons_self _ _) hlow
  · exact hn hmem

lemma withTable_dir (hne : a ≠ d) (fl : Word) (j : ℕ) :
    withTable vm.mem d di a fl d j = if j = di then a ||| fl else vm.mem d j := by
  have hpage : vm.mem.setPage a (fun _ => 0) d = vm.mem d := Function.update_of_ne hne.symm _ _
  by_cases hj : j = di
  · rw [if_pos hj, hj]
    exact setWord_same _ _ _ _
  · rw [if_neg hj]
    exact (setWord_other _ _ (.inr hj)).trans (congrFun hpage j)

lemma Rooted.newTable (h : Rooted d R vm) (hdi : 2 ≤ di) (hp : isPresent (vm.mem d di) = false)
    (hc : Counts p (a ::ₘ R)) (hn : a ∉ R) (flags : Word) :
    Rooted d (a ::ₘ R) { vm with mem := withTable vm.mem d di a (tableFlags flags), pmm := p } ∧
      ∀ j ti, 2 ≤ j → j < 1024 →
        pteAt (withTable vm.mem d di a (tableFlags flags)) d j ti = pteAt vm.mem d j ti := by
  have hne := h.ne_dir hc hn
  have ha := hc.aligned (Multiset.mem_cons_self a R)
  obtain ⟨hz, hpf, hw⟩ := tableFlags_spec flags
  have hframe : frameOf (a ||| tableFlags flags) = a := frameOf_or_flags ha hz
  have hold : ∀ j, j ≠ di → withTable vm.mem d di a (tableFlags flags) d j = vm.mem d j := fun j hj => by
    rw [withTable_dir hne, if_neg hj]
  have hnew : withTable vm.mem d di a (tableFlags flags) d di = a ||| tableFlags flags := by
    rw [withTable_dir hne, if_pos rfl]
  refine ⟨⟨hc, h.dir.imp_right (Multiset.mem_cons_of_mem ·), ?_, ?_⟩, ?_⟩
  · intro j h₁ h₂ hj
    by_cases he : j = di
    · subst he
      dsimp only
      rw [hnew, hframe, isWritable_or ha, hw]
      exact ⟨Multiset.mem_cons_self a R, hne, rfl⟩
    · dsimp only at hj ⊢
      rw [hold j he] at hj ⊢
      obtain ⟨hm, hd, hwr⟩ := h.table j h₁ h₂ hj
      exact ⟨Multiset.mem_cons_of_mem hm, hd, hwr⟩
  · intro i j h₁ h₂ h₃ h₄ hi hj he
    dsimp only at hi hj he
    by_cases hid : i = di <;> by_cases hjd : j = di
    · rw [hid, hjd]
    · rw [hid, hnew, hframe, hold j hjd] at he
      rw [hold j hjd] at hj
      exact (hn (he ▸ (h.table j h₃ h₄ hj).1)).elim
    · rw [hjd, hnew, hframe, hold i hid] at he
      rw [hold i hid] at hi
      exact (hn (he ▸ (h.table i h₁ h₂ hi).1)).elim
    · rw [hold i hid] at hi he
      rw [hold j hjd] at hj he
      exact h.inj i j h₁ h₂ h₃ h₄ hi hj he
  · intro j ti h₁ h₂
    by_cases he : j = di
    · subst he
      have hzero : withTable vm.mem d j a (tableFlags flags) a ti = 0 := by
        rw [withTable, setWord_page _ _ _ hne, PhysMem.setPage, Function.update_self]
      have hpres : isPresent (withTable vm.mem d j a (tableFlags flags) d j) = true := by
        rw [hnew, isPresent_or ha, hpf]
      rw [pteAt_of_absent hp, pteAt_of_present hpres, hnew, hframe, hzero]
      rfl
    · cases hj : isPresent (vm.mem d j) with
      | false => rw [pteAt_of_absent hj, pteAt_of_absent (by rw [hold j he, hj])]
      | true =>
        obtain ⟨hm, hd, -⟩ := h.table j h₁ h₂ hj
        have hne' : frameOf (vm.mem d j) ≠ a := by
          intro hh
          exact hn (hh ▸ hm)
        rw [pteAt_of_present hj, pteAt_of_present (by rw [hold j he, hj]), hold j he, withTable_page hne' hd]

lemma Rooted.setEntry (h : Rooted d R vm) (hdi : 2 ≤ di) (hdi' : di < 1024) (hp : isPresent (vm.mem d di) = true)
    (ti : ℕ) (e : Word) (he : isPresent e = true) :
    Rooted d R { vm with mem := vm.mem.setWord (frameOf (vm.mem d di)) ti e } ∧
      (∀ j, vm.mem.setWord (frameOf (vm.mem d di)) ti e d j = vm.mem d j) ∧
      ∀ j tj, 2 ≤ j → j < 1024 → pteAt (vm.mem.setWord (frameOf (vm.mem d di)) ti e) d j tj =
        if j = di ∧ tj = ti then some e else pteAt vm.mem d j tj := by
  have hne := (h.table di hdi hdi' hp).2.1
  have hdir : vm.mem.setWord (frameOf (vm.mem d di)) ti e d = vm.mem d := setWord_page _ _ _ hne.symm
  refine ⟨⟨h.counts, h.dir, ?_, ?_⟩, fun j => congrFun hdir j, ?_⟩
  · dsimp only
    rw [hdir]
    exact h.table
  · dsimp only
    rw [hdir]
    exact h.inj
  · intro j tj h₁ h₂
    cases hj : isPresent (vm.mem d j) with
    | false =>
      rw [if_neg, pteAt_of_absent hj, pteAt_of_absent (by rw [hdir, hj])]
      rintro ⟨rfl, -⟩
      rw [hp] at hj
      cases hj
    | true =>
      rw [pteAt_of_present hj, pteAt_of_present (by rw [hdir, hj]), hdir]
      by_cases hsame : j = di ∧ tj = ti
      · obtain ⟨rfl, rfl⟩ := hsame
        rw [setWord_same, if_pos he, if_pos ⟨rfl, rfl⟩]
      · rw [if_neg hsame, setWord_other]
        by_contra hcon
        push Not at hcon
        exact hsame ⟨h.inj j di h₁ h₂ hdi hdi' hj hp hcon.1, hcon.2⟩

end

structure MapStep (vm vm' : Vm) (d virt phys flags : Word) : Prop where
  ptes : ∀ di ti, 2 ≤ di → di < 1024 → pteAt vm'.mem d di ti =
    if di = dirIndex virt ∧ ti = tabIndex virt then some (frameOf phys ||| pageFlags flags)
    else pteAt vm.mem d di ti
  kept : ∀ di, isPresent (vm.mem d di) = true ∨ di ≠ dirIndex virt → vm'.mem d di = vm.mem d di
  present : isPresent (vm'.mem d (dirIndex virt)) = true
  made : isPresent (vm.mem d (dirIndex virt)) = false → isUser (vm'.mem d (dirIndex virt)) = isUser flags

lemma tableFlags_user (flags : Word) : isUser (tableFlags flags) = isUser flags := by
  have hrw : (pfPresent ||| pfRw).getLsbD 2 = false := by decide
  have huser : pfUser.getLsbD 2 = true := by decide
  rw [isUser_bit, isUser_bit, tableFlags, BitVec.getLsbD_or, BitVec.getLsbD_and, hrw, huser, Bool.and_true,
    Bool.false_or]

lemma Rooted.tableFor (h : Rooted d R vm) (hv : privateBase ≤ virt) (flags : Word) :
    (tableFor vm d virt true flags).2 = 0 ∨ ∃ vm₁ R',
      tableFor vm d virt true flags = (vm₁, frameOf (vm₁.mem d (dirIndex virt))) ∧ Rooted d R' vm₁ ∧
      isPresent (vm₁.mem d (dirIndex virt)) = true ∧
      (∀ di ti, 2 ≤ di → di < 1024 → pteAt vm₁.mem d di ti = pteAt vm.mem d di ti) ∧
      (∀ di, isPresent (vm.mem d di) = true ∨ di ≠ dirIndex virt → vm₁.mem d di = vm.mem d di) ∧
      (isPresent (vm.mem d (dirIndex virt)) = false → isUser (vm₁.mem d (dirIndex virt)) = isUser flags) := by
  cases hp : isPresent (vm.mem d (dirIndex virt)) with
  | true =>
    refine .inr ⟨vm, R, ?_, h, hp, fun _ _ _ _ => rfl, fun _ _ => rfl, nofun⟩
    simp only [PyroOS.tableFor, hp, Bool.not_true, Bool.false_eq_true, if_false]
  | false =>
    rcases h.counts.alloc with ⟨ha, -⟩ | ⟨p', a, ha, hz, hn, -, hc⟩
    · exact .inl (by simp [PyroOS.tableFor, hp, ha])
    · obtain ⟨hroot, hsame⟩ := h.newTable (dirIndex_private hv) hp hc hn flags
      have hne := h.ne_dir hc hn
      have hal := hc.aligned (Multiset.mem_cons_self a R)
      have hnew : withTable vm.mem d (dirIndex virt) a (tableFlags flags) d (dirIndex virt) =
          a ||| tableFlags flags := by rw [withTable_dir hne, if_pos rfl]
      refine .inr ⟨{ vm with mem := withTable vm.mem d (dirIndex virt) a (tableFlags flags), pmm := p' }, _, ?_,
        hroot, ?_, hsame, fun di hdi => ?_, fun _ => ?_⟩
      · simp only [PyroOS.tableFor, hp, ha, if_neg hz, Bool.not_false, Bool.not_true, if_true, Bool.false_eq_true,
          if_false]
        rfl
      · exact (congrArg isPresent hnew).trans (by rw [isPresent_or hal, (tableFlags_spec flags).2.1])
      · refine (withTable_dir hne _ di).trans (if_neg ?_)
        rintro rfl
        rcases hdi with hpr | hpr
        · rw [hp] at hpr
          cases hpr
        · exact hpr rfl
      · exact (congrArg isUser hnew).trans (by rw [isUser_or hal, tableFlags_user])

lemma Rooted.map (h : Rooted d R vm) (hv : privateBase ≤ virt) (hok : (vmmMap vm d virt phys flags).2 = 0) :
    (∃ R', Rooted d R' (vmmMap vm d virt phys flags).1) ∧
      MapStep vm (vmmMap vm d virt phys flags).1 d virt phys flags := by
  have h₁ := dirIndex_private hv
  have h₂ := dirIndex_lt virt
  have hpte : isPresent (frameOf phys ||| pageFlags flags) = true := by
    rw [isPresent_or (frameOf_aligned phys), (pageFlags_spec flags).2]
  rcases h.tableFor hv flags with hz | ⟨vm₁, R', htab, hroot, hp, hsame, hkept, hmade⟩
  · rw [vmmMap] at hok
    dsimp only at hok
    rw [if_pos hz] at hok
    cases hok
  · obtain ⟨hroot', hdir, hptes⟩ := hroot.setEntry h₁ h₂ hp (tabIndex virt) _ hpte
    have hz : frameOf (vm₁.mem d (dirIndex virt)) ≠ 0 := hroot.counts.ne_zero (hroot.table _ h₁ h₂ hp).1
    simp only [vmmMap, htab, if_neg hz]
    refine ⟨⟨R', hroot'⟩, fun di ti hdi hdi' => ?_, fun di hdi => (hdir di).trans (hkept di hdi),
      (congrArg isPresent (hdir _)).trans hp, fun hno => (congrArg isUser (hdir _)).trans (hmade hno)⟩
    rw [← hsame di ti hdi hdi']
    exact hptes di ti hdi hdi'

/-! ### Many mappings -/

structure MapRun (vm vm' : Vm) (d : Word) (cs : List MapCall) : Prop where
  writable : ∀ di, 2 ≤ di → di < 1024 → isPresent (vm'.mem d di) = true → isWritable (vm'.mem d di) = true
  kept : ∀ di, isPresent (vm.mem d di) = true → vm'.mem d di = vm.mem d di
  user : ∀ c ∈ cs, isUser (vm'.mem d (dirIndex c.virt)) = regionUser vm d cs (dirIndex c.virt)
  mapped : ∀ c ∈ cs, pteAt vm'.mem d (dirIndex c.virt) (tabIndex c.virt) = some (frameOf c.phys ||| pageFlags c.flags)
  rest : ∀ di ti, 2 ≤ di → di < 1024 → (di, ti) ∉ cs.map MapCall.page →
    pteAt vm'.mem d di ti = pteAt vm.mem d di ti

lemma Rooted.mapAll {cs : List MapCall} (h : Rooted d R vm) (hv : ∀ c ∈ cs, privateBase ≤ c.virt)
    (hn : (cs.map MapCall.page).Nodup) (hm : mapAll d vm cs = some vm') : MapRun vm vm' d cs := by
  induction cs generalizing vm R with
  | nil =>
    obtain rfl := Option.some.inj hm
    exact ⟨fun di h₁ h₂ hp => (h.table di h₁ h₂ hp).2.2, fun _ _ => rfl, nofun, nofun, fun _ _ _ _ _ => rfl⟩
  | cons c cs ih =>
    rw [PyroOS.mapAll] at hm
    split at hm
    · rename_i hok
      obtain ⟨hc, hvs⟩ := List.forall_mem_cons.mp hv
      obtain ⟨hnc, hns⟩ := List.nodup_cons.mp hn
      obtain ⟨⟨R', hroot⟩, hstep⟩ := h.map hc hok
      have hrun := ih hroot hvs hns hm
      have hfirst : vm'.mem d (dirIndex c.virt) = (vmmMap vm d c.virt c.phys c.flags).1.mem d (dirIndex c.virt) :=
        hrun.kept _ hstep.present
      refine ⟨hrun.writable, fun di hp => ?_, ?_, ?_, ?_⟩
      · have hk := hstep.kept di (.inl hp)
        rw [← hk] at hp ⊢
        exact hrun.kept di hp
      · intro c' hc'
        cases hp : isPresent (vm.mem d (dirIndex c'.virt)) with
        | true =>
          have hk := hstep.kept _ (.inl hp)
          rw [regionUser, if_pos hp, ← hk, hrun.kept _ (hk ▸ hp)]
        | false =>
          by_cases hsame : dirIndex c'.virt = dirIndex c.virt
          · rw [hsame] at hp ⊢
            rw [hfirst, hstep.made hp, regionUser, hp]
            simp
          · have hmem : c' ∈ cs := (List.mem_cons.mp hc').resolve_left fun he => hsame (he ▸ rfl)
            rw [hrun.user c' hmem, regionUser, regionUser, hstep.kept _ (.inr hsame), hp,
              List.find?_cons_of_neg (by simpa using Ne.symm hsame)]
      · refine List.forall_mem_cons.mpr ⟨?_, hrun.mapped⟩
        rw [hrun.rest _ _ (dirIndex_private hc) (dirIndex_lt _) hnc,
          hstep.ptes _ _ (dirIndex_private hc) (dirIndex_lt _), if_pos ⟨rfl, rfl⟩]
      · intro di ti h₁ h₂ hmem
        rw [List.map_cons, List.mem_cons, not_or] at hmem
        rw [hrun.rest di ti h₁ h₂ hmem.2, hstep.ptes di ti h₁ h₂, if_neg]
        rintro ⟨rfl, rfl⟩
        exact hmem.1 rfl
    · cases hm

lemma pageFlags_bits (flags : Word) :
    isUser (pageFlags flags) = isUser flags ∧ isWritable (pageFlags flags) = isWritable flags := by
  have huser : pfPresent.getLsbD 2 = false := by decide
  have hrw : pfPresent.getLsbD 1 = false := by decide
  constructor
  · rw [isUser_bit, isUser_bit, pageFlags, BitVec.getLsbD_or, flagsOf_bit, huser]
    simp
  · rw [isWritable_bit, isWritable_bit, pageFlags, BitVec.getLsbD_or, flagsOf_bit, hrw]
    simp

lemma MapRun.permissions {cs : List MapCall} {c : MapCall} (h : MapRun vm vm' d cs) (hc : c ∈ cs)
    (hv : privateBase ≤ c.virt) : permissions vm'.mem d c.virt =
      (regionUser vm d cs (dirIndex c.virt) && isUser c.flags, isWritable c.flags) := by
  have hw := h.writable _ (dirIndex_private hv) (dirIndex_lt _) (pteAt_some (h.mapped c hc)).1
  rw [PyroOS.permissions, h.mapped c hc]
  dsimp only
  rw [h.user c hc, hw, isUser_or (frameOf_aligned _), isWritable_or (frameOf_aligned _), (pageFlags_bits _).1,
    (pageFlags_bits _).2, Bool.true_and]

lemma MapRun.permissions_rest {cs : List MapCall} {virt : Word} (h : MapRun vm vm' d cs) (hv : privateBase ≤ virt)
    (hn : (dirIndex virt, tabIndex virt) ∉ cs.map MapCall.page) :
    PyroOS.permissions vm'.mem d virt = PyroOS.permissions vm.mem d virt := by
  have hrest := h.rest _ _ (dirIndex_private hv) (dirIndex_lt virt) hn
  rw [PyroOS.permissions, PyroOS.permissions, hrest]
  cases hp : pteAt vm.mem d (dirIndex virt) (tabIndex virt) with
  | none => rfl
  | some e => rw [h.kept _ (pteAt_some hp).1]

lemma permissions_congr {m : PhysMem} {virt virt' : Word} (h₁ : dirIndex virt = dirIndex virt')
    (h₂ : tabIndex virt = tabIndex virt') : permissions m d virt = permissions m d virt' := by
  rw [permissions, permissions, h₁, h₂]

def UserRegions (vm : Vm) (d : Word) (cs : List MapCall) : Prop :=
  ∀ c ∈ cs, isUser c.flags = true → regionUser vm d cs (dirIndex c.virt) = true

/-- Mappings of distinct pages give exactly the permissions asked for if and only if no user page comes into a
region that was opened for the kernel only; and the order of the calls matters in that way only. -/
theorem mapping_permissions {first second memBytes : Word} {m : PhysMem} {u : Mmu} (ht : BootTables k first second)
    (h : MmuRun k (MmuOp.Allowed k) (bootWith k first second memBytes m).mmu u) (hd : d ∈ spaces k u.vm.dirs)
    {cs : List MapCall} (hv : ∀ c ∈ cs, privateBase ≤ c.virt) (hn : (cs.map MapCall.page).Nodup)
    (hm : mapAll d u.vm cs = some vm') :
    ((∀ c ∈ cs, permissions vm'.mem d c.virt = (isUser c.flags, isWritable c.flags)) ↔ UserRegions u.vm d cs) ∧
    (∀ c ∈ cs, (permissions vm'.mem d c.virt).2 = isWritable c.flags) ∧
    ∀ cs' vm'', cs'.Perm cs → mapAll d u.vm cs' = some vm'' →
      ((∀ virt, privateBase ≤ virt → permissions vm''.mem d virt = permissions vm'.mem d virt) ↔
        ∀ c ∈ cs, isUser c.flags = true →
          regionUser u.vm d cs' (dirIndex c.virt) = regionUser u.vm d cs (dirIndex c.virt)) := by
  obtain ⟨L, hbacked⟩ := (h.fit (boot_fit ht)).backed
  have hroot := hbacked.booked.rooted hd
  have hrun := hroot.mapAll hv hn hm
  refine ⟨?_, fun c hc => by rw [hrun.permissions hc (hv c hc)], fun cs' vm'' hperm hm' => ?_⟩
  · refine forall₂_congr fun c hc => ?_
    rw [hrun.permissions hc (hv c hc), Prod.mk.injEq]
    cases isUser c.flags <;> simp
  · have hn' : (cs'.map MapCall.page).Nodup := (hperm.map _).nodup_iff.mpr hn
    have hrun' := hroot.mapAll (fun c hc => hv c (hperm.mem_iff.mp hc)) hn' hm'
    constructor
    · intro hall c hc huser
      have hc' := hall c.virt (hv c hc)
      rw [hrun.permissions hc (hv c hc), hrun'.permissions (hperm.mem_iff.mpr hc) (hv c hc), huser, Bool.and_true,
        Bool.and_true] at hc'
      exact congrArg Prod.fst hc'
    · intro hall virt hvirt
      by_cases hmem : (dirIndex virt, tabIndex virt) ∈ cs.map MapCall.page
      · obtain ⟨c, hc, he⟩ := List.mem_map.mp hmem
        obtain ⟨h₁, h₂⟩ := Prod.mk.inj he
        rw [← permissions_congr h₁ h₂, ← permissions_congr h₁ h₂, hrun.permissions hc (hv c hc),
          hrun'.permissions (hperm.mem_iff.mpr hc) (hv c hc)]
        cases huser : isUser c.flags with
        | false => simp
        | true => rw [hall c hc huser]
      · rw [hrun.permissions_rest hvirt hmem, hrun'.permissions_rest hvirt]
        rwa [(hperm.map MapCall.page).mem_iff]

def userFirst : List MapCall := [⟨0x801000, 0x501000, 6⟩, ⟨0x800000, 0x500000, 2⟩]
def kernelFirst : List MapCall := [⟨0x800000, 0x500000, 2⟩, ⟨0x801000, 0x501000, 6⟩]

theorem mapping_permissions_userFirst : ∃ vm', mapAll 0x20000 sampleBoot.mmu.vm userFirst = some vm' ∧
    ((∀ c ∈ userFirst, permissions vm'.mem 0x20000 c.virt = (isUser c.flags, isWritable c.flags)) ↔
      UserRegions sampleBoot.mmu.vm 0x20000 userFirst) := by
  obtain ⟨vm', hm⟩ := Option.isSome_iff_exists.mp
    (by decide +kernel : (mapAll 0x20000 sampleBoot.mmu.vm userFirst).isSome = true)
  have hv : ∀ c ∈ userFirst, privateBase ≤ c.virt := by decide
  exact ⟨vm', hm, (mapping_permissions sample_tables .start List.mem_cons_self hv (by decide) hm).1⟩

/-- A kernel page and a user page in one region: in this order user code cannot reach the user page, in the
other order it can. -/
theorem kernelFirst_hides :
    (mapAll 0x20000 sampleBoot.mmu.vm kernelFirst).map (fun vm => permissions vm.mem 0x20000 0x801000) =
      some (false, true) ∧
    (mapAll 0x20000 sampleBoot.mmu.vm userFirst).map (fun vm => permissions vm.mem 0x20000 0x801000) =
      some (true, true) := by
  constructor <;> decide +kernel

end PyroOS
