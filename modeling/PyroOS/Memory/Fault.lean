import PyroOS.Memory.Clone

/-! Memory accesses: the page walk of the processor, demand paging, and the page-fault handler. -/

namespace PyroOS

structure Region where
  dir : Word
  start : Word
  stop : Word
  flags : Word
  active : Bool

abbrev maxRegions : ℕ := 16

structure Demand where
  regions : Fin maxRegions → Region
  faultsServed : Word

structure Mmu where
  vm : Vm
  demand : Demand
  cr3 : Word

def demandRegion (dm : Demand) (dir start stop flags : Word) : Demand :=
  match (List.finRange maxRegions).find? fun i => !(dm.regions i).active with
  | none => dm
  | some i =>
    { dm with
      regions := Function.update dm.regions i
        ⟨dir, start &&& ~~~0xFFF, (stop + 0xFFF) &&& ~~~0xFFF, flags, true⟩ }

def demandClear (dm : Demand) : Demand where
  regions i := { dm.regions i with active := false }
  faultsServed := 0

def promised (dm : Demand) (current addr : Word) : Option Region :=
  ((List.finRange maxRegions).find? fun i =>
    (dm.regions i).active && (dm.regions i).dir == current && decide ((dm.regions i).start ≤ addr) &&
      decide (addr < (dm.regions i).stop)).map dm.regions

def demandHandle (u : Mmu) (addr errCode : Word) : Mmu × Bool :=
  if errCode &&& 0x1 ≠ 0 then (u, false)
  else
    match promised u.demand (frameOf u.cr3) addr with
    | none => (u, false)
    | some r =>
      let (vm, status) := vmmMapAlloc u.vm r.dir (addr &&& ~~~0xFFF) r.flags
      if status ≠ 0 then ({ u with vm := vm }, false)
      else
        ({ u with
          vm := vm
          demand := { u.demand with faultsServed := u.demand.faultsServed + 1 } }, true)

/-- The page-fault part of `isr_handler`: true when the instruction may run again. -/
def isrPageFault (u : Mmu) (faultAddr errCode : Word) : Mmu × Bool :=
  let (u, served) := demandHandle u faultAddr errCode
  if served then (u, true)
  else
    let (vm, resolved) := vmmCowHandle u.vm u.cr3 faultAddr errCode
    ({ u with vm := vm }, resolved)

def permits (pde pte : Word) (write user : Bool) : Bool :=
  (!user || isUser pde && isUser pte) && (!write || isWritable pde && isWritable pte)

def accessCode (write user : Bool) : Word := (if write then 0x2 else 0) ||| (if user then 0x4 else 0)

/-- The processor's walk, with write protection in force for ring 0 as well: the page-table entry,
or the error code of the fault. -/
def walk (m : PhysMem) (cr3 va : Word) (write user : Bool) : Except Word Word :=
  let pde := m (frameOf cr3) (dirIndex va)
  let pte := m (frameOf pde) (tabIndex va)
  if !(isPresent pde && isPresent pte) then .error (accessCode write user)
  else if permits pde pte write user then .ok pte
  else .error (accessCode write user ||| 0x1)

/-- Run an access, again after each resolved fault. One fault may be served by demand paging and
one by copy-on-write, so a third attempt is final. -/
def accessWith : ℕ → Mmu → Word → Bool → Bool → Mmu × Option Word
  | 0, u, _, _, _ => (u, none)
  | n + 1, u, va, write, user =>
    match walk u.vm.mem u.cr3 va write user with
    | .ok e => (u, some e)
    | .error code =>
      let (u, again) := isrPageFault u va code
      if again then accessWith n u va write user else (u, none)

def access (u : Mmu) (va : Word) (write user : Bool) : Mmu × Option Word :=
  accessWith 3 u va write user

def withByte (w : Word) (j : ℕ) (b : Byte) : Word :=
  (w &&& ~~~((0xFF : Word) <<< (8 * j))) ||| ((b.setWidth 32 : Word) <<< (8 * j))

def wordIndex (va : Word) : ℕ := (va &&& 0xFFF).toNat / 4
def byteIndex (va : Word) : ℕ := (va &&& 0xFFF).toNat % 4

def loadByte (u : Mmu) (va : Word) (user : Bool) : Mmu × Option Byte :=
  match access u va false user with
  | (u, none) => (u, none)
  | (u, some e) => (u, some (byteOf (u.vm.mem (frameOf e) (wordIndex va)) (byteIndex va)))

def storeByte (u : Mmu) (va : Word) (b : Byte) (user : Bool) : Mmu × Bool :=
  match access u va true user with
  | (u, none) => (u, false)
  | (u, some e) =>
    let w := withByte (u.vm.mem (frameOf e) (wordIndex va)) (byteIndex va) b
    ({ u with vm := { u.vm with mem := u.vm.mem.setWord (frameOf e) (wordIndex va) w } }, true)

/-! ### The walk and the page tables -/

section walk

variable {k : BootDir} {m : PhysMem} {d va : Word} {write user : Bool}

lemma accessCode_absent (write user : Bool) : accessCode write user &&& 0x1 = 0 := by
  cases write <;> cases user <;> decide

lemma accessCode_present (write user : Bool) : (accessCode write user ||| 0x1) &&& 0x1 ≠ 0 := by
  cases write <;> cases user <;> decide

lemma accessCode_write (write user : Bool) :
    (accessCode write user ||| 0x1) &&& 0x2 = 0 ↔ write = false := by
  cases write <;> cases user <;> decide

lemma walk_absent (hd : Aligned d) (h : pteAt m d (dirIndex va) (tabIndex va) = none) :
    walk m d va write user = .error (accessCode write user) := by
  have hd' : frameOf d = d := hd
  rw [pteAt] at h
  simp only [walk, hd']
  rw [if_pos]
  split at h
  · split at h
    · cases h
    · simp_all
  · simp_all

lemma walk_present (write user : Bool) (hd : Aligned d) {e : Word}
    (h : pteAt m d (dirIndex va) (tabIndex va) = some e) :
    walk m d va write user = if permits (m d (dirIndex va)) e write user then .ok e
      else .error (accessCode write user ||| 0x1) := by
  have hd' : frameOf d = d := hd
  obtain ⟨hp, hpe, he⟩ := pteAt_some h
  simp only [walk, hd', he, hp, hpe, Bool.and_self, Bool.not_true, Bool.false_eq_true, if_false]

lemma walk_ok {e : Word} (hd : Aligned d) (h : walk m d va write user = .ok e) :
    pteAt m d (dirIndex va) (tabIndex va) = some e ∧ permits (m d (dirIndex va)) e write user = true := by
  cases hp : pteAt m d (dirIndex va) (tabIndex va) with
  | none =>
    rw [walk_absent hd hp] at h
    cases h
  | some e' =>
    rw [walk_present write user hd hp] at h
    split at h
    · obtain rfl := Except.ok.inj h
      exact ⟨rfl, ‹_›⟩
    · cases h

lemma and_pageMask (v : Word) : v &&& ~~~0xFFF = frameOf v := rfl

lemma dirIndex_frameOf (v : Word) : dirIndex (frameOf v) = dirIndex v := by
  rw [dirIndex, dirIndex]
  congr 1
  apply BitVec.eq_of_getLsbD_eq
  intro i _
  simp only [BitVec.getLsbD_and, BitVec.getLsbD_ushiftRight, frameOf_bit]
  simp [show 12 ≤ 22 + i by omega]

lemma tabIndex_frameOf (v : Word) : tabIndex (frameOf v) = tabIndex v := by
  rw [tabIndex, tabIndex]
  congr 1
  apply BitVec.eq_of_getLsbD_eq
  intro i _
  simp only [BitVec.getLsbD_and, BitVec.getLsbD_ushiftRight, frameOf_bit]
  simp [show 12 ≤ 12 + i by omega]

lemma frameOf_private {v : Word} (h : privateBase ≤ v) : privateBase ≤ frameOf v := by
  have h₂ := dirIndex_private h
  rw [← dirIndex_frameOf, dirIndex_eq] at h₂
  rw [BitVec.le_def]
  simp only [privateBase, BitVec.ofNat_eq_ofNat, BitVec.toNat_ofNat]
  omega

end walk

section handlers

variable {k : BootDir} {u u' : Mmu} {va : Word} {write user : Bool}

structure Mmu.Ok (k : BootDir) (u : Mmu) : Prop where
  sound : Sound k u.vm
  loaded : u.cr3 ∈ spaces k u.vm.dirs

structure Accessed (k : BootDir) (u u' : Mmu) : Prop where
  sound : Sound k u'.vm
  dirs : u'.vm.dirs = u.vm.dirs
  total : u'.vm.pmm.totalFrames = u.vm.pmm.totalFrames
  regions : u'.demand.regions = u.demand.regions
  cr3 : u'.cr3 = u.cr3

namespace Accessed

lemma refl (h : Sound k u.vm) : Accessed k u u := ⟨h, rfl, rfl, rfl, rfl⟩

lemma trans {u'' : Mmu} (h : Accessed k u u') (h' : Accessed k u' u'') : Accessed k u u'' :=
  ⟨h'.sound, h'.dirs.trans h.dirs, h'.total.trans h.total, h'.regions.trans h.regions,
    h'.cr3.trans h.cr3⟩

lemma ok (h : Accessed k u u') (hu : u.Ok k) : u'.Ok k :=
  ⟨h.sound, by rw [h.dirs, h.cr3]; exact hu.loaded⟩

end Accessed

def Mmu.pte (u : Mmu) (va : Word) : Option Word := pteAt u.vm.mem u.cr3 (dirIndex va) (tabIndex va)

/-- No missing page of the access meets a promise that `vmmMapAlloc` cannot keep. -/
def Mmu.MapsSucceed (u : Mmu) (va : Word) : Prop :=
  u.pte va = none → ∀ r, promised u.demand (frameOf u.cr3) va = some r →
    (vmmMapAlloc u.vm r.dir (frameOf va) r.flags).2 = 0

lemma promised_some {dm : Demand} {current addr : Word} {r : Region} (h : promised dm current addr = some r) :
    ∃ i, dm.regions i = r ∧ r.active = true ∧ r.dir = current ∧ r.start ≤ addr ∧ addr < r.stop := by
  rw [promised, Option.map_eq_some_iff] at h
  obtain ⟨i, hi, rfl⟩ := h
  have hh := List.find?_some hi
  simp only [Bool.and_eq_true, beq_iff_eq, decide_eq_true_eq, and_assoc] at hh
  exact ⟨i, rfl, hh⟩

lemma promised_dir {dm : Demand} {current addr : Word} {r : Region}
    (h : promised dm current addr = some r) : r.dir = current := by
  obtain ⟨_, _, _, hdir, _⟩ := promised_some h
  exact hdir

lemma isrPageFault_served (write user : Bool) (h : u.Ok k) (hv : privateBase ≤ va) (habs : u.pte va = none)
    {r : Region} (hp : promised u.demand (frameOf u.cr3) va = some r)
    (hok : (vmmMapAlloc u.vm r.dir (frameOf va) r.flags).2 = 0) :
    isrPageFault u va (accessCode write user) =
        (⟨(vmmMapAlloc u.vm u.cr3 (frameOf va) r.flags).1, ⟨u.demand.regions, u.demand.faultsServed + 1⟩, u.cr3⟩,
          true) ∧
      Mapped k u.vm (vmmMapAlloc u.vm u.cr3 (frameOf va) r.flags).1 u.cr3 (frameOf va) r.flags fun _ => 0 := by
  have hcode := accessCode_absent write user
  have hdir : r.dir = u.cr3 := (promised_dir hp).trans (h.sound.space_aligned h.loaded)
  rcases hm : vmmMapAlloc u.vm r.dir (frameOf va) r.flags with ⟨vm', status⟩
  rw [hm] at hok
  obtain rfl : status = 0 := hok
  rw [hdir] at hm
  have hmapped := h.sound.mapAlloc h.loaded (frameOf_private hv)
    (by rw [dirIndex_frameOf, tabIndex_frameOf]; exact habs) hm
  refine ⟨?_, by rw [hm]; exact hmapped⟩
  simp only [isrPageFault, demandHandle, hcode, hp, hdir, and_pageMask, hm, ne_eq, not_true_eq_false, if_false,
    if_true]

lemma vmmCowHandle_plain {vm : Vm} {d code : Word}
    (h : ∀ e, pteAt vm.mem (frameOf d) (dirIndex va) (tabIndex va) = some e → isCow e = false) :
    vmmCowHandle vm d va code = (vm, false) := by
  rw [vmmCowHandle]
  split
  · rfl
  dsimp only
  split
  · rfl
  · rename_i hp
    rw [Bool.not_eq_true', Bool.not_eq_false] at hp
    rw [if_pos]
    rw [Bool.or_eq_true, Bool.not_eq_true', Bool.not_eq_true', or_iff_not_imp_left, Bool.not_eq_false]
    intro hpe
    refine h _ ?_
    rw [pteAt, if_pos hp, if_pos hpe]

lemma isrPageFault_unserved {vm' : Vm} {code : Word} (hal : Aligned u.cr3)
    (hdem : demandHandle u va code = ({ u with vm := vm' }, false))
    (habs : pteAt vm'.mem u.cr3 (dirIndex va) (tabIndex va) = none) :
    isrPageFault u va code = ({ u with vm := vm' }, false) := by
  rw [isrPageFault, hdem]
  dsimp only
  rw [if_neg Bool.false_ne_true, vmmCowHandle_plain]
  intro e he
  rw [hal] at he
  cases habs.symm.trans he

lemma isrPageFault_absent (write user : Bool) (h : u.Ok k) (hv : privateBase ≤ va) (habs : u.pte va = none)
    (hmap : u.MapsSucceed va) :
    (isrPageFault u va (accessCode write user) = (u, false) ∧
      promised u.demand (frameOf u.cr3) va = none) ∨
    promised u.demand (frameOf u.cr3) va ≠ none ∧
      ∃ u', isrPageFault u va (accessCode write user) = (u', true) ∧ Accessed k u u' ∧
        ∃ e, u'.pte va = some e := by
  have hcode := accessCode_absent write user
  cases hp : promised u.demand (frameOf u.cr3) va with
  | none =>
    have hdem : demandHandle u va (accessCode write user) = (u, false) := by
      rw [demandHandle, if_neg (not_not.mpr hcode), hp]
    exact Or.inl ⟨isrPageFault_unserved (h.sound.space_aligned h.loaded) hdem habs, rfl⟩
  | some r =>
    obtain ⟨hf, hmapped⟩ := isrPageFault_served write user h hv habs hp (hmap habs r hp)
    refine Or.inr ⟨by simp, _, hf, ⟨hmapped.sound, hmapped.dirs, hmapped.total, rfl, rfl⟩, ?_⟩
    have hview := hmapped.pages _ _ _ (page_ref h.loaded hv)
    rw [dirIndex_frameOf, tabIndex_frameOf, if_pos ⟨rfl, rfl, rfl⟩] at hview
    exact Option.ne_none_iff_exists'.mp fun hn => by
      rw [pageView_none hn] at hview
      cases hview

lemma isrPageFault_protection {code : Word} (hcode : code &&& 0x1 ≠ 0) : isrPageFault u va code =
    ({ u with vm := (vmmCowHandle u.vm u.cr3 va code).1 }, (vmmCowHandle u.vm u.cr3 va code).2) := by
  rw [isrPageFault, demandHandle, if_pos hcode]
  rfl

lemma isrPageFault_present (write user : Bool) (h : u.Ok k) (hv : privateBase ≤ va) :
    (isrPageFault u va (accessCode write user ||| 0x1) = (u, false) ∧ (write = false ∨
      Exhausted k u.vm ∨ ∀ e, u.pte va = some e → isCow e = false)) ∨
    write = true ∧ ∃ vm', isrPageFault u va (accessCode write user ||| 0x1) =
      ({ u with vm := vm' }, true) ∧ Resolved k u.vm vm' u.cr3 va := by
  rw [isrPageFault_protection (accessCode_present write user)]
  rcases h.sound.cowHandle (accessCode write user ||| 0x1) h.loaded hv with
    ⟨hc, hwhy⟩ | ⟨hw, vm', hc, hr⟩
  · rw [accessCode_write] at hwhy
    exact Or.inl ⟨by rw [hc], hwhy⟩
  · rw [ne_eq, accessCode_write, Bool.not_eq_false] at hw
    exact Or.inr ⟨hw, vm', by rw [hc], hr⟩

lemma isrPageFault_plain (write user : Bool) {e : Word} (hal : Aligned u.cr3) (he : u.pte va = some e)
    (hc : isCow e = false) : isrPageFault u va (accessCode write user ||| 0x1) = (u, false) := by
  rw [isrPageFault_protection (accessCode_present write user), vmmCowHandle_plain]
  intro e' he'
  rw [hal] at he'
  rwa [← Option.some.inj (he.symm.trans he')]

lemma accessWith_ok {n : ℕ} {e : Word} (hw : walk u.vm.mem u.cr3 va write user = .ok e) :
    accessWith (n + 1) u va write user = (u, some e) := by
  simp only [accessWith, hw]

lemma accessWith_refused {n : ℕ} {code : Word} (hw : walk u.vm.mem u.cr3 va write user = .error code)
    (hf : isrPageFault u va code = (u', false)) : accessWith (n + 1) u va write user = (u', none) := by
  simp only [accessWith, hw, hf, Bool.false_eq_true, if_false]

lemma accessWith_again {n : ℕ} {code : Word} (hw : walk u.vm.mem u.cr3 va write user = .error code)
    (hf : isrPageFault u va code = (u', true)) :
    accessWith (n + 1) u va write user = accessWith n u' va write user := by
  simp only [accessWith, hw, hf, if_true]

lemma accessWith_accessed (write user : Bool) (n : ℕ) (h : u.Ok k) (hv : privateBase ≤ va)
    (hmap : u.MapsSucceed va) :
    Accessed k u (accessWith n u va write user).1 := by
  induction n generalizing u with
  | zero => exact Accessed.refl h.sound
  | succ n ih =>
    have hal := h.sound.space_aligned h.loaded
    cases hp : u.pte va with
    | none =>
      rcases isrPageFault_absent write user h hv hp hmap with
        ⟨hf, _⟩ | ⟨_, u', hf, hacc, e, he⟩
      · rw [accessWith_refused (walk_absent hal hp) hf]
        exact Accessed.refl h.sound
      · rw [accessWith_again (walk_absent hal hp) hf]
        exact hacc.trans (ih (hacc.ok h) (fun hn => absurd (hn.symm.trans he) (by simp)))
    | some e =>
      have hw := walk_present write user hal hp
      split at hw
      · rw [accessWith_ok hw]
        exact Accessed.refl h.sound
      · rcases isrPageFault_present write user h hv with
          ⟨hf, _⟩ | ⟨_, vm', hf, hr⟩
        · rw [accessWith_refused hw hf]
          exact Accessed.refl h.sound
        · rw [accessWith_again hw hf]
          have hacc : Accessed k u { u with vm := vm' } := ⟨hr.sound, hr.dirs, hr.total, rfl, rfl⟩
          obtain ⟨e', he', _⟩ := hr.writable
          exact hacc.trans (ih (hacc.ok h) (fun hn => absurd (hn.symm.trans he') (by simp)))

lemma accessWith_walk (n : ℕ) {e : Word} (he : accessWith n u va write user = (u', some e)) :
    walk u'.vm.mem u'.cr3 va write user = .ok e := by
  induction n generalizing u with
  | zero => cases he
  | succ n ih =>
    rw [accessWith] at he
    split at he
    · rename_i e' hw
      cases he
      exact hw
    · rename_i code _
      rcases hf : isrPageFault u va code with ⟨u₁, again⟩
      rw [hf] at he
      cases again with
      | false => simp at he
      | true => exact ih he

lemma loadByte_accessed (h : u.Ok k) (hv : privateBase ≤ va) (hmap : u.MapsSucceed va) :
    Accessed k u (loadByte u va user).1 := by
  have hacc := accessWith_accessed false user 3 h hv hmap
  rcases ha : access u va false user with ⟨u', r⟩
  rw [← access, ha] at hacc
  rw [loadByte, ha]
  cases r <;> exact hacc

lemma storeByte_accessed (h : u.Ok k) (hv : privateBase ≤ va) (hmap : u.MapsSucceed va) (b : Byte) :
    Accessed k u (storeByte u va b user).1 := by
  have hacc := accessWith_accessed true user 3 h hv hmap
  rcases ha : access u va true user with ⟨u', r⟩
  rw [← access, ha] at hacc
  rw [storeByte, ha]
  cases r with
  | none => exact hacc
  | some e =>
    have hok := hacc.ok h
    obtain ⟨hpte, hperm⟩ := walk_ok (hok.sound.space_aligned hok.loaded) (accessWith_walk 3 ha)
    have hw : isWritable e = true := by
      simp only [permits, Bool.not_true, Bool.false_or, Bool.and_eq_true] at hperm
      exact hperm.2.2
    have hst := hok.sound.store (i := wordIndex va)
      (w := withByte (u'.vm.mem (frameOf e) (wordIndex va)) (byteIndex va) b) hok.loaded hv hpte hw
    exact hacc.trans ⟨hst.sound, rfl, rfl, rfl, rfl⟩

/-! ### The region table -/

lemma isrPageFault_regions (u : Mmu) (addr err : Word) :
    (isrPageFault u addr err).1.demand.regions = u.demand.regions ∧
      (demandHandle u addr err).1.demand.regions = u.demand.regions := by
  have hd : (demandHandle u addr err).1.demand.regions = u.demand.regions := by
    rw [demandHandle]
    split
    · rfl
    · cases promised u.demand (frameOf u.cr3) addr with
      | none => rfl
      | some r =>
        dsimp only
        split <;> rfl
  refine ⟨?_, hd⟩
  rw [isrPageFault]
  generalize demandHandle u addr err = r at hd ⊢
  obtain ⟨u', served⟩ := r
  cases served <;> exact hd

lemma accessWith_regions (va : Word) (n : ℕ) (write user : Bool) :
    (accessWith n u va write user).1.demand.regions = u.demand.regions := by
  induction n generalizing u with
  | zero => rfl
  | succ n ih =>
    rw [accessWith]
    cases walk u.vm.mem u.cr3 va write user with
    | ok e => rfl
    | error code =>
      have hf := (isrPageFault_regions u va code).1
      dsimp only
      generalize isrPageFault u va code = r at hf ⊢
      obtain ⟨u', again⟩ := r
      cases again with
      | false => exact hf
      | true => exact ih.trans hf

lemma loadByte_regions (va : Word) (user : Bool) : (loadByte u va user).1.demand.regions = u.demand.regions := by
  have ha : (accessWith 3 u va false user).1.demand.regions = u.demand.regions := accessWith_regions va 3 false user
  rw [loadByte, access]
  generalize accessWith 3 u va false user = r at ha ⊢
  obtain ⟨u', _ | e⟩ := r <;> exact ha

lemma storeByte_regions (va : Word) (b : Byte) (user : Bool) :
    (storeByte u va b user).1.demand.regions = u.demand.regions := by
  have ha : (accessWith 3 u va true user).1.demand.regions = u.demand.regions := accessWith_regions va 3 true user
  rw [storeByte, access]
  generalize accessWith 3 u va true user = r at ha ⊢
  obtain ⟨u', _ | e⟩ := r <;> exact ha

end handlers

end PyroOS
