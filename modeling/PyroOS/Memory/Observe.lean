import PyroOS.Memory.Fault

/-! What loads and stores show of an address space depends on its view alone. -/

namespace PyroOS

open Sharing

variable {k : BootDir} {u u' : Mmu} {vm vm' : Vm} {va d : Word} {write user : Bool} {m m' : PhysMem}

abbrev PageView := Option (Word × Word × (ℕ → Word))

/-- A write is allowed by the view when it is allowed once a copy-on-write fault has been resolved. -/
def viewPermits (v : PageView) (write user : Bool) : Bool :=
  match v with
  | none => false
  | some (pde, pte, _) => permits pde pte write user

def Mmu.view (u : Mmu) (va : Word) : PageView := pageView u.vm.mem u.cr3 (dirIndex va) (tabIndex va)

def viewByte (v : PageView) (va : Word) (user : Bool) : Option Byte :=
  if viewPermits v false user then v.map fun w => byteOf (w.2.2 (wordIndex va)) (byteIndex va) else none

def Mmu.Unpromised (u : Mmu) : Prop := ∀ i, (u.demand.regions i).active = false

lemma Mmu.Unpromised.none (h : u.Unpromised) (current addr : Word) : promised u.demand current addr = none := by
  rw [promised, Option.map_eq_none_iff, List.find?_eq_none]
  intro i _
  simp [h i]

lemma Mmu.Unpromised.maps (h : u.Unpromised) (va : Word) : u.MapsSucceed va := by
  intro _ r hr
  rw [h.none] at hr
  cases hr

lemma isUser_flagsOf (e : Word) : isUser (flagsOf e) = isUser e := by
  rw [isUser_bit, isUser_bit, flagsOf_bit]
  rfl

lemma isWritable_flagsOf (e : Word) : isWritable (flagsOf e) = isWritable e := by
  rw [isWritable_bit, isWritable_bit, flagsOf_bit]
  rfl

lemma isUser_settledFlags (e : Word) : isUser (settledFlags e) = isUser e := by
  rw [isUser_bit, isUser_bit, settledFlags_bit e (by omega)]
  cases e.getLsbD 2 <;> cases e.getLsbD 9 <;> rfl

lemma isWritable_settledFlags (e : Word) : isWritable (settledFlags e) = (isWritable e || isCow e) := by
  rw [isWritable_bit, isWritable_bit, isCow_bit, settledFlags_bit e (by omega)]
  cases e.getLsbD 1 <;> cases e.getLsbD 9 <;> rfl

lemma permits_view (pde e : Word) (write user : Bool) :
    permits (flagsOf pde) (settledFlags e) write user =
      ((!user || isUser pde && isUser e) && (!write || isWritable pde && (isWritable e || isCow e))) := by
  rw [permits, isUser_flagsOf, isWritable_flagsOf, isUser_settledFlags, isWritable_settledFlags]

lemma permits_read (pde e : Word) (user : Bool) :
    permits (flagsOf pde) (settledFlags e) false user = permits pde e false user := by
  rw [permits_view, permits]
  rfl

lemma permits_of_view {pde e : Word} (h : permits pde e write user = true) :
    permits (flagsOf pde) (settledFlags e) write user = true := by
  rw [permits] at h
  rw [permits_view]
  cases write <;> cases user <;> simp_all

lemma Mmu.view_some {e : Word} (h : u.pte va = some e) : u.view va =
    some (flagsOf (u.vm.mem u.cr3 (dirIndex va)), settledFlags e, u.vm.mem (frameOf e)) :=
  pageView_some h

lemma Mmu.view_none (h : u.pte va = none) : u.view va = none := pageView_none h

/-! ### Loads -/

lemma isrPageFault_read (u : Mmu) (va : Word) (user : Bool) :
    isrPageFault u va (accessCode false user ||| 0x1) = (u, false) := by
  rw [isrPageFault_protection (accessCode_present false user), vmmCowHandle,
    if_pos ((accessCode_write false user).mpr rfl)]

lemma accessWith_read (n : ℕ) (user : Bool) (hal : Aligned u.cr3) (he : u.view va ≠ none) :
    accessWith (n + 1) u va false user = (u, if viewPermits (u.view va) false user then u.pte va else none) := by
  cases hp : u.pte va with
  | none => exact (he (Mmu.view_none hp)).elim
  | some e =>
    have hw := walk_present false user hal hp
    rw [Mmu.view_some hp, viewPermits, permits_read]
    split at hw
    · rename_i hperm
      rw [hperm]
      exact accessWith_ok hw
    · rename_i hperm
      rw [if_neg hperm]
      exact accessWith_refused hw (isrPageFault_read u va user)

lemma access_read (h : u.Ok k) (hp : u.Unpromised) (hv : privateBase ≤ va) :
    access u va false user = (u, if viewPermits (u.view va) false user then u.pte va else none) := by
  have hal := h.sound.space_aligned h.loaded
  cases he : u.pte va with
  | none =>
    rw [Mmu.view_none he]
    rcases isrPageFault_absent false user h hv he (hp.maps va) with
      ⟨hf, _⟩ | ⟨hpr, _⟩
    · exact accessWith_refused (walk_absent hal he) hf
    · exact (hpr (hp.none _ _)).elim
  | some e =>
    rw [← he]
    exact accessWith_read 2 user hal (by rw [Mmu.view_some he]; simp)

lemma loadByte_of_access
    (ha : access u va false user = (u', if viewPermits (u'.view va) false user then u'.pte va else none)) :
    loadByte u va user = (u', viewByte (u'.view va) va user) := by
  rw [loadByte, ha]
  cases he : u'.pte va with
  | none =>
    rw [Mmu.view_none he]
    rfl
  | some e =>
    rw [Mmu.view_some he, viewByte]
    cases viewPermits (some (flagsOf (u'.vm.mem u'.cr3 (dirIndex va)), settledFlags e,
      u'.vm.mem (frameOf e))) false user <;> rfl

lemma loadByte_eq (h : u.Ok k) (hp : u.Unpromised) (hv : privateBase ≤ va) :
    loadByte u va user = (u, viewByte (u.view va) va user) := loadByte_of_access (access_read h hp hv)

/-! ### Stores -/

lemma Invisible.trans {vm'' : Vm} (h : Invisible k vm vm') (h' : Invisible k vm' vm'') :
    Invisible k vm vm'' := by
  refine ⟨h'.sound, h'.dirs.trans h.dirs, h'.total.trans h.total, fun d hd => (h.same d hd).trans ?_⟩
  exact h'.same d (by rw [h.dirs]; exact hd)

lemma Invisible.ok (h : Invisible k u.vm vm') (hu : u.Ok k) : ({ u with vm := vm' } : Mmu).Ok k :=
  ⟨h.sound, by
    change u.cr3 ∈ spaces k vm'.dirs
    rw [h.dirs]
    exact hu.loaded⟩

lemma Invisible.view (h : Invisible k u.vm vm') (hu : u.Ok k) (hv : privateBase ≤ va) :
    ({ u with vm := vm' } : Mmu).view va = u.view va :=
  ((h.same u.cr3 hu.loaded (dirIndex va) (dirIndex_private hv) (dirIndex_lt va)).2 _ (tabIndex_lt va)).symm

lemma accessWith_forbidden (n : ℕ) (h : u.Ok k) (hv : privateBase ≤ va)
    (hp : u.view va = none → promised u.demand (frameOf u.cr3) va = none)
    (hno : viewPermits (u.view va) true user = false) :
    ∃ vm', accessWith n u va true user = ({ u with vm := vm' }, none) ∧ Invisible k u.vm vm' := by
  induction n generalizing u with
  | zero => exact ⟨u.vm, rfl, Invisible.refl h.sound⟩
  | succ n ih =>
    have hal := h.sound.space_aligned h.loaded
    cases he : u.pte va with
    | none =>
      have hnone := hp (Mmu.view_none he)
      rcases isrPageFault_absent true user h hv he (fun _ r hr => by rw [hnone] at hr; cases hr) with
        ⟨hf, _⟩ | ⟨hpr, _⟩
      · exact ⟨u.vm, accessWith_refused (walk_absent hal he) hf, Invisible.refl h.sound⟩
      · exact (hpr hnone).elim
    | some e =>
      have hw := walk_present true user hal he
      split at hw
      · rename_i hperm
        rw [Mmu.view_some he, viewPermits, permits_of_view hperm] at hno
        cases hno
      · rcases isrPageFault_present true user h hv with ⟨hf, _⟩ | ⟨_, vm', hf, hr⟩
        · exact ⟨u.vm, accessWith_refused hw hf, Invisible.refl h.sound⟩
        · have hview := hr.toInvisible.view h hv
          obtain ⟨vm'', hrec, hinv⟩ := ih (hr.toInvisible.ok h) (by rw [hview]; exact hp) (by rw [hview]; exact hno)
          exact ⟨vm'', (accessWith_again hw hf).trans hrec, hr.toInvisible.trans hinv⟩

lemma accessWith_allowed (n : ℕ) (h : u.Ok k) (hv : privateBase ≤ va)
    (hyes : viewPermits (u.view va) true user = true) :
    (accessWith (n + 2) u va true user = (u, none) ∧ Exhausted k u.vm) ∨
      ∃ vm' e, accessWith (n + 2) u va true user = ({ u with vm := vm' }, some e) ∧
        Invisible k u.vm vm' := by
  have hal := h.sound.space_aligned h.loaded
  cases he : u.pte va with
  | none =>
    rw [Mmu.view_none he] at hyes
    cases hyes
  | some e =>
    have hw := walk_present true user hal he
    split at hw
    · exact Or.inr ⟨u.vm, e, accessWith_ok hw, Invisible.refl h.sound⟩
    · rename_i hperm
      have hcow : isCow e = true := by
        rw [Mmu.view_some he, viewPermits, permits_view] at hyes
        rw [permits] at hperm
        cases hwe : isWritable e <;> cases hc : isCow e <;> simp_all
      rcases isrPageFault_present true user h hv with ⟨hf, hwhy⟩ | ⟨_, vm', hf, hr⟩
      · rcases hwhy with hh | hx | hnc
        · cases hh
        · exact Or.inl ⟨accessWith_refused hw hf, hx⟩
        · rw [hnc e he] at hcow
          cases hcow
      · obtain ⟨e', he', hwe'⟩ := hr.writable
        have hpte : ({ u with vm := vm' } : Mmu).pte va = some e' := he'
        have hok := hr.toInvisible.ok h
        have hw' := walk_present true user (hok.sound.space_aligned hok.loaded) he'
        rw [← hr.toInvisible.view h hv, Mmu.view_some hpte, viewPermits, permits_view] at hyes
        have hperm' : permits (vm'.mem u.cr3 (dirIndex va)) e' true user = true := by
          rw [permits]
          simp_all
        rw [if_pos hperm'] at hw'
        exact Or.inr ⟨vm', e', (accessWith_again hw hf).trans (accessWith_ok hw'), hr.toInvisible⟩

structure Written (k : BootDir) (u : Mmu) (vm' : Vm) (va : Word) (b : Byte) : Prop where
  sound : Sound k vm'
  dirs : vm'.dirs = u.vm.dirs
  total : vm'.pmm.totalFrames = u.vm.pmm.totalFrames
  tables : ∀ d ∈ spaces k u.vm.dirs, ∀ di, 2 ≤ di → di < 1024 →
    tableView vm'.mem d di = tableView u.vm.mem d di
  pages : ∀ d di ti, Ref.page d di ti ∈ refs k u.vm.dirs → pageView vm'.mem d di ti =
    if d = u.cr3 ∧ di = dirIndex va ∧ ti = tabIndex va
    then (pageView u.vm.mem d di ti).map fun v => (v.1, v.2.1, Function.update v.2.2 (wordIndex va)
      (withByte (v.2.2 (wordIndex va)) (byteIndex va) b))
    else pageView u.vm.mem d di ti

lemma storeByte_forbidden (h : u.Ok k) (hp : u.Unpromised) (hv : privateBase ≤ va) (b : Byte)
    (hno : viewPermits (u.view va) true user = false) :
    ∃ vm', storeByte u va b user = ({ u with vm := vm' }, false) ∧ Invisible k u.vm vm' := by
  obtain ⟨vm', ha, hinv⟩ := accessWith_forbidden 3 h hv (fun _ => hp.none _ _) hno
  exact ⟨vm', by rw [storeByte, access, ha], hinv⟩

lemma storeByte_allowed (h : u.Ok k) (hv : privateBase ≤ va) (b : Byte)
    (hyes : viewPermits (u.view va) true user = true) :
    (storeByte u va b user = (u, false) ∧ Exhausted k u.vm) ∨
      ∃ vm', storeByte u va b user = ({ u with vm := vm' }, true) ∧ Written k u vm' va b := by
  rcases accessWith_allowed 1 h hv hyes with ⟨ha, hx⟩ | ⟨vm₁, e, ha, hinv⟩
  · exact Or.inl ⟨by rw [storeByte, access, ha], hx⟩
  · have hok := hinv.ok h
    obtain ⟨hpte, hperm⟩ := walk_ok (hok.sound.space_aligned hok.loaded) (accessWith_walk _ ha)
    have hw : isWritable e = true := by
      simp only [permits, Bool.not_true, Bool.false_or, Bool.and_eq_true] at hperm
      exact hperm.2.2
    have hst := hok.sound.store (i := wordIndex va)
      (w := withByte (vm₁.mem (frameOf e) (wordIndex va)) (byteIndex va) b) hok.loaded hv hpte hw
    refine Or.inr ⟨_, by rw [storeByte, access, ha], hst.sound, hinv.dirs, hinv.total, ?_, ?_⟩
    · intro d hd di h₁ h₂
      rw [(hinv.same d hd di h₁ h₂).1]
      exact hst.tables d (by rw [hinv.dirs]; exact hd) di
    · intro d di ti hr
      obtain ⟨hd, h₁, h₂, h₃⟩ := page_mem_refs.mp hr
      have hpage := hst.pages d di ti (by rw [hinv.dirs]; exact hr)
      rw [(hinv.same d hd di h₁ h₂).2 ti h₃]
      refine hpage.trans ?_
      split
      · rename_i hcase
        obtain ⟨rfl, rfl, rfl⟩ := hcase
        rw [pageView_some hpte]
        rfl
      · rfl

lemma storeByte_refused {b : Byte} (h : u.Ok k) (hp : u.Unpromised) (hv : privateBase ≤ va)
    (hst : (storeByte u va b user).2 = false) :
    ∃ vm', storeByte u va b user = ({ u with vm := vm' }, false) ∧ Invisible k u.vm vm' := by
  cases hview : viewPermits (u.view va) true user with
  | false => exact storeByte_forbidden h hp hv b hview
  | true =>
    rcases storeByte_allowed h hv b hview with ⟨hs, _⟩ | ⟨vm', hs, _⟩
    · exact ⟨u.vm, hs, Invisible.refl h.sound⟩
    · rw [hs] at hst
      cases hst

lemma storeByte_unresolved {code : Word} (b : Byte) (hp : u.Unpromised)
    (hw : walk u.vm.mem u.cr3 va true user = .error code)
    (hc : (vmmCowHandle u.vm u.cr3 va code).2 = false) : (storeByte u va b user).2 = false := by
  have hd : demandHandle u va code = (u, false) := by
    rw [demandHandle, hp.none]
    split <;> rfl
  have hf : isrPageFault u va code = ({ u with vm := (vmmCowHandle u.vm u.cr3 va code).1 }, false) := by
    rw [isrPageFault, hd]
    exact Prod.ext rfl hc
  rw [storeByte, access, accessWith_refused hw hf]

lemma Sound.alloc_not_exhausted (h : Sound k vm) (ha : (pmmAlloc vm.pmm).2 ≠ 0) : ¬ Exhausted k vm := by
  intro hx
  rcases h.counts.alloc with ⟨he, _⟩ | ⟨p', a, _, _, hn, htot, hc⟩
  · rw [he] at ha
    exact ha rfl
  · obtain ⟨i, hi, rfl⟩ := hc.pool a (Multiset.mem_cons_self _ _)
    exact hn (hx i (htot ▸ hi))

lemma storeByte_eq (h : u.Ok k) (hp : u.Unpromised) (hv : privateBase ≤ va) (b : Byte)
    (hx : ¬ Exhausted k u.vm) : (storeByte u va b user).2 = viewPermits (u.view va) true user := by
  cases hview : viewPermits (u.view va) true user with
  | false =>
    obtain ⟨vm', hs, _⟩ := storeByte_forbidden h hp hv b hview
    rw [hs]
  | true =>
    rcases storeByte_allowed h hv b hview with ⟨_, hx'⟩ | ⟨vm', hs, _⟩
    · exact (hx hx').elim
    · rw [hs]

end PyroOS
