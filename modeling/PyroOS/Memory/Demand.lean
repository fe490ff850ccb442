import PyroOS.Memory.Observe

/-! Accesses to promised pages, while there are free frames. -/

namespace PyroOS

open Sharing

variable {k : BootDir} {u u' : Mmu} {vm vm' : Vm} {d va virt flags : Word} {write user : Bool} {r : Region}

def FreeFrames (p : Pmm) : Prop :=
  (pmmAlloc p).2 ≠ 0 ∧ (pmmAlloc (pmmAlloc p).1).2 ≠ 0 ∧ (pmmAlloc (pmmAlloc (pmmAlloc p).1).1).2 ≠ 0

instance (p : Pmm) : Decidable (FreeFrames p) := inferInstanceAs (Decidable (_ ∧ _ ∧ _))

def Mmu.on (u : Mmu) (d : Word) : Mmu := { u with cr3 := d }

def Mmu.promiseView (u : Mmu) (va : Word) : PageView :=
  (promised u.demand (frameOf u.cr3) va).map fun r =>
    ((tableView u.vm.mem u.cr3 (dirIndex va)).getD (tableFlags r.flags), settledFlags (pageFlags r.flags), fun _ => 0)

def Mmu.seen (u : Mmu) (va : Word) : PageView := (u.view va).or (u.promiseView va)

lemma Sound.mapAlloc_free (h : Sound k vm) (flags : Word) (hd : d ∈ spaces k vm.dirs) (hv : privateBase ≤ virt)
    (hfree : FreeFrames vm.pmm) : (vmmMapAlloc vm d virt flags).2 = 0 ∧
      (pmmAlloc (vmmMapAlloc vm d virt flags).1.pmm).2 ≠ 0 := by
  obtain ⟨hfree₁, hfree₂, hfree₃⟩ := hfree
  refine ⟨?_, ?_⟩
  · rcases vmmMapAlloc_cases flags h.layout hd hv h.booked.counts with ⟨-, hz⟩ | ⟨p, x, ha, -, -, -, -, -, hz, -⟩ |
      ⟨_, _, _, _, _, _, _, hm, -⟩
    · exact (hfree₁ hz).elim
    · rw [ha] at hfree₂
      exact (hfree₂ hz).elim
    · rw [hm]
  · rcases vmmMapAlloc_pmm vm d virt flags with hp | hp <;> rw [hp]
    · exact hfree₂
    · exact hfree₃

/-! ### Promises and the tables they make -/

/-- Both ends of every region are ends of pages, as `demand_region` leaves them. -/
def Demand.Paged (dm : Demand) : Prop :=
  ∀ i, (dm.regions i).active = true → Aligned (dm.regions i).start ∧ Aligned (dm.regions i).stop

/-- The page's table is there, or all regions would make it alike. -/
def Mmu.Steady (u : Mmu) (va : Word) : Prop :=
  tableView u.vm.mem u.cr3 (dirIndex va) ≠ none ∨
    ∀ i j, (u.demand.regions i).active = true → (u.demand.regions j).active = true →
      tableFlags (u.demand.regions i).flags = tableFlags (u.demand.regions j).flags

lemma aligned_bounds {a b : Word} (ha : Aligned a) (hb : Aligned b) (hva : frameOf va = frameOf virt) :
    (a ≤ va ↔ a ≤ virt) ∧ (va < b ↔ virt < b) := by
  have h₁ := congrArg BitVec.toNat ha
  have h₂ := congrArg BitVec.toNat hb
  have h₃ := congrArg BitVec.toNat hva
  simp only [frameOf_toNat] at h₁ h₂ h₃
  simp only [BitVec.le_def, BitVec.lt_def]
  omega

lemma Demand.Paged.promised {dm : Demand} (h : dm.Paged) (hva : frameOf va = frameOf virt) :
    PyroOS.promised dm d va = PyroOS.promised dm d virt := by
  rw [PyroOS.promised, PyroOS.promised]
  congr 2
  funext i
  cases hactive : (dm.regions i).active with
  | false => rfl
  | true =>
    obtain ⟨hstart, hstop⟩ := h i hactive
    have hb := aligned_bounds hstart hstop hva
    simp only [hb.1, hb.2]

lemma tableView_of_pageView {m : PhysMem} {di ti : ℕ} (h : pageView m d di ti ≠ none) : tableView m d di ≠ none := by
  rw [tableView]
  split
  · exact Option.some_ne_none _
  · rename_i habs
    rw [pageView, pteAt, if_neg habs] at h
    exact (h rfl).elim

lemma Mmu.steady_of_view (h : u.view va ≠ none) : u.Steady va := .inl (tableView_of_pageView h)

lemma Mmu.Steady.congr (h : u.Steady va) (hregions : u'.demand.regions = u.demand.regions)
    (htab : tableView u.vm.mem u.cr3 (dirIndex va) ≠ none → tableView u'.vm.mem u'.cr3 (dirIndex va) ≠ none) :
    u'.Steady va := by
  rw [Mmu.Steady, hregions]
  exact h.imp_left htab

lemma Mmu.promiseView_congr (hregions : u'.demand.regions = u.demand.regions) (hcr3 : u'.cr3 = u.cr3)
    (htab : ∀ r, promised u.demand (frameOf u.cr3) va = some r →
      (tableView u'.vm.mem u'.cr3 (dirIndex va)).getD (tableFlags r.flags) =
        (tableView u.vm.mem u.cr3 (dirIndex va)).getD (tableFlags r.flags)) : u'.promiseView va = u.promiseView va := by
  have hp : promised u'.demand (frameOf u'.cr3) va = promised u.demand (frameOf u.cr3) va := by
    rw [promised, promised, hregions, hcr3]
  rw [Mmu.promiseView, Mmu.promiseView, hp]
  cases hr : promised u.demand (frameOf u.cr3) va with
  | none => rfl
  | some r => rw [Option.map_some, Option.map_some, htab r hr]

/-- Loads add pages of zeros where they were promised, and change nothing else. What the pages look like does not
change either, except that a table is made for the first page that needs it. -/
structure Supplied (k : BootDir) (u u' : Mmu) : Prop extends Accessed k u u' where
  pages : ∀ d di ti, Ref.page d di ti ∈ refs k u.vm.dirs → pageView u.vm.mem d di ti ≠ none →
    pageView u'.vm.mem d di ti = pageView u.vm.mem d di ti
  seen : u.demand.Paged → ∀ d ∈ spaces k u.vm.dirs, ∀ va, privateBase ≤ va → (u.on d).Steady va →
    (u'.on d).Steady va ∧ (u'.on d).seen va = (u.on d).seen va

namespace Supplied

lemma refl (h : Sound k u.vm) : Supplied k u u :=
  ⟨.refl h, fun _ _ _ _ _ => rfl, fun _ _ _ _ _ hst => ⟨hst, rfl⟩⟩

lemma trans {u'' : Mmu} (h : Supplied k u u') (h' : Supplied k u' u'') : Supplied k u u'' := by
  refine ⟨h.toAccessed.trans h'.toAccessed, fun d di ti hr hp => ?_, fun hp d hd va hv hst => ?_⟩
  · have hold := h.pages d di ti hr hp
    rw [h'.pages d di ti (by rw [h.dirs]; exact hr) (by rw [hold]; exact hp), hold]
  · obtain ⟨hst', hseen⟩ := h.seen hp d hd va hv hst
    rw [← hseen]
    exact h'.seen (by rwa [Demand.Paged, h.regions]) d (by rwa [h.dirs]) va hv hst'

end Supplied

lemma Mapped.seen {r : Region} {dm : Demand} (hm : Mapped k u.vm vm' u.cr3 (frameOf va) r.flags fun _ => 0)
    (hp : promised u.demand (frameOf u.cr3) va = some r) (habs : u.view va = none)
    (hdm : dm.regions = u.demand.regions) (hpaged : u.demand.Paged) (hd : d ∈ spaces k u.vm.dirs)
    (hv : privateBase ≤ virt) (hst : (u.on d).Steady virt) :
    (Mmu.on ⟨vm', dm, u.cr3⟩ d).Steady virt ∧ (Mmu.on ⟨vm', dm, u.cr3⟩ d).seen virt = (u.on d).seen virt := by
  have htab := hm.tables d (dirIndex virt) (tab_of_page (page_ref hd hv))
  have hpage := hm.pages d (dirIndex virt) (tabIndex virt) (page_ref hd hv)
  simp only [dirIndex_frameOf, tabIndex_frameOf] at htab hpage
  have hprom : (Mmu.on ⟨vm', dm, u.cr3⟩ d).promiseView virt = (u.on d).promiseView virt := by
    refine Mmu.promiseView_congr hdm rfl fun r' hr' => ?_
    change (tableView vm'.mem d (dirIndex virt)).getD _ = (tableView u.vm.mem d (dirIndex virt)).getD _
    rw [htab]
    split
    · rename_i hsame
      obtain ⟨rfl, hdi⟩ := hsame
      rw [← hdi, Option.getD_some]
      rcases hst with hthere | halike
      · obtain ⟨e, he⟩ := Option.ne_none_iff_exists'.mp hthere
        change tableView u.vm.mem u.cr3 (dirIndex virt) = some e at he
        rw [he]
        rfl
      · obtain ⟨i, hi, hactive, -⟩ := promised_some hp
        obtain ⟨j, hj, hactive', -⟩ := promised_some hr'
        have hflags := halike i j (by change (u.demand.regions i).active = true; rw [hi]; exact hactive)
          (by rw [hj]; exact hactive')
        rw [show (u.on u.cr3).demand.regions i = r from hi, hj] at hflags
        rw [hflags]
    · rfl
  refine ⟨hst.congr hdm fun hthere => ?_, ?_⟩
  · change tableView vm'.mem d (dirIndex virt) ≠ none
    rw [htab]
    split
    · exact Option.some_ne_none _
    · exact hthere
  · rw [Mmu.seen, Mmu.seen, hprom]
    by_cases hsame : d = u.cr3 ∧ dirIndex virt = dirIndex va ∧ tabIndex virt = tabIndex va
    · -- the page that has been filled in
      obtain ⟨rfl, hdi, hti⟩ := hsame
      rw [if_pos ⟨rfl, hdi, hti⟩] at hpage
      have hold : (u.on u.cr3).view virt = none := by
        rw [← habs, Mmu.view, Mmu.view, hdi, hti]
        rfl
      have hnew : (Mmu.on ⟨vm', dm, u.cr3⟩ u.cr3).view virt = (u.on u.cr3).promiseView virt := by
        have hfind : promised (u.on u.cr3).demand (frameOf (u.on u.cr3).cr3) virt = some r :=
          (hpaged.promised (frameOf_eq_of_index hdi hti)).trans hp
        rw [Mmu.promiseView, hfind, Option.map_some, hdi]
        exact hpage
      rw [hold, hnew]
      cases (u.on u.cr3).promiseView virt <;> rfl
    · rw [if_neg hsame] at hpage
      rw [show (Mmu.on ⟨vm', dm, u.cr3⟩ d).view virt = (u.on d).view virt from hpage]

structure Served (k : BootDir) (u u' : Mmu) (va : Word) : Prop extends Supplied k u u' where
  view : u'.view va = u.promiseView va
  fault : ∀ write user, isrPageFault u va (accessCode write user) = (u', true)

lemma Mmu.Ok.served (h : u.Ok k) (hv : privateBase ≤ va) (habs : u.view va = none)
    (hp : promised u.demand (frameOf u.cr3) va = some r)
    (hok : (vmmMapAlloc u.vm u.cr3 (frameOf va) r.flags).2 = 0) :
    Served k u ⟨(vmmMapAlloc u.vm u.cr3 (frameOf va) r.flags).1, ⟨u.demand.regions, u.demand.faultsServed + 1⟩, u.cr3⟩
      va := by
  have hpte : u.pte va = none := pageView_eq_none.mp habs
  have hdir : r.dir = u.cr3 := (promised_dir hp).trans (h.sound.space_aligned h.loaded)
  have hserve := fun write user => isrPageFault_served write user h hv hpte hp (by rw [hdir]; exact hok)
  have hm := (hserve false false).2
  have hpages := hm.pages
  simp only [dirIndex_frameOf, tabIndex_frameOf] at hpages
  refine ⟨⟨⟨hm.sound, hm.dirs, hm.total, rfl, rfl⟩, fun d di ti hr hsome => ?_,
    fun hpaged d hd virt hvirt hst => hm.seen hp habs rfl hpaged hd hvirt hst⟩, ?_,
    fun write user => (hserve write user).1⟩
  · have hpage := hpages d di ti hr
    rw [if_neg] at hpage
    · exact hpage
    · rintro ⟨rfl, rfl, rfl⟩
      exact hsome habs
  · have hpage := hpages _ _ _ (page_ref h.loaded hv)
    rw [if_pos ⟨rfl, rfl, rfl⟩] at hpage
    rw [Mmu.promiseView, hp]
    exact hpage

lemma storeByte_snd (b : Byte) : (storeByte u va b user).2 = (access u va true user).2.isSome := by
  rw [storeByte]
  rcases access u va true user with ⟨u', _ | e⟩ <;> rfl

lemma accessWith_unpromised (n : ℕ) (h : u.Ok k) (hv : privateBase ≤ va) (habs : u.view va = none)
    (hp : promised u.demand (frameOf u.cr3) va = none) : accessWith (n + 1) u va write user = (u, none) := by
  have hpte : u.pte va = none := pageView_eq_none.mp habs
  rcases isrPageFault_absent write user h hv hpte (fun _ r hr => by rw [hp] at hr; cases hr) with ⟨hf, _⟩ | ⟨hne, _⟩
  · exact accessWith_refused (walk_absent (h.sound.space_aligned h.loaded) hpte) hf
  · exact (hne hp).elim

lemma Served.access (write user : Bool) (hs : Served k u u' va) (h : u.Ok k) (habs : u.view va = none) :
    access u va write user = accessWith 2 u' va write user :=
  accessWith_again (walk_absent (h.sound.space_aligned h.loaded) (pageView_eq_none.mp habs)) (hs.fault write user)

lemma Mmu.promiseView_some (hp : promised u.demand (frameOf u.cr3) va = some r) : u.promiseView va ≠ none := by
  rw [Mmu.promiseView, hp]
  exact Option.some_ne_none _

lemma Invisible.supplied (h : Invisible k u.vm vm') : Supplied k u { u with vm := vm' } := by
  refine ⟨⟨h.sound, h.dirs, h.total, rfl, rfl⟩, fun d di ti hr _ => ?_, fun _ d hd va hv hst => ?_⟩
  · obtain ⟨hd, h₁, h₂, h₃⟩ := page_mem_refs.mp hr
    exact ((h.same d hd di h₁ h₂).2 ti h₃).symm
  · have hsame := h.same d hd (dirIndex va) (dirIndex_private hv) (dirIndex_lt va)
    have htab : tableView vm'.mem d (dirIndex va) = tableView u.vm.mem d (dirIndex va) := hsame.1.symm
    have hview : (Mmu.on { u with vm := vm' } d).view va = (u.on d).view va := (hsame.2 _ (tabIndex_lt va)).symm
    have hprom : (Mmu.on { u with vm := vm' } d).promiseView va = (u.on d).promiseView va :=
      Mmu.promiseView_congr rfl rfl fun _ _ => congrArg (Option.getD · _) htab
    exact ⟨hst.congr rfl fun hthere => ne_of_eq_of_ne htab hthere, by rw [Mmu.seen, Mmu.seen, hview, hprom]⟩

lemma accessWith_supplied (write user : Bool) (n : ℕ) (h : u.Ok k) (hv : privateBase ≤ va) (hmap : u.MapsSucceed va) :
    Supplied k u (accessWith n u va write user).1 := by
  induction n generalizing u with
  | zero => exact .refl h.sound
  | succ n ih =>
    have hal := h.sound.space_aligned h.loaded
    cases hpte : u.pte va with
    | none =>
      cases hp : promised u.demand (frameOf u.cr3) va with
      | none =>
        rw [accessWith_unpromised n h hv (Mmu.view_none hpte) hp]
        exact .refl h.sound
      | some r =>
        have hdir : r.dir = u.cr3 := (promised_dir hp).trans hal
        have hs := h.served hv (Mmu.view_none hpte) hp (by rw [← hdir]; exact hmap hpte r hp)
        rw [accessWith_again (walk_absent hal hpte) (hs.fault write user)]
        refine hs.toSupplied.trans (ih (hs.toAccessed.ok h) fun hnone => ?_)
        exact (Mmu.promiseView_some hp (hs.view.symm.trans (Mmu.view_none hnone))).elim
    | some e =>
      have hw := walk_present write user hal hpte
      split at hw
      · rw [accessWith_ok hw]
        exact .refl h.sound
      · rcases isrPageFault_present write user h hv with ⟨hf, _⟩ | ⟨_, vm', hf, hr⟩
        · rw [accessWith_refused hw hf]
          exact .refl h.sound
        · rw [accessWith_again hw hf]
          obtain ⟨e', he', _⟩ := hr.writable
          refine hr.toInvisible.supplied.trans (ih (hr.toInvisible.ok h) fun hnone => ?_)
          exact absurd (hnone.symm.trans he') (by simp)

def grant (v : PageView) : Option (Word × Word) := v.map fun w => (w.1, w.2.1)

lemma viewPermits_grant {v v' : PageView} (h : grant v = grant v') (write user : Bool) :
    viewPermits v write user = viewPermits v' write user := by
  rcases v with _ | ⟨pde, pte, page⟩ <;> rcases v' with _ | ⟨pde', pte', page'⟩ <;> cases h <;> rfl

lemma isSome_viewByte (va : Word) (v : PageView) : (viewByte v va user).isSome = viewPermits v false user := by
  rw [viewByte]
  rcases v with _ | v
  · rfl
  · cases viewPermits (some v) false user <;> rfl

lemma grant_or (v v' : PageView) : grant (v.or v') = (grant v).or (grant v') := by
  cases v <;> rfl

lemma Stored.grant {i : ℕ} {w : Word} (hs : Stored k u.vm vm' u.cr3 va i w) (hd : d ∈ spaces k u.vm.dirs)
    (hv : privateBase ≤ virt) (hst : (u.on d).Steady virt) : (Mmu.on { u with vm := vm' } d).Steady virt ∧
      PyroOS.grant ((Mmu.on { u with vm := vm' } d).seen virt) = PyroOS.grant ((u.on d).seen virt) := by
  have htab := hs.tables d hd (dirIndex virt)
  have hview : PyroOS.grant ((Mmu.on { u with vm := vm' } d).view virt) = PyroOS.grant ((u.on d).view virt) := by
    refine (congrArg PyroOS.grant (hs.pages d (dirIndex virt) (tabIndex virt) (page_ref hd hv))).trans ?_
    split
    · simp only [PyroOS.grant, Option.map_map]
      rfl
    · rfl
  have hprom : (Mmu.on { u with vm := vm' } d).promiseView virt = (u.on d).promiseView virt :=
    Mmu.promiseView_congr rfl rfl fun _ _ => congrArg (Option.getD · _) htab
  exact ⟨hst.congr rfl fun hthere => ne_of_eq_of_ne htab hthere,
    by rw [Mmu.seen, Mmu.seen, grant_or, grant_or, hview, hprom]⟩

lemma storeByte_grant (b : Byte) (user : Bool) (h : u.Ok k) (hv : privateBase ≤ va) (hmap : u.MapsSucceed va)
    (hpaged : u.demand.Paged) (hd : d ∈ spaces k u.vm.dirs) (hv' : privateBase ≤ virt) (hst : (u.on d).Steady virt) :
    ((storeByte u va b user).1.on d).Steady virt ∧
      grant (((storeByte u va b user).1.on d).seen virt) = grant ((u.on d).seen virt) := by
  have hs := accessWith_supplied true user 3 h hv hmap
  have hseen := hs.seen hpaged d hd virt hv' hst
  rw [storeByte, access]
  rcases ha : accessWith 3 u va true user with ⟨u', _ | e⟩
  · rw [ha] at hseen
    exact ⟨hseen.1, congrArg grant hseen.2⟩
  · rw [ha] at hs hseen
    have hok := hs.toAccessed.ok h
    obtain ⟨hpte, hperm⟩ := walk_ok (hok.sound.space_aligned hok.loaded) (accessWith_walk _ ha)
    have hw : isWritable e = true := by
      simp only [permits, Bool.not_true, Bool.false_or, Bool.and_eq_true] at hperm
      exact hperm.2.2
    have hstored := (hok.sound.store (i := wordIndex va)
      (w := withByte (u'.vm.mem (frameOf e) (wordIndex va)) (byteIndex va) b) hok.loaded hv hpte hw).grant
      (by rwa [hs.dirs]) hv' hseen.1
    exact ⟨hstored.1, hstored.2.trans (congrArg grant hseen.2)⟩

lemma loadByte_supplies (h : u.Ok k) (hv : privateBase ≤ va) (hmap : u.MapsSucceed va) :
    (loadByte u va user).2 = viewByte (u.seen va) va user ∧ Supplied k u (loadByte u va user).1 := by
  cases hview : u.view va with
  | some v =>
    have ha := loadByte_of_access (accessWith_read 2 user (h.sound.space_aligned h.loaded) (by rw [hview]; simp))
    rw [ha, Mmu.seen, hview]
    exact ⟨rfl, .refl h.sound⟩
  | none =>
    rw [Mmu.seen, hview, Option.none_or]
    cases hp : promised u.demand (frameOf u.cr3) va with
    | none =>
      rw [loadByte, access, accessWith_unpromised 2 h hv hview hp, Mmu.promiseView, hp]
      exact ⟨rfl, .refl h.sound⟩
    | some r =>
      have hdir : r.dir = u.cr3 := (promised_dir hp).trans (h.sound.space_aligned h.loaded)
      have hs := h.served hv hview hp (by rw [← hdir]; exact hmap (pageView_eq_none.mp hview) r hp)
      have ha := hs.access false user h hview
      have hok := hs.toAccessed.ok h
      rw [accessWith_read 1 user (hok.sound.space_aligned hok.loaded)
        (by rw [hs.view]; exact Mmu.promiseView_some hp)] at ha
      rw [loadByte_of_access ha, hs.view]
      exact ⟨rfl, hs.toSupplied⟩

lemma storeByte_seen (h : u.Ok k) (hv : privateBase ≤ va) (hfree : FreeFrames u.vm.pmm) (b : Byte) :
    (storeByte u va b user).2 = viewPermits (u.seen va) true user := by
  -- a page that is there, with a frame for a copy of it
  have hthere : ∀ (n : ℕ) (u : Mmu), u.Ok k → u.view va ≠ none → ¬ Exhausted k u.vm →
      (accessWith (n + 2) u va true user).2.isSome = viewPermits (u.view va) true user := by
    intro n u hu hne hx
    cases hperm : viewPermits (u.view va) true user with
    | false =>
      obtain ⟨vm', ha, _⟩ := accessWith_forbidden (n + 2) hu hv (fun hn => (hne hn).elim) hperm
      rw [ha]
      rfl
    | true =>
      rcases accessWith_allowed n hu hv hperm with ⟨_, hx'⟩ | ⟨vm', e, ha, _⟩
      · exact (hx hx').elim
      · rw [ha]
        rfl
  rw [storeByte_snd]
  cases hview : u.view va with
  | some v =>
    rw [Mmu.seen, hview, Option.some_or, ← hview]
    exact hthere 1 u h (by rw [hview]; simp) (h.sound.alloc_not_exhausted hfree.1)
  | none =>
    rw [Mmu.seen, hview, Option.none_or]
    cases hp : promised u.demand (frameOf u.cr3) va with
    | none =>
      rw [access, accessWith_unpromised 2 h hv hview hp, Mmu.promiseView, hp]
      rfl
    | some r =>
      obtain ⟨hok, hleft⟩ := h.sound.mapAlloc_free r.flags h.loaded (frameOf_private hv) hfree
      have hs := h.served hv hview hp hok
      rw [hs.access true user h hview, ← hs.view]
      exact hthere 0 _ (hs.toAccessed.ok h) (by rw [hs.view]; exact Mmu.promiseView_some hp)
        (hs.sound.alloc_not_exhausted hleft)

lemma Mmu.Ok.mapsSucceed (h : u.Ok k) (hv : privateBase ≤ va) (hfree : FreeFrames u.vm.pmm) : u.MapsSucceed va := by
  intro _ r hp
  rw [(promised_dir hp).trans (h.sound.space_aligned h.loaded)]
  exact (h.sound.mapAlloc_free r.flags h.loaded (frameOf_private hv) hfree).1

end PyroOS
