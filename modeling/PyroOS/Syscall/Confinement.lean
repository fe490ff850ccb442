import PyroOS.FileSystem.Write
import PyroOS.Syscall.Handler

/-! What system calls of a program may touch. -/

namespace PyroOS

open Interaction

structure Terminated (mem : Word → Byte) (p : Word) (n : ℕ) : Prop where
  start : 0x80000 ≤ p.toNat
  stop : p.toNat + n < 0x100000
  nul : mem (addr p n) = 0
  body : ∀ j < n, mem (addr p j) ≠ 0

def NameRead (mem : Word → Byte) (p a : Word) : Prop :=
  ∃ n, a = addr p n ∧ 0x80000 ≤ p.toNat ∧ p.toNat + n < 0x100000 ∧ ∀ j < n, mem (addr p j) ≠ 0

def Within (p : Word) (len : ℕ) (a : Word) : Prop :=
  ∃ j < len, a = addr p j ∧ 0x80000 ≤ p.toNat ∧ p.toNat + j < 0x100000

def Permitted (r : Frame) (mem : Word → Byte) (fs : Fs) : Req → Prop
  | .load a => (r.eax = sysWrite ∨ r.eax = sysFwrite ∨ r.eax = sysFread) ∧ NameRead mem r.ebx a ∨
    r.eax = sysFwrite ∧ Within r.ecx r.edx.toNat a
  | .store a _ => r.eax = sysFread ∧ ∃ i nm, (fs.dir i).used ≠ 0 ∧ CString mem r.ebx nm ∧
    Spells (fs.nameAt i) nm ∧ Within r.ecx (min r.edx.toNat (fs.dir i).size.toNat) a
  | _ => True

def Refused (r : Frame) (mem : Word → Byte) : Prop :=
  r.eax = sysWrite ∧ (∀ n, ¬ Terminated mem r.ebx n) ∨
    (r.eax = sysFwrite ∨ r.eax = sysFread) ∧
      ((∀ n, ¬ Terminated mem r.ebx n) ∨ ¬ inUserZone r.ecx r.edx)

/-- The call touches nothing else, whatever transfers fail, and does nothing if it is refused. -/
def Confined (r : Frame) (w : World) (st : KState) : Prop :=
  ∀ may, (syscallHandler r st).Meets (Transfer may) (Permitted r w.mem st.fs) (fun _ => True)
    (fun x t => Refused r w.mem → x = some (r.ret 0xFFFFFFFF, st) ∧ t = w) w

variable {may allowed : Req → Prop} {w : World} {p : Word} {n : ℕ} {r : Frame} {st : KState} {fs : Fs}
  {name data buf size : Word} {nm : List Byte} {mem : Word → Byte}

/-! ### Strings -/

lemma Terminated.unique {m : ℕ} (h : Terminated mem p n) (h' : Terminated mem p m) : n = m := by
  rcases lt_trichotomy n m with hlt | he | hlt
  · exact (h'.body n hlt h.nul).elim
  · exact he
  · exact (h.body m hlt h'.nul).elim

lemma Terminated.read (h : Terminated mem p n) {j : ℕ} (hj : j ≤ n) : NameRead mem p (addr p j) :=
  ⟨j, rfl, h.start, by have := h.stop; omega, fun k hk => h.body k (by omega)⟩

lemma Terminated.cstring (h : Terminated mem p n) :
    CString mem p ((List.range n).map fun j => mem (addr p j)) := by
  refine ⟨fun i hi => ?_, ?_⟩
  · rw [List.length_map, List.length_range] at hi
    simp only [List.getElem_map, List.getElem_range]
    exact ⟨trivial, h.body i hi⟩
  · rw [List.length_map, List.length_range]
    exact h.nul

lemma meets_userStringOk {good : World → Prop} {post : Bool → World → Prop} (hg : good w)
    (ha : ∀ a, NameRead w.mem p a → allowed (.load a))
    (hyes : ∀ n, Terminated w.mem p n → post true w) (hno : (∀ n, ¬ Terminated w.mem p n) → post false w) :
    (userStringOk p).Meets (Transfer may) allowed good post w := by
  rw [userStringOk]
  by_cases hz : inUserZone p 1
  · have hz' : 0x80000 ≤ p.toNat ∧ p.toNat + 1 ≤ 0x100000 := of_decide_eq_true hz
    rw [if_pos hz]
    refine Prog.meets_iterate
      (fun m i t => t = w ∧ m + i = 0x100000 - p.toNat ∧ ∀ j < i, w.mem (addr p j) ≠ 0)
      ?_ ?_ _ _ _ ⟨rfl, rfl, fun j hj => (Nat.not_lt_zero j hj).elim⟩
    · rintro m i t ⟨rfl, hm, hpre⟩
      refine Prog.Meets.bind (meets_load hg (ha _ ⟨i, rfl, hz'.1, by omega, hpre⟩) ?_)
      by_cases hc : t.mem (addr p i) = 0
      · rw [if_pos hc]
        exact ⟨hg, hyes i ⟨hz'.1, by omega, hc, hpre⟩⟩
      · rw [if_neg hc]
        refine ⟨hg, rfl, by omega, fun j hj => ?_⟩
        rcases Nat.lt_succ_iff_lt_or_eq.mp hj with hj | rfl
        · exact hpre j hj
        · exact hc
    · rintro i t ⟨rfl, hm, hpre⟩
      refine ⟨hg, hno fun n hn => ?_⟩
      have := hn.stop
      exact hpre n (by omega) hn.nul
  · rw [if_neg hz]
    refine ⟨hg, hno fun n hn => hz (decide_eq_true ⟨hn.start, ?_⟩)⟩
    have := hn.stop
    have h₁ : (1 : Word).toNat = 1 := rfl
    omega

lemma meets_kprint {post : Screen → World → Prop} (scr : Screen) (h : Terminated w.mem p n)
    (hv : ¬ InVideo (addr p n) ∨ n = 0) (ha : ∀ a, NameRead w.mem p a → allowed (.load a))
    (hpeek : ∀ a, allowed (.peek a)) (hpoke : ∀ a b, allowed (.poke a b)) (hp : ∀ scr' t, post scr' t) :
    (Kernel.kprint p scr).Meets (Transfer may) allowed (fun _ => True) post w := by
  have hstop := h.stop
  refine Prog.meets_iterate (fun m x t => m + x.1 = 2 ^ 32 ∧ x.1 ≤ n ∧ t.mem (addr p n) = 0) ?_ ?_ _ _ _
    ⟨Nat.add_zero _, Nat.zero_le n, h.nul⟩
  · rintro m x t ⟨hm, hx, hz⟩
    have hload := ha _ (h.read hx)
    refine Prog.Meets.bind (meets_load trivial hload ?_)
    by_cases hc : t.mem (addr p x.1) = 0
    · rw [if_pos hc]
      exact ⟨trivial, hp _ _⟩
    · rw [if_neg hc]
      have hlt : x.1 < n := lt_of_le_of_ne hx fun he => hc (he ▸ hz)
      have hout := hv.resolve_right (by omega)
      have hinv : VideoInv (fun _ => True) fun t => t.mem (addr p n) = 0 := by
        refine ⟨trivial, fun _ _ _ _ => trivial, fun t a b ht hin _ => ?_⟩
        rw [World.setMem_mem, Function.update_of_ne]
        · exact ht
        · rintro rfl
          exact hout hin
      refine Prog.Meets.bind (meets_load trivial hload (Prog.Meets.bind ?_))
      refine (meets_kprintChar hinv (fun _ _ => trivial) (fun a _ => hpeek a) (fun a b _ => hpoke a b) trivial
        trivial hz).mono fun scr' u _ hu => ⟨trivial, by dsimp only; omega, hlt, hu.1⟩
  · rintro x t ⟨hm, hx, _⟩
    omega

/-! ### Files -/

lemma meets_put_reads {i : Fin 16} {good : World → Prop} (hg : ∀ t, good t)
    (hload : ∀ j < size.toNat, allowed (.load (addr data j))) (hwrite : ∀ lba s, allowed (.ataWrite lba s)) :
    (fs.put i data size).Meets (Transfer may) allowed good (fun _ _ => True) w := by
  rw [Fs.put]
  have hsize := clamp_toNat size
  generalize (if slotSectors * 512 < size then slotSectors * 512 else size) = sz at hsize ⊢
  have hnsec := sectors_toNat (show sz.toNat ≤ 16384 by omega)
  refine Prog.Meets.bind (meets_writeSectors w.mem (fun _ t => t.mem = w.mem) (by omega) rfl
    (fun j hj => hload j (by omega)) ?_ ?_)
  · intro s t _ ht
    exact ⟨ht, hg _, hwrite _ _, hg _, ht, fun _ => ⟨hg _, trivial⟩⟩
  · intro t _
    exact ⟨hg _, Prog.Meets.bind (meets_ataWrite (hg _) (hwrite _ _) (hg _) ⟨hg _, trivial⟩
      fun _ => ⟨hg _, trivial⟩)⟩

lemma meets_fsWrite_reads {good : World → Prop} (hg : ∀ t, good t) (hs : CString w.mem name nm)
    (hlen : nm.length < 2 ^ 32) (hname : ∀ j ≤ nm.length, allowed (.load (addr name j)))
    (hload : ∀ j < size.toNat, allowed (.load (addr data j))) (hwrite : ∀ lba s, allowed (.ataWrite lba s)) :
    (fsWrite name data size fs).Meets (Transfer may) allowed good (fun _ _ => True) w := by
  refine Prog.Meets.bind (meets_find hs hlen (hg _) hname (fun i _ _ => meets_put_reads hg hload hwrite)
    fun _ => ?_)
  cases fs.firstFree with
  | none => exact ⟨hg _, trivial⟩
  | some i =>
    exact Prog.Meets.bind (meets_create hs (hg _) hname rfl (hwrite _ _) (hg _)
      (meets_put_reads hg hload hwrite) fun _ => meets_put_reads hg hload hwrite)

lemma meets_fsRead_stores {max : Word} {good : World → Prop} {post : ℤ × Option Word → World → Prop}
    (hg : ∀ t, good t) (hs : CString w.mem name nm)
    (hlen : nm.length < 2 ^ 32) (hmax : max.toNat + 511 < 2 ^ 32)
    (hname : ∀ j ≤ nm.length, allowed (.load (addr name j))) (hread : ∀ lba, allowed (.ataRead lba))
    (hstore : ∀ i, (fs.dir i).used ≠ 0 → Spells (fs.nameAt i) nm →
      ∀ j < min max.toNat (fs.dir i).size.toNat, ∀ b, allowed (.store (addr buf j) b))
    (hp : ∀ r t, (∀ x ∈ r.2, x.toNat ≤ max.toNat) → post r t) :
    (fsRead name buf max fs).Meets (Transfer may) allowed good post w := by
  refine Prog.Meets.bind (meets_find hs hlen (hg _) hname (fun i hi hsp => ?_) fun _ => ⟨hg _, hp _ _ nofun⟩)
  dsimp only
  have hmin : (if max < (fs.dir i).size then max else (fs.dir i).size).toNat =
      min max.toNat (fs.dir i).size.toNat := by
    split <;> rename_i h <;> rw [BitVec.lt_def] at h <;> omega
  generalize (if max < (fs.dir i).size then max else (fs.dir i).size) = sz at hmin ⊢
  refine Prog.Meets.bind (meets_readSectors (by omega) (sectorsOf_toNat _ (by omega)) (fun _ _ => hg _)
    (fun _ _ => hread _) (fun j hj b => hstore i hi hsp j (by omega) b) ⟨hg _, hp _ _ fun x hx => ?_⟩
    fun _ _ _ => ⟨hg _, hp _ _ nofun⟩)
  obtain rfl := Option.some.inj hx
  omega

/-! ### The handler -/

/-- The terminator is in video memory and something is printed before it is reached. -/
def Overprinted (r : Frame) (n : ℕ) : Prop :=
  r.eax = sysWrite ∧ 0x80000 ≤ r.ebx.toNat ∧ r.ebx.toNat + n < 0x100000 ∧ 0 < n ∧ InVideo (addr r.ebx n)

lemma meets_fileArgsOk {post : Bool → World → Prop} (ha : ∀ a, NameRead w.mem r.ebx a → allowed (.load a))
    (hyes : ∀ n, Terminated w.mem r.ebx n → inUserZone r.ecx r.edx → post true w)
    (hno : (∀ n, ¬ Terminated w.mem r.ebx n) ∨ ¬ inUserZone r.ecx r.edx → post false w) :
    (fileArgsOk r).Meets (Transfer may) allowed (fun _ => True) post w := by
  refine Prog.Meets.bind (meets_userStringOk trivial ha (fun n hn => ?_) fun hn => ?_)
  · by_cases hz : inUserZone r.ecx r.edx
    · rw [hz]
      exact ⟨trivial, hyes n hn hz⟩
    · rw [Bool.eq_false_iff.mpr hz]
      exact ⟨trivial, hno (Or.inr hz)⟩
  · rw [Bool.false_and]
    exact ⟨trivial, hno (Or.inl hn)⟩

abbrev Checked (r : Frame) (w : World) (st : KState) (x : Frame × KState) (t : World) : Prop :=
  Refused r w.mem → x = (r.ret 0xFFFFFFFF, st) ∧ t = w

lemma meets_sysWriteCall (hr : fromUser r) (he : r.eax = sysWrite)
    (hn : ∀ n, Terminated w.mem r.ebx n → ¬ Overprinted r n) :
    (sysWriteCall r st).Meets (Transfer may) (Permitted r w.mem st.fs) (fun _ => True) (Checked r w st) w := by
  have ha : ∀ a, NameRead w.mem r.ebx a → Permitted r w.mem st.fs (.load a) :=
    fun a h => Or.inl ⟨Or.inl he, h⟩
  rw [sysWriteCall, writeArgsOk, if_pos hr]
  refine Prog.Meets.bind (meets_userStringOk trivial ha (fun n ht => ?_) fun _ => ⟨trivial, fun _ => ⟨rfl, rfl⟩⟩)
  have hv : ¬ InVideo (addr r.ebx n) ∨ n = 0 := by
    by_contra hcon
    rw [not_or, not_not] at hcon
    exact hn n ht ⟨he, ht.start, ht.stop, Nat.pos_of_ne_zero hcon.2, hcon.1⟩
  refine Prog.Meets.bind (meets_kprint st.screen ht hv ha (fun _ => trivial) (fun _ _ => trivial)
    fun _ _ => ⟨trivial, fun hf => ?_⟩)
  rcases hf with ⟨_, hno⟩ | ⟨he' | he', _⟩
  · exact (hno n ht).elim
  · exact absurd (he.symm.trans he') (by decide)
  · exact absurd (he.symm.trans he') (by decide)

lemma not_refused (he : r.eax ≠ sysWrite) (ht : Terminated w.mem r.ebx n) (hz : inUserZone r.ecx r.edx) :
    ¬ Refused r w.mem := by
  rintro (⟨he', _⟩ | ⟨_, hno | hno⟩)
  · exact he he'
  · exact hno n ht
  · exact hno hz

lemma inUserZone_within (hz : inUserZone r.ecx r.edx) {j len : ℕ} (hlen : len ≤ r.edx.toNat) (hj : j < len) :
    Within r.ecx len (addr r.ecx j) := by
  have hz' : 0x80000 ≤ r.ecx.toNat ∧ r.ecx.toNat + r.edx.toNat ≤ 0x100000 := of_decide_eq_true hz
  exact ⟨j, hj, rfl, hz'.1, by omega⟩

lemma meets_sysFwriteCall (he : r.eax = sysFwrite) :
    (sysFwriteCall r st).Meets (Transfer may) (Permitted r w.mem st.fs) (fun _ => True) (Checked r w st) w := by
  have ha : ∀ a, NameRead w.mem r.ebx a → Permitted r w.mem st.fs (.load a) :=
    fun a h => Or.inl ⟨Or.inr (Or.inl he), h⟩
  refine Prog.Meets.bind (meets_fileArgsOk ha (fun n ht hz => ?_) fun _ => ⟨trivial, fun _ => ⟨rfl, rfl⟩⟩)
  have hstop := ht.stop
  refine Prog.Meets.bind ((meets_fsWrite_reads (fun _ => trivial) ht.cstring ?_ ?_ ?_ fun _ _ => trivial).mono
    fun x t _ _ => ⟨trivial, fun hf => (not_refused (by rw [he]; decide) ht hz hf).elim⟩)
  · rw [List.length_map, List.length_range]
    omega
  · intro j hj
    rw [List.length_map, List.length_range] at hj
    exact ha _ (ht.read hj)
  · exact fun j hj => Or.inr ⟨he, inUserZone_within hz le_rfl hj⟩

lemma meets_sysFreadCall (he : r.eax = sysFread) :
    (sysFreadCall r st).Meets (Transfer may) (Permitted r w.mem st.fs) (fun _ => True) (Checked r w st) w := by
  have ha : ∀ a, NameRead w.mem r.ebx a → Permitted r w.mem st.fs (.load a) :=
    fun a h => Or.inl ⟨Or.inr (Or.inr he), h⟩
  refine Prog.Meets.bind (meets_fileArgsOk ha (fun n ht hz => ?_) fun _ => ⟨trivial, fun _ => ⟨rfl, rfl⟩⟩)
  have hstop := ht.stop
  have hz' : 0x80000 ≤ r.ecx.toNat ∧ r.ecx.toNat + r.edx.toNat ≤ 0x100000 := of_decide_eq_true hz
  refine Prog.Meets.bind (meets_fsRead_stores (fun _ => trivial) ht.cstring ?_ (by omega) ?_
    (fun _ => trivial) ?_ fun x t _ => ⟨trivial, fun hf => (not_refused (by rw [he]; decide) ht hz hf).elim⟩)
  · rw [List.length_map, List.length_range]
    omega
  · intro j hj
    rw [List.length_map, List.length_range] at hj
    exact ha _ (ht.read hj)
  · intro i hi hsp j hj b
    exact ⟨he, i, _, hi, ht.cstring, hsp, inUserZone_within hz (min_le_left _ _) hj⟩

lemma refused_eax (h : Refused r w.mem) : r.eax = sysWrite ∨ r.eax = sysFwrite ∨ r.eax = sysFread := by
  rcases h with ⟨he, _⟩ | ⟨he, _⟩
  · exact Or.inl he
  · exact Or.inr he

lemma confined_of_terminated (hr : fromUser r) (hn : ∀ n, Terminated w.mem r.ebx n → ¬ Overprinted r n) :
    Confined r w st := by
  intro may
  have hlift : ∀ {q : Kernel (Frame × KState)},
      q.Meets (Transfer may) (Permitted r w.mem st.fs) (fun _ => True) (Checked r w st) w →
      Prog.Meets (Transfer may) (Permitted r w.mem st.fs) (fun _ => True)
        (fun x t => Refused r w.mem → x = some (r.ret 0xFFFFFFFF, st) ∧ t = w) (q >>= fun x => pure (some x)) w :=
    fun hq => Prog.Meets.bind (hq.mono fun x t _ hx =>
      ⟨trivial, fun hf => ⟨congrArg some (hx hf).1, (hx hf).2⟩⟩)
  by_cases h₀ : r.eax = sysWrite
  · rw [syscallHandler_write h₀]
    exact hlift (meets_sysWriteCall hr h₀ hn)
  by_cases h₆ : r.eax = sysFwrite
  · rw [syscallHandler_fwrite h₆]
    exact hlift (meets_sysFwriteCall h₆)
  by_cases h₇ : r.eax = sysFread
  · rw [syscallHandler_fread h₇]
    exact hlift (meets_sysFreadCall h₇)
  have hfree : ¬ Refused r w.mem := fun hf => by
    rcases refused_eax hf with h | h | h
    · exact h₀ h
    · exact h₆ h
    · exact h₇ h
  by_cases h₉ : r.eax = sysSbrk
  · rw [syscallHandler_sbrk h₉]
    exact ⟨trivial, fun hf => (hfree hf).elim⟩
  · refine ((meets_syscallHandler_other h₀ h₆ h₇ h₉).weaken (fun e he => ?_) fun _ h => h).mono
      fun x t _ _ hf => (hfree hf).elim
    cases e with
    | ticks | waitTicks | getchar => trivial
    | load | store | peek | poke | ataRead | ataWrite | hang => exact he.elim

/-! ### A terminator that is printed over -/

def litWorld (p : Word) (n : ℕ) : World where
  mem a := if a = addr p n then 0 else 0x41
  disk _ _ := 0
  clock := 0
  key := 0

lemma litWorld_terminated (h₁ : 0x80000 ≤ p.toNat) (h₂ : p.toNat + n < 0x100000) :
    Terminated (litWorld p n).mem p n := by
  refine ⟨h₁, h₂, if_pos rfl, fun j hj => ?_⟩
  have hne : addr p j ≠ addr p n := fun he => by
    have := addr_inj (by omega) (by omega) he
    omega
  change (if addr p j = addr p n then (0 : Byte) else 0x41) ≠ 0
  rw [if_neg hne]
  decide

def screenAt (a : Word) (h : InVideo a) : Screen where
  cursor := (a.toNat - 0xB8000) / 2
  color := 0x0F
  cursor_lt := by
    have hlt := h.2
    have hcells : screenCells = 2000 := rfl
    omega

def Lit (t : World) : Prop := ∀ a, t.mem a ≠ 0

lemma videoInv_lit : VideoInv (fun b => b ≠ 0) Lit := by
  refine ⟨by decide, fun t a ht _ => ht a, fun t a b ht _ hb x => ?_⟩
  rw [World.setMem_mem]
  by_cases hx : x = a
  · rw [hx, Function.update_self]
    exact hb
  · rw [Function.update_of_ne hx]
    exact ht x

lemma meets_first_char (hv : InVideo (addr p n)) :
    (Kernel.kprintChar (screenAt (addr p n) hv) 0x41).Meets (Transfer may) (fun _ => True) (fun _ => True)
      (fun scr t => Lit t ∧ scr.color = 0x0F) (litWorld p n) := by
  have hlo := hv.1
  rw [Kernel.kprintChar, if_neg (by decide), if_neg (by decide)]
  refine Prog.Meets.bind (Prog.Meets.bind (meets_poke trivial trivial trivial
    (meets_poke trivial trivial trivial ?_)))
  refine meets_scrollIfNeeded videoInv_lit (fun _ _ => trivial) (fun _ _ => trivial) (fun _ _ _ => trivial)
    (by decide) fun x => ?_
  have hcell : ∀ k : ℕ, (addr videoMemory k).toNat = (0xB8000 + k) % 2 ^ 32 := by
    intro k
    have hvid : videoMemory.toNat = 0xB8000 := rfl
    rw [addr, BitVec.toNat_add, BitVec.toNat_ofNat, hvid]
    omega
  rw [World.setMem_mem, World.setMem_mem]
  by_cases h₁ : x = addr videoMemory ((screenAt (addr p n) hv).cursor * 2 + 1)
  · rw [h₁, Function.update_self]
    change (0x0F : Byte) ≠ 0
    decide
  rw [Function.update_of_ne h₁]
  by_cases h₀ : x = addr videoMemory ((screenAt (addr p n) hv).cursor * 2)
  · rw [h₀, Function.update_self]
    decide
  rw [Function.update_of_ne h₀]
  have hx : x ≠ addr p n := by
    rintro rfl
    -- The terminator is the character or the attribute of the cell under the cursor.
    have hlt := (addr p n).isLt
    have hcur : (screenAt (addr p n) hv).cursor = ((addr p n).toNat - 0xB8000) / 2 := rfl
    rcases Nat.even_or_odd' ((addr p n).toNat - 0xB8000) with ⟨k, hk | hk⟩
    · exact h₀ (BitVec.eq_of_toNat_eq (by rw [hcell, hcur]; omega))
    · exact h₁ (BitVec.eq_of_toNat_eq (by rw [hcell, hcur]; omega))
  change (if x = addr p n then (0 : Byte) else 0x41) ≠ 0
  rw [if_neg hx]
  decide

lemma reaches_round {scr : Screen} {i m : ℕ} {t : World} {post : Screen → World → Prop}
    (hc : t.mem (addr p i) ≠ 0)
    (h : (Kernel.kprintChar scr (t.mem (addr p i))).Meets (Transfer fun _ => False) (fun _ => True)
      (fun _ => True) post t) :
    ∃ scr' u, Prog.Reaches (Transfer fun _ => False)
      (Prog.iterate (fun _ => hang) (Kernel.kprintRound p) (m + 1) (i, scr)) t
      (Prog.iterate (fun _ => hang) (Kernel.kprintRound p) m (i + 1, scr')) u ∧ post scr' u := by
  have hround : (Kernel.kprintRound p (i, scr)).Meets (Transfer fun _ => False) (fun _ => True) (fun _ => True)
      (fun r u => ∃ scr', r = .inl (i + 1, scr') ∧ post scr' u) t := by
    refine Prog.Meets.bind (meets_load trivial trivial ?_)
    rw [if_neg hc]
    refine Prog.Meets.bind (meets_load trivial trivial (Prog.Meets.bind (h.mono ?_)))
    exact fun scr' u _ hu => ⟨trivial, scr', rfl, hu⟩
  obtain ⟨_, u, hr, scr', rfl, hu⟩ := hround.returns
  exact ⟨scr', u, hr.bind .here, hu⟩

lemma reaches_rounds (k : ℕ) : ∀ {m i : ℕ} {scr : Screen} {t : World}, Lit t → scr.color = 0x0F →
    ∃ scr' u, Prog.Reaches (Transfer fun _ => False)
      (Prog.iterate (fun _ => hang) (Kernel.kprintRound p) (m + k) (i, scr)) t
      (Prog.iterate (fun _ => hang) (Kernel.kprintRound p) m (i + k, scr')) u ∧ Lit u := by
  induction k with
  | zero => exact fun ht _ => ⟨_, _, .here, ht⟩
  | succ k ih =>
    intro m i scr t ht hcol
    have hchar : (Kernel.kprintChar scr (t.mem (addr p i))).Meets (Transfer fun _ => False) (fun _ => True)
        (fun _ => True) (fun scr' u => Lit u ∧ scr'.color = scr.color) t :=
      meets_kprintChar videoInv_lit (fun _ _ => trivial) (fun _ _ => trivial) (fun _ _ _ => trivial) (ht _)
        (by rw [hcol]; decide) ht
    obtain ⟨scr₁, t₁, hr₁, ht₁, hcol₁⟩ := reaches_round (m := m + k) (ht _) hchar
    obtain ⟨scr₂, t₂, hr₂, ht₂⟩ := ih (m := m) (i := i + 1) ht₁ (hcol₁.trans hcol)
    refine ⟨scr₂, t₂, ?_, ht₂⟩
    rw [show i + (k + 1) = i + 1 + k by omega]
    exact hr₁.trans hr₂

lemma reaches_beyond (hv : InVideo (addr p n)) (hn : 0 < n) (hp : 0x80000 ≤ p.toNat)
    (hstop : p.toNat + n < 0x100000) : ∃ m scr t, Prog.Reaches (Transfer fun _ => False)
      (Kernel.kprint p (screenAt (addr p n) hv)) (litWorld p n)
      (Prog.iterate (fun _ => hang) (Kernel.kprintRound p) (m + 1) (n + 1, scr)) t := by
  obtain ⟨m, hm⟩ : ∃ m, 2 ^ 32 = m + 1 + n + 1 := ⟨2 ^ 32 - (n + 2), by omega⟩
  have hfirst : (litWorld p n).mem (addr p 0) = 0x41 := by
    refine if_neg fun he => ?_
    have := addr_inj (by omega) (by omega) he
    omega
  obtain ⟨scr₁, t₁, hr₁, ht₁, hcol⟩ := reaches_round (i := 0) (m := m + 1 + n)
    (by rw [hfirst]; decide) (by rw [hfirst]; exact meets_first_char hv)
  obtain ⟨scr₂, t₂, hr₂, _⟩ := reaches_rounds n (m := m + 1) (i := 0 + 1) ht₁ hcol
  refine ⟨m, scr₂, t₂, ?_⟩
  rw [Kernel.kprint, hm, show n + 1 = 0 + 1 + n by omega]
  exact hr₁.trans hr₂

lemma not_confined (hr : fromUser r) (h : Overprinted r n) (sys : Sys) (fs : Fs) (seed : Word) :
    ¬ Confined r (litWorld r.ebx n) ⟨screenAt (addr r.ebx n) h.2.2.2.2, sys, fs, seed⟩ := by
  obtain ⟨he, hlo, hhi, hn, hv⟩ := h
  intro hc
  have hmeets := hc fun _ => False
  have ht := litWorld_terminated hlo hhi
  rw [syscallHandler_write he, sysWriteCall, writeArgsOk, if_pos hr] at hmeets
  have hscan : (userStringOk r.ebx).Meets (Transfer fun _ => False) (fun _ => True) (fun _ => True)
      (fun b u => b = true ∧ litWorld r.ebx n = u) (litWorld r.ebx n) :=
    meets_userStringOk trivial (fun _ _ => trivial) (fun _ _ => ⟨rfl, rfl⟩) fun hno => (hno n ht).elim
  obtain ⟨_, _, hok, rfl, rfl⟩ := hscan.returns
  obtain ⟨m, scr, t, hprint⟩ := reaches_beyond hv hn hlo hhi
  have hload : Permitted r (litWorld r.ebx n).mem fs (.load (addr r.ebx (n + 1))) :=
    ((hmeets.first.then hok).first.reaches hprint).2.1
  rcases hload with ⟨_, n', he', hlo', hhi', hbody⟩ | ⟨he', _⟩
  · obtain rfl : n + 1 = n' := addr_inj (by omega) (by omega) he'
    exact hbody n (Nat.lt_succ_self n) ht.nul
  · exact absurd (he.symm.trans he') (by decide)

def sampleSys : Sys where
  mmu := ⟨⟨fun _ _ => 0, ⟨fun _ => false, fun _ => 0, 0, 0, 0⟩, []⟩, ⟨fun _ => ⟨0, 0, 0, 0, false⟩, 0⟩, 0⟩
  table _ := Proc.zero
  nextPid := 1
  currentIdx := 0

/-- Calls of a program are confined, unless a string is printed whose terminator is on the screen. -/
theorem syscall_confined_iff (r : Frame) (hr : fromUser r) :
    (∀ w st, (∀ n, ¬ Terminated w.mem r.ebx n) → Confined r w st) ∧
      ∀ n, (∀ w st, Terminated w.mem r.ebx n → Confined r w st) ↔ ¬ Overprinted r n := by
  refine ⟨fun w st hno => confined_of_terminated hr fun n hn => (hno n hn).elim, fun n => ⟨fun hc h => ?_, ?_⟩⟩
  · exact not_confined hr h sampleSys (.zeroed fun _ => 0) 0 (hc _ _ (litWorld_terminated h.2.1 h.2.2.1))
  · intro h w st hn
    refine confined_of_terminated hr fun n' hn' => ?_
    rwa [← hn.unique hn']

def sampleFrame : Frame := ⟨sysWrite, 0xB7FFF, 0, 0, 0x1B⟩

lemma sampleFrame_overprinted : Overprinted sampleFrame 1 := by
  refine ⟨rfl, by decide, by decide, by decide, by decide⟩

def sampleState : KState := ⟨screenAt 0xB8000 (by decide), sampleSys, .zeroed fun _ => 0, 0⟩

theorem syscall_confined_write : fromUser { sampleFrame with ebx := 0x90000 } ∧
    Terminated (litWorld 0x90000 1).mem 0x90000 1 ∧
    Confined { sampleFrame with ebx := 0x90000 } (litWorld 0x90000 1) sampleState := by
  have hterm : Terminated (litWorld 0x90000 1).mem 0x90000 1 := litWorld_terminated (by decide) (by decide)
  refine ⟨by decide, hterm, ?_⟩
  exact ((syscall_confined_iff { sampleFrame with ebx := 0x90000 } (by decide)).2 1).mpr
    (fun h => absurd h.2.2.2.2 (by decide)) _ _ hterm

theorem write_reads_beyond_terminator : fromUser sampleFrame ∧ Terminated (litWorld 0xB7FFF 1).mem 0xB7FFF 1 ∧
    ¬ Confined sampleFrame (litWorld 0xB7FFF 1) sampleState :=
  ⟨by decide, litWorld_terminated (by decide) (by decide),
    not_confined (by decide) sampleFrame_overprinted sampleSys (.zeroed fun _ => 0) 0⟩

end PyroOS
