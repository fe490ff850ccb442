import PyroOS.Library.Congruential
import PyroOS.Syscall.Sbrk

/-! The random numbers of `SYS_RAND` over whole histories of system calls. -/

namespace PyroOS

open Interaction

def randNext (s : Word) : Word := s * 1103515245 + 12345

def randValue (s : Word) : Word := (s >>> 16) &&& 0x7FFF

/-- System calls of any programs since boot, with anything that leaves the seed alone between them. The log has the state
after each call of `SYS_RAND` and the number that the caller got. -/
inductive RandRun (may : Req → Prop) : List (Word × Word) → KState → Prop
  | start {st : KState} : st.seed = 0 → RandRun may [] st
  | other {log : List (Word × Word)} {st st' : KState} : RandRun may log st → st'.seed = st.seed → RandRun may log st'
  | call {log : List (Word × Word)} {st st' : KState} {r r' : Frame} {w t : World} : RandRun may log st →
    Ends may (syscallHandler r st) w (some (r', st')) t →
    RandRun may (if r.eax = sysRand then log ++ [(st'.seed, r'.eax)] else log) st'

variable {may : Req → Prop} {log : List (Word × Word)} {st st' : KState} {r r' : Frame} {w t : World}

/-! ### One call -/

lemma syscallHandler_rand (h : r.eax = sysRand) : syscallHandler r st = randSeed st.seed >>= fun s =>
    pure (some (r.ret (randValue (randNext s)), { st with seed := randNext s })) := by
  rw [syscallHandler, h]
  rfl

lemma randSeed_result {s : Word} (h : Ends may (randSeed st.seed) w s t) : st.seed ≠ 0 → s = st.seed := by
  intro hne
  rw [randSeed, if_neg hne] at h
  cases h
  rfl

lemma handler_seed (h : Ends may (syscallHandler r st) w (some (r', st')) t) :
    (r.eax = sysRand ∧ (st.seed ≠ 0 → st'.seed = randNext st.seed) ∧ r'.eax = randValue st'.seed) ∨
      r.eax ≠ sysRand ∧ st'.seed = st.seed := by
  by_cases hrand : r.eax = sysRand
  · rw [syscallHandler_rand hrand] at h
    obtain ⟨s, u, hs, hy⟩ := Prog.Reaches.of_bind h
    cases hy
    exact .inl ⟨hrand, fun hne => by rw [randSeed_result hs hne], rfl⟩
  refine .inr ⟨hrand, ?_⟩
  have hchecked : ∀ {q : Kernel (Frame × KState)}, Ends may (q >>= fun x => pure (some x)) w (some (r', st')) t →
      ∃ u, Ends may q w (r', st') u := by
    intro q hq
    obtain ⟨x, u, hx, hy⟩ := Prog.Reaches.of_bind hq
    cases hy
    exact ⟨_, hx⟩
  rw [syscallHandler] at h
  split at h
  · obtain ⟨u, hx⟩ := hchecked h
    exact checked_result (P := fun y => y.2.seed = st.seed) (fun _ => rfl) rfl hx
  split at h
  · obtain ⟨x, u, -, hy⟩ := Prog.Reaches.of_bind h
    cases hy
    rfl
  split at h
  · cases h
    rfl
  split at h
  · cases h
    rfl
  split at h
  · cases h
  split at h
  · obtain ⟨x, u, -, hy⟩ := Prog.Reaches.of_bind h
    cases hy
    rfl
  split at h
  · obtain ⟨x, u, -, hy⟩ := Prog.Reaches.of_bind h
    obtain ⟨y, v, -, hz⟩ := Prog.Reaches.of_bind hy
    cases hz
    rfl
  split at h
  · obtain ⟨u, hx⟩ := hchecked h
    exact checked_result (P := fun y => y.2.seed = st.seed) (fun _ => rfl) rfl hx
  split at h
  · obtain ⟨u, hx⟩ := hchecked h
    exact checked_result (P := fun y => y.2.seed = st.seed) (fun _ => rfl) rfl hx
  · cases h
    rfl

/-! ### Histories -/

lemma randValue_toNat (s : Word) : (randValue s).toNat = s.toNat / 2 ^ 16 % 2 ^ 15 := by
  rw [randValue, BitVec.toNat_and, BitVec.toNat_ushiftRight, Nat.shiftRight_eq_div_pow]
  exact Nat.and_two_pow_sub_one_eq_mod _ 15

lemma card_value_le (v : Word) : (Finset.univ.filter fun s : Word => randValue s = v).card ≤ 2 ^ 17 := by
  have hcard := Finset.card_le_card_of_injOn (s := Finset.univ.filter fun s : Word => randValue s = v)
    (t := Finset.range (2 ^ 17)) (fun s => s.toNat % 2 ^ 16 + 2 ^ 16 * (s.toNat / 2 ^ 31)) (fun s _ => ?_) ?_
  · rwa [Finset.card_range] at hcard
  · have hlt := s.isLt
    simp only [Finset.coe_range, Set.mem_Iio]
    omega
  · intro s hs t ht h
    simp only [Finset.coe_filter, Finset.mem_univ, true_and, Set.mem_ofPred_eq] at hs ht
    have hvs := randValue_toNat s
    have hvt := randValue_toNat t
    rw [hs] at hvs
    rw [ht] at hvt
    dsimp only at h
    have hs' := s.isLt
    have ht' := t.isLt
    apply BitVec.eq_of_toNat_eq
    omega

structure RandLog (log : List (Word × Word)) (st : KState) : Prop where
  chain : log.IsChain fun x y => x.1 ≠ 0 → y.1 = randNext x.1
  last : log.getLast?.elim 0 Prod.fst = st.seed
  value : ∀ x ∈ log, x.2 = randValue x.1

lemma RandRun.drawn (h : RandRun may log st) : RandLog log st := by
  induction h with
  | start hseed => exact ⟨.nil, hseed.symm, fun x hx => (by cases hx)⟩
  | other _ hseed ih => exact ⟨ih.chain, ih.last.trans hseed.symm, ih.value⟩
  | @call log st st' r r' w t _ hcall ih =>
    obtain ⟨hrand, hnext, hvalue⟩ | ⟨hrand, hseed⟩ := handler_seed hcall
    · rw [if_pos hrand]
      refine ⟨?_, by rw [List.getLast?_concat]; rfl, fun x hx => ?_⟩
      · rw [List.isChain_append]
        refine ⟨ih.chain, List.isChain_singleton _, fun x hx y hy hne => ?_⟩
        obtain rfl := Option.some.inj hy
        have hlast := ih.last
        rw [show log.getLast? = some x from hx] at hlast
        rw [← show x.1 = st.seed from hlast] at hnext
        exact hnext hne
      · obtain hx | hx := List.mem_append.mp hx
        · exact ih.value x hx
        · rw [List.mem_singleton.mp hx]
          exact hvalue
    · rw [if_neg hrand]
      exact ⟨ih.chain, ih.last.trans hseed.symm, ih.value⟩

/-- Until the state is 0 and a new seed is taken from the timer, no state comes twice; so there are less than 2^32 numbers
before that, and none of them more than 2^17 times. -/
theorem rand_no_repeat (h : RandRun may log st) {l₁ l₂ l₃ : List (Word × Word)} (hlog : log = l₁ ++ l₂ ++ l₃)
    (hne : ∀ x ∈ l₂, x.1 ≠ 0) :
    (l₂.map Prod.fst).Nodup ∧ l₂.length < 2 ^ 32 ∧ ∀ v, (l₂.map Prod.snd).count v ≤ 2 ^ 17 := by
  obtain ⟨hchain, -, hvalue⟩ := h.drawn
  rw [hlog, List.isChain_append, List.isChain_append] at hchain
  have hstep : (l₂.map Prod.fst).IsChain fun s t => t = Congruential.step 32 1103515245 12345 s := by
    rw [List.isChain_map, List.isChain_iff_getElem]
    intro i hi
    exact List.isChain_iff_getElem.mp hchain.1.2.1 i hi (hne _ (List.getElem_mem _))
  obtain ⟨hnodup, hlen⟩ := Congruential.chain_nodup (t := 0) (by decide) (by decide) hstep fun h₀ => by
    obtain ⟨x, hx, hx₀⟩ := List.mem_map.mp h₀
    exact hne x hx hx₀
  rw [List.length_map] at hlen
  refine ⟨hnodup, hlen, fun v => ?_⟩
  have hsnd : l₂.map Prod.snd = (l₂.map Prod.fst).map randValue := by
    rw [List.map_map]
    exact List.map_congr_left fun x hx => hvalue x (by rw [hlog]; simp [hx])
  calc (l₂.map Prod.snd).count v = ((l₂.map Prod.fst).filter (randValue · = v)).toFinset.card := by
        rw [List.toFinset_card_of_nodup (hnodup.filter _), hsnd, List.count, List.countP_map,
          List.countP_eq_length_filter]
        rfl
    _ ≤ (Finset.univ.filter fun s : Word => randValue s = v).card := by
        refine Finset.card_le_card fun s hs => ?_
        rw [List.mem_toFinset, List.mem_filter, decide_eq_true_iff] at hs
        exact Finset.mem_filter.mpr ⟨Finset.mem_univ s, hs.2⟩
    _ ≤ 2 ^ 17 := card_value_le v

def sampleDraw : Frame := ⟨sysRand, 0, 0, 0, 0x1B⟩

theorem rand_no_repeat_two : ∃ st, RandRun (fun _ => False) [(1103527590, 16838), (2524885223, 5758)] st ∧
    ([1103527590, 2524885223] : List Word).Nodup := by
  have hfirst : Ends (fun _ => False) (syscallHandler sampleDraw sampleBegun) ⟨fun _ => 0, fun _ _ => 0, 0, 0⟩
      (some (sampleDraw.ret 16838, { sampleBegun with seed := 1103527590 })) ⟨fun _ => 0, fun _ _ => 0, 0, 0⟩ := by
    rw [syscallHandler_rand rfl]
    exact .ask (.done rfl) .here
  have hsecond : Ends (fun _ => False) (syscallHandler sampleDraw { sampleBegun with seed := 1103527590 })
      ⟨fun _ => 0, fun _ _ => 0, 0, 0⟩ (some (sampleDraw.ret 5758, { sampleBegun with seed := 2524885223 }))
      ⟨fun _ => 0, fun _ _ => 0, 0, 0⟩ := by
    rw [syscallHandler_rand rfl]
    exact .here
  have hrun : RandRun (fun _ => False) [(1103527590, 16838), (2524885223, 5758)]
      { sampleBegun with seed := 2524885223 } := ((RandRun.start rfl).call hfirst).call hsecond
  exact ⟨_, hrun, (@rand_no_repeat _ _ _ hrun [] [(1103527590, 16838), (2524885223, 5758)] [] rfl (by simp)).1⟩

end PyroOS
