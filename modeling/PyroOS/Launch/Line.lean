import PyroOS.Launch.Load
import PyroOS.Launch.Args

/-! `args_build` on a line in memory, and what a program can read from the block it leaves. -/

namespace PyroOS

open Interaction Kernel

def scanFrom (round : Word → Kernel (Word ⊕ Word)) (p : Word) : Kernel Word :=
  Prog.iterate (fun _ => hang) round (2 ^ 32) p

def skipSpaces : Word → Kernel Word := scanFrom fun p => do
  let c ← load p
  if c = 0x20 then pure (.inl (p + 1)) else pure (.inr p)

def skipWord : Word → Kernel Word := scanFrom fun p => do
  let c ← load p
  if c = 0 then pure (.inr p)
  else do
    let c ← load p
    if c ≠ 0x20 then pure (.inl (p + 1)) else pure (.inr p)

def splitLine : ℕ → Word → Kernel (List (Word × Word))
  | 0, p => do
    let _ ← load p
    pure []
  | n + 1, p => do
    let c ← load p
    if c = 0 then pure []
    else do
      let start ← skipSpaces p
      let c ← load start
      if c = 0 then pure []
      else do
        let stop ← skipWord start
        let rest ← splitLine n stop
        pure ((start, stop - start) :: rest)

def copyArgs (text : Word) : Word → List (Word × Word) → Kernel (List Word)
  | _, [] => pure []
  | off, arg :: args => do
    let dst := text + off
    memcpy dst arg.1 arg.2.toNat
    store (dst + arg.2) 0
    let slots ← copyArgs text (off + (arg.2 + 1)) args
    pure (dst :: slots)

/-- `args_build`, with the line read from memory. -/
def argsBuildAt (line stackTop : Word) : Kernel Word := do
  let args ← splitLine argMax line
  let argc : Word := BitVec.ofNat 32 args.length
  let total : Word := (args.map fun arg => arg.2 + 1).sum
  if argBytes < total then pure 0
  else do
    let text := (stackTop - total) &&& ~~~3
    let slots ← copyArgs text 0 args
    argsFrame text argc slots

/-! ### Words of a line -/

def wordsOf (line : List Byte) : List (List Byte) := (line.splitOnP (· = 0x20)).filter (· ≠ [])

variable {chars arg pre : List Byte} {args : List (List Byte)} {n : ℕ}

lemma wordsOf_space : wordsOf (0x20 :: chars) = wordsOf chars := by
  rw [wordsOf, List.splitOnP_cons_eq_if_modifyHead, if_pos (by decide)]
  rfl

lemma wordsOf_dropWhile (chars : List Byte) : wordsOf (chars.dropWhile (· = 0x20)) = wordsOf chars := by
  induction chars with
  | nil => rfl
  | cons c chars ih =>
    by_cases hc : c = 0x20
    · subst hc
      rw [List.dropWhile_cons_of_pos (by decide), ih, wordsOf_space]
    · rw [List.dropWhile_cons_of_neg (by simpa using hc)]

lemma wordsOf_run {rest : List Byte} (hne : arg ≠ []) (harg : ∀ c ∈ arg, c ≠ 0x20)
    (hrest : rest = [] ∨ ∃ tail, rest = 0x20 :: tail) : wordsOf (arg ++ rest) = arg :: wordsOf rest := by
  have hrun : ∀ c ∈ arg, decide (c = 0x20) = false := fun c hc => decide_eq_false (harg c hc)
  rcases hrest with rfl | ⟨tail, rfl⟩
  · rw [List.append_nil, wordsOf, List.splitOnP_eq_singleton hrun, List.filter_cons_of_pos (by simpa using hne)]
    rfl
  · rw [wordsOf_space, wordsOf, List.splitOnP_append_cons_of_forall_mem hrun _ (by decide),
      List.filter_cons_of_pos (by simpa using hne)]
    rfl

lemma dropWhile_head {p : Byte → Bool} {c : Byte} {tail : List Byte} (h : chars.dropWhile p = c :: tail) :
    p c = false := by
  have hne : chars.dropWhile p ≠ [] := by
    rw [h]
    exact List.cons_ne_nil _ _
  simpa only [h, List.head_cons] using List.head_dropWhile_not p hne

lemma takeWhile_agree {p q : Byte → Bool} (h : ∀ c ∈ chars, p c = q c) : chars.takeWhile p = chars.takeWhile q := by
  induction chars with
  | nil => rfl
  | cons c chars ih =>
    rw [List.takeWhile_cons, List.takeWhile_cons, h c List.mem_cons_self,
      ih fun x hx => h x (List.mem_cons_of_mem _ hx)]

lemma dropWhile_stop (chars : List Byte) : chars.dropWhile (· ≠ 0x20) = [] ∨
    ∃ tail, chars.dropWhile (· ≠ 0x20) = 0x20 :: tail := by
  cases hd : chars.dropWhile (· ≠ 0x20) with
  | nil => exact .inl rfl
  | cons c tail =>
    have hc : c = 0x20 := by simpa using dropWhile_head hd
    exact .inr ⟨tail, by rw [hc]⟩

lemma splitArgs_eq (n : ℕ) (chars : List Byte) : splitArgs n chars = (wordsOf chars).take n := by
  induction n generalizing chars with
  | zero => rfl
  | succ n ih =>
    rw [← wordsOf_dropWhile chars, splitArgs]
    cases hd : chars.dropWhile (· = 0x20) with
    | nil => rfl
    | cons c p =>
      have hc : c ≠ 0x20 := by simpa using dropWhile_head hd
      have hsplit := List.takeWhile_append_dropWhile (p := fun c : Byte => decide (c ≠ 0x20)) (l := c :: p)
      have hwords : wordsOf (c :: p) = (c :: p).takeWhile (· ≠ 0x20) :: wordsOf ((c :: p).dropWhile (· ≠ 0x20)) := by
        conv_lhs => rw [← hsplit]
        refine wordsOf_run ?_ (fun x hx => ?_) (dropWhile_stop _)
        · rw [List.takeWhile_cons_of_pos (by simpa using hc)]
          exact List.cons_ne_nil _ _
        · simpa using List.mem_takeWhile_imp hx
      dsimp only
      rw [hwords, List.take_succ_cons, ih]

/-! ### Rules -/

variable {may allowed : Req → Prop} {w : World} {p line text off top : Word}

lemma CString.byte {mem : Word → Byte} (h : CString mem p chars) {i : ℕ} (hi : i ≤ chars.length) :
    mem (addr p i) = chars.getD i 0 := by
  rcases Nat.lt_or_eq_of_le hi with hi | rfl
  · rw [List.getD_eq_getElem _ _ hi]
    exact (h.1 i hi).1
  · rw [List.getD_eq_default _ _ le_rfl]
    exact h.2

lemma CString.tail {mem : Word → Byte} (h : CString mem p (pre ++ chars)) : CString mem (addr p pre.length) chars := by
  refine ⟨fun i hi => ?_, ?_⟩
  · have hc := h.1 (pre.length + i) (by rw [List.length_append]; omega)
    rw [List.getElem_append_right (Nat.le_add_right _ _)] at hc
    simpa only [addr_addr, Nat.add_sub_cancel_left] using hc
  · have hz := h.2
    rw [List.length_append] at hz
    rw [addr_addr, hz]

lemma meets_scanFrom {round : Word → Kernel (Word ⊕ Word)} {more : Byte → Bool} {post : Word → World → Prop}
    (hmore : more 0 = false)
    (hround : ∀ i ≤ chars.length, (round (addr p i)).Meets (Transfer may) allowed (fun _ => True)
      (fun r t => r = (if more (chars.getD i 0) then .inl (addr p i + 1) else .inr (addr p i)) ∧ t = w) w)
    (hlen : chars.length < 2 ^ 32) (hp : post (addr p (chars.takeWhile more).length) w) :
    (scanFrom round p).Meets (Transfer may) allowed (fun _ => True) post w := by
  have hsplit := List.takeWhile_append_dropWhile (p := more) (l := chars)
  have hle : (chars.takeWhile more).length ≤ chars.length := (List.takeWhile_prefix _).length_le
  have hgo : ∀ i < (chars.takeWhile more).length, more (chars.getD i 0) = true := by
    intro i hi
    rw [← hsplit, List.getD_append _ _ _ _ hi, List.getD_eq_getElem _ _ hi]
    exact List.mem_takeWhile_imp (List.getElem_mem hi)
  have hstop : more (chars.getD (chars.takeWhile more).length 0) = false := by
    have hget : chars.getD (chars.takeWhile more).length 0 = (chars.dropWhile more).getD 0 0 := by
      conv_lhs => rw [← hsplit]
      rw [List.getD_append_right _ _ _ _ (by rw [hsplit]), hsplit, Nat.sub_self]
    rw [hget]
    cases hd : chars.dropWhile more with
    | nil => exact hmore
    | cons c tail => exact dropWhile_head hd
  refine Prog.meets_iterate (fun m q t => t = w ∧ ∃ i ≤ (chars.takeWhile more).length, q = addr p i ∧ m + i = 2 ^ 32)
    ?_ ?_ _ _ _ ⟨rfl, 0, Nat.zero_le _, (addr_zero p).symm, rfl⟩
  · rintro m q t ⟨rfl, i, hi, rfl, hm⟩
    refine (hround i (by omega)).mono ?_
    rintro r u _ ⟨rfl, rfl⟩
    rcases Nat.lt_or_eq_of_le hi with hlt | rfl
    · rw [if_pos (hgo i hlt)]
      exact ⟨rfl, i + 1, hlt, addr_addr p i 1, by omega⟩
    · rw [if_neg (by rw [hstop]; decide)]
      exact hp
  · rintro q t ⟨_, i, hi, _, hm⟩
    omega

section

variable (hs : CString w.mem p chars) (hlen : chars.length < 2 ^ 32)
  (ha : ∀ i ≤ chars.length, allowed (.load (addr p i)))
include hs hlen ha

lemma meets_skipSpaces {post : Word → World → Prop} (hp : post (addr p (chars.takeWhile (· = 0x20)).length) w) :
    (skipSpaces p).Meets (Transfer may) allowed (fun _ => True) post w := by
  refine meets_scanFrom (by decide) (fun i hi => Prog.Meets.bind (meets_load trivial (ha i hi) ?_)) hlen hp
  rw [hs.byte hi]
  by_cases hc : chars.getD i 0 = 0x20
  · rw [if_pos hc, if_pos (decide_eq_true hc)]
    exact ⟨trivial, rfl, rfl⟩
  · rw [if_neg hc, if_neg (by simpa using hc)]
    exact ⟨trivial, rfl, rfl⟩

lemma meets_skipWord {post : Word → World → Prop} (hp : post (addr p (chars.takeWhile (· ≠ 0x20)).length) w) :
    (skipWord p).Meets (Transfer may) allowed (fun _ => True) post w := by
  -- the terminator ends the loop, and no character of the string is one
  have htake : chars.takeWhile (fun c => decide (c ≠ 0) && decide (c ≠ 0x20)) = chars.takeWhile (· ≠ 0x20) := by
    refine takeWhile_agree fun c hc => ?_
    rw [decide_eq_true (hs.ne_zero c hc), Bool.true_and]
  rw [← htake] at hp
  refine meets_scanFrom (by decide) (fun i hi => Prog.Meets.bind (meets_load trivial (ha i hi) ?_)) hlen hp
  rw [hs.byte hi]
  by_cases hz : chars.getD i 0 = 0
  · rw [if_pos hz, hz]
    exact ⟨trivial, rfl, rfl⟩
  · rw [if_neg hz, decide_eq_true hz, Bool.true_and]
    refine Prog.Meets.bind (meets_load trivial (ha i hi) ?_)
    rw [hs.byte hi]
    by_cases hc : chars.getD i 0 = 0x20
    · rw [if_neg (not_not.mpr hc), if_neg (by simpa using hc)]
      exact ⟨trivial, rfl, rfl⟩
    · rw [if_pos hc, if_pos (by simpa using hc)]
      exact ⟨trivial, rfl, rfl⟩

end

def Denotes (line : Word) (chars : List Byte) (q : Word × Word) (arg : List Byte) : Prop :=
  ∃ pre post, chars = pre ++ arg ++ post ∧ q = (addr line pre.length, BitVec.ofNat 32 arg.length)

lemma Denotes.shift {q : Word × Word} (h : Denotes (addr line pre.length) chars q arg) :
    Denotes line (pre ++ chars) q arg := by
  obtain ⟨pre', post, rfl, rfl⟩ := h
  refine ⟨pre ++ pre', post, by simp only [List.append_assoc], ?_⟩
  rw [addr_addr, List.length_append]

lemma meets_splitLine {post : List (Word × Word) → World → Prop} (hs : CString w.mem p chars)
    (hlen : chars.length < 2 ^ 32) (ha : ∀ i ≤ chars.length, allowed (.load (addr p i)))
    (hp : ∀ qs, List.Forall₂ (Denotes p chars) qs (splitArgs n chars) → post qs w) :
    (splitLine n p).Meets (Transfer may) allowed (fun _ => True) post w := by
  have hfirst : ∀ {q : Word} {cs : List Byte}, CString w.mem q cs → (w.mem q = 0 ↔ cs = []) := by
    intro q cs h
    rw [← addr_zero q, h.byte (Nat.zero_le _)]
    cases cs with
    | nil => exact ⟨fun _ => rfl, fun _ => rfl⟩
    | cons c cs => exact ⟨fun hz => (h.ne_zero c List.mem_cons_self hz).elim, nofun⟩
  induction n generalizing p chars post with
  | zero => exact Prog.Meets.bind (meets_load trivial (by simpa only [addr_zero] using ha 0 (Nat.zero_le _))
      ⟨trivial, hp [] .nil⟩)
  | succ n ih =>
    refine Prog.Meets.bind (meets_load trivial (by simpa only [addr_zero] using ha 0 (Nat.zero_le _)) ?_)
    by_cases hnil : chars = []
    · rw [if_pos ((hfirst hs).mpr hnil)]
      subst hnil
      exact ⟨trivial, hp [] .nil⟩
    rw [if_neg (mt (hfirst hs).mp hnil)]
    refine Prog.Meets.bind (meets_skipSpaces hs hlen ha ?_)
    have hsplit := List.takeWhile_append_dropWhile (p := fun c : Byte => decide (c = 0x20)) (l := chars)
    generalize hsp : chars.takeWhile (· = 0x20) = spaces at hsplit
    generalize hd : chars.dropWhile (· = 0x20) = rest at hsplit
    subst hsplit
    have hrest := hs.tail
    have hbound : ∀ k i, k + i ≤ spaces.length + rest.length → allowed (.load (addr (addr p k) i)) := by
      intro k i hi
      rw [addr_addr]
      exact ha _ (by rw [List.length_append]; omega)
    rw [List.length_append] at hlen
    refine Prog.Meets.bind (meets_load trivial (by simpa only [addr_zero] using hbound spaces.length 0 (by omega)) ?_)
    rw [splitArgs, hd] at hp
    cases rest with
    | nil =>
      rw [if_pos ((hfirst hrest).mpr rfl)]
      exact ⟨trivial, hp [] .nil⟩
    | cons c cs =>
      rw [if_neg (mt (hfirst hrest).mp (List.cons_ne_nil _ _))]
      refine Prog.Meets.bind (meets_skipWord hrest (by omega) (fun i hi => hbound _ i (by omega)) ?_)
      have hsplit' := List.takeWhile_append_dropWhile (p := fun c : Byte => decide (c ≠ 0x20)) (l := c :: cs)
      dsimp only at hp
      generalize (c :: cs).takeWhile (· ≠ 0x20) = arg at hsplit' hp
      generalize (c :: cs).dropWhile (· ≠ 0x20) = tail at hsplit' hp
      rw [← hsplit'] at hrest hbound hlen hp
      rw [List.length_append] at hlen hbound
      have hlast := hrest.tail
      refine Prog.Meets.bind (ih hlast (by omega) (fun i hi => ?_) fun qs hqs => ⟨trivial, hp _ (.cons ?_ ?_)⟩)
      · rw [addr_addr]
        exact hbound _ _ (by omega)
      · refine ⟨spaces, tail, by rw [List.append_assoc], Prod.ext rfl ?_⟩
        exact (congrArg (· - addr p spaces.length) (add_comm _ _)).trans (BitVec.add_sub_cancel _ _)
      · rw [← List.append_assoc]
        rw [addr_addr, ← List.length_append] at hqs
        exact hqs.imp fun q arg h => h.shift

def TextApart (line : Word) (chars : List Byte) (dst : Word) (n : ℕ) : Prop :=
  ∀ j < chars.length, n ≤ (addr line j - dst).toNat

lemma meets_copyArgs {qs : List (Word × Word)} {post : List Word → World → Prop}
    (hq : List.Forall₂ (Denotes line chars) qs args) (hn : (argText args).length ≤ 2 ^ 32)
    (hlen : chars.length < 2 ^ 32) (hmem : ∀ j < chars.length, w.mem (addr line j) = chars.getD j 0)
    (hsep : TextApart line chars (text + off) (argText args).length)
    (hl : ∀ j < chars.length, allowed (.load (addr line j)))
    (hs : ∀ i < (argText args).length, ∀ b, allowed (.store (addr (text + off) i) b))
    (hp : post (argSlots (text + off) args) { w with mem := put w.mem (text + off) (argText args) }) :
    (copyArgs text off qs).Meets (Transfer may) allowed (fun _ => True) post w := by
  induction hq generalizing off w post with
  | nil =>
    rw [argText, List.flatMap_nil, put_nil] at hp
    exact ⟨trivial, hp⟩
  | @cons q arg qs args hd _ ih =>
    obtain ⟨pre, rest, rfl, rfl⟩ := hd
    rw [argText_cons, List.length_append, List.length_append, List.length_singleton] at hn hs hsep
    rw [List.length_append, List.length_append] at hlen
    have harg : (BitVec.ofNat 32 arg.length).toNat = arg.length := by
      rw [BitVec.toNat_ofNat]
      omega
    have hin : ∀ i < arg.length, pre.length + i < (pre ++ arg ++ rest).length := by
      intro i hi
      rw [List.length_append, List.length_append]
      omega
    have hbytes : ∀ i < arg.length, w.mem (addr (addr line pre.length) i) = arg.getD i 0 := by
      intro i hi
      rw [addr_addr, hmem _ (hin i hi), List.append_assoc, List.getD_append_right _ _ _ _ (Nat.le_add_right _ _),
        Nat.add_sub_cancel_left, List.getD_append _ _ _ _ hi]
    have hnext : text + (off + (BitVec.ofNat 32 arg.length + 1)) = addr (text + off) (arg.length + 1) := by
      rw [addr, BitVec.ofNat_add, add_assoc]
      rfl
    rw [copyArgs]
    dsimp only
    rw [harg]
    refine Prog.Meets.bind (meets_memcpy (by omega) (fun _ _ => trivial)
      (fun i hi => by rw [addr_addr]; exact hl _ (hin i hi)) (fun i hi b => hs i (by omega) b)
      (fun i hi => ?_) ?_)
    · have h := hsep _ (hin i hi)
      rw [addr_addr]
      omega
    have hcopy : blit w.mem (text + off) arg.length (fun j => w.mem (addr (addr line pre.length) j)) =
        put w.mem (text + off) arg := blit_congr hbytes
    have hword : Function.update (put w.mem (text + off) arg) (addr (text + off) arg.length) 0 =
        put w.mem (text + off) (arg ++ [0]) := by
      rw [← put_singleton, put_append _ rfl (by rw [List.length_singleton]; omega)]
    have hlong : (arg ++ [(0 : Byte)]).length = arg.length + 1 := List.length_append
    refine Prog.Meets.bind (meets_store trivial (hs _ (by omega) _) trivial ?_)
    rw [World.setMem, hcopy, show text + off + BitVec.ofNat 32 arg.length = addr (text + off) arg.length from rfl,
      hword]
    refine Prog.Meets.bind (ih (by omega) (fun j hj => ?_) (fun j hj => ?_) (fun i hi b => ?_) ⟨trivial, ?_⟩)
    · -- the line is not where the text goes
      have h := hsep j hj
      rw [← hmem j hj]
      exact put_outside (by rw [hlong]; omega)
    · have h := hsep j hj
      rw [hnext, sub_addr (by omega)]
      omega
    · rw [hnext, addr_addr]
      exact hs _ (by omega) b
    · rw [hnext, put_append _ (by rw [hlong]) (by omega), ← argText_cons]
      exact hp

lemma meets_argsBuildAt {post : Word → World → Prop} (hline : CString w.mem line chars)
    (hargs : args = splitArgs argMax chars) (hchars : chars.length < 2 ^ 32) (hlen : (argText args).length < 2 ^ 32)
    (hsep : (argText args).length ≤ 256 → TextApart line chars (argTextStart args top) (argText args).length)
    (ha : ∀ i ≤ chars.length, allowed (.load (addr line i)))
    (hs : (argText args).length ≤ 256 → ∀ i < (argBlock args top).length, ∀ b,
      allowed (.store (addr (argStack args top) i) b))
    (hfit : (argText args).length ≤ 256 → post (argStack args top)
      { w with mem := put w.mem (argStack args top) (argBlock args top) })
    (hlong : 256 < (argText args).length → post 0 w) :
    (argsBuildAt line top).Meets (Transfer may) allowed (fun _ => True) post w := by
  refine Prog.Meets.bind (meets_splitLine hline hchars ha fun qs hqs => ?_)
  rw [← hargs] at hqs
  have htotal : (qs.map fun q => q.2 + 1).sum = BitVec.ofNat 32 (argText args).length := by
    rw [← sum_lengths hlen]
    clear hargs hlen hsep hs hfit hlong
    induction hqs with
    | nil => rfl
    | cons hd _ ih =>
      obtain ⟨_, _, _, rfl⟩ := hd
      rw [List.map_cons, List.map_cons, List.sum_cons, List.sum_cons, ih]
  rw [htotal, hqs.length_eq]
  by_cases hbig : 256 < (argText args).length
  · rw [if_pos ((argBytes_lt hlen).mpr hbig)]
    exact ⟨trivial, hlong hbig⟩
  rw [if_neg (mt (argBytes_lt hlen).mp hbig)]
  have hfits := not_lt.mp hbig
  have htext : (top - BitVec.ofNat 32 (argText args).length) &&& ~~~3 = argTextStart args top := rfl
  rw [htext]
  refine Prog.Meets.bind (meets_copyArgs hqs (by omega) hchars (fun j hj => hline.byte hj.le) ?_
    (fun j hj => ha j hj.le) ?_ ?_)
  · rw [add_zero]
    exact hsep hfits
  · rw [add_zero, argTextStart_eq]
    exact block_stores (hs hfits) (by omega)
  · rw [add_zero]
    exact meets_argsFrame hfits (hs hfits) (hfit hfits)

lemma exec_argsBuildAt (hline : CString w.mem line chars) (hchars : chars.length + 8 < 2 ^ 32)
    (hsep : TextApart line chars (argTextStart (splitArgs argMax chars) top)
      (argText (splitArgs argMax chars)).length) :
    exec (argsBuildAt line top) w = exec (argsBuild chars top) w := by
  have hlen : (argText (splitArgs argMax chars)).length ≤ chars.length + 8 := argText_splitArgs argMax chars
  -- both leave the block if the text fits, and nothing otherwise
  have hboth : ∀ q ∈ [argsBuildAt line top, argsBuild chars top],
      q.Meets (Transfer fun _ => False) (fun _ => True) (fun _ => True)
        (fun sp t => (sp, t) = if (argText (splitArgs argMax chars)).length ≤ 256 then
          (argStack (splitArgs argMax chars) top, { w with
            mem := put w.mem (argStack (splitArgs argMax chars) top) (argBlock (splitArgs argMax chars) top) })
          else (0, w)) w := by
    intro q hq
    rcases List.mem_pair.mp hq with rfl | rfl
    · exact meets_argsBuildAt hline rfl (by omega) (by omega) (fun _ => hsep) (fun _ _ => trivial)
        (fun _ _ _ _ => trivial) (fun h => (if_pos h).symm) fun h => (if_neg (not_le.mpr h)).symm
    · exact meets_argsBuild rfl (by omega) (fun _ _ _ _ => trivial) (fun h => (if_pos h).symm)
        fun h => (if_neg (not_le.mpr h)).symm
  obtain ⟨sp, t, hrun, he⟩ := exec_of_meets (hboth _ List.mem_cons_self)
  obtain ⟨sp', t', hrun', he'⟩ := exec_of_meets (hboth _ (List.mem_cons_of_mem _ List.mem_cons_self))
  rw [hrun, hrun', he, he']

def lineWorld : World := ⟨put (fun _ => 0) 0x30000 [0x61, 0x62, 0x20, 0x20, 0x63], fun _ _ => 0, 0, 0⟩

lemma lineWorld_line : CString lineWorld.mem 0x30000 [0x61, 0x62, 0x20, 0x20, 0x63] := by
  unfold CString
  decide

example : exec (argsBuildAt 0x30000 0xF0000) lineWorld =
    exec (argsBuild [0x61, 0x62, 0x20, 0x20, 0x63] 0xF0000) lineWorld :=
  exec_argsBuildAt lineWorld_line (by decide) (by unfold TextApart; decide)

/-! ### Decoding -/

structure ArgFrame (mem : Word → Byte) (sp top : Word) (args : List (List Byte)) : Prop where
  aligned : sp.toNat % 4 = 0
  ret : word32 mem sp = 0
  argc : word32 mem (addr sp 4) = BitVec.ofNat 32 args.length
  argv : sp.toNat + 12 ≤ (word32 mem (addr sp 8)).toNat ∧
    (word32 mem (addr sp 8)).toNat + 4 * (args.length + 1) ≤ top.toNat
  arg : ∀ i (h : i < args.length), CString mem (word32 mem (addr (word32 mem (addr sp 8)) (4 * i))) args[i] ∧
    sp.toNat ≤ (word32 mem (addr (word32 mem (addr sp 8)) (4 * i))).toNat ∧
    (word32 mem (addr (word32 mem (addr sp 8)) (4 * i))).toNat + args[i].length + 1 ≤ top.toNat
  last : word32 mem (addr (word32 mem (addr sp 8)) (4 * args.length)) = 0

lemma word32_put {mem : Word → Byte} {bytes : List Byte} {v : Word} {k : ℕ} (xs ys : List Byte)
    (h : bytes = xs ++ (wordBytes v ++ ys)) (hk : xs.length = k) (hlen : bytes.length ≤ 2 ^ 32) :
    word32 (put mem p bytes) (addr p k) = v := by
  subst hk h
  rw [List.length_append, List.length_append, wordBytes_length] at hlen
  refine wordAt_eq fun j hj => ?_
  rw [addr_addr, put_at (by rw [List.length_append, List.length_append, wordBytes_length]; omega)
    (by rw [List.length_append, List.length_append, wordBytes_length]; omega),
    List.getD_append_right _ _ _ _ (Nat.le_add_right _ _), Nat.add_sub_cancel_left,
    List.getD_append _ _ _ _ (by rw [wordBytes_length]; omega), wordBytes, List.getD_eq_getElem _ _ (by simpa using hj),
    List.getElem_map, List.getElem_range]

lemma argText_append (as bs : List (List Byte)) : argText (as ++ bs) = argText as ++ argText bs := List.flatMap_append

lemma argSlots_append (text : Word) (as bs : List (List Byte)) :
    argSlots text (as ++ bs) = argSlots text as ++ argSlots (addr text (argText as).length) bs := by
  induction as generalizing text with
  | nil => rw [List.nil_append, argText, List.flatMap_nil, List.length_nil, addr_zero]; rfl
  | cons arg as ih =>
    rw [List.cons_append, argSlots, argSlots, ih, addr_addr, argText_cons, List.length_append, List.length_append,
      List.length_singleton]
    rfl

lemma take_split {i : ℕ} (hi : i < args.length) : args.take i ++ args[i] :: args.drop (i + 1) = args := by
  rw [List.getElem_cons_drop hi, List.take_append_drop]

lemma argSlots_split (text : Word) {i : ℕ} (hi : i < args.length) : ∃ slots, argSlots text args =
    argSlots text (args.take i) ++ addr text (argText (args.take i)).length :: slots := by
  have h := argSlots_append text (args.take i) (args[i] :: args.drop (i + 1))
  rw [take_split hi, argSlots] at h
  exact ⟨_, h⟩

lemma argText_split {i : ℕ} (hi : i < args.length) :
    argText args = argText (args.take i) ++ (args[i] ++ [0] ++ argText (args.drop (i + 1))) := by
  refine (congrArg argText (take_split hi)).symm.trans ?_
  rw [argText_append, argText_cons]

lemma argStack_aligned (args : List (List Byte)) (top : Word) : (argStack args top).toNat % 4 = 0 := by
  have htext := and_not_low (top - BitVec.ofNat 32 (argText args).length) (m := 3) (k := 2) (by decide)
  rw [argStack, argTextStart, BitVec.toNat_sub, BitVec.toNat_ofNat, htext]
  omega

section

variable (hfits : (argText args).length ≤ 256) (hn : args.length ≤ 8)
include hfits hn

lemma argBlock_short (top : Word) : (argBlock args top).length ≤ 2 ^ 32 := by
  rw [argBlock_length]
  omega

lemma cstring_slot {mem : Word → Byte} {i : ℕ} (hi : i < args.length) (hnul : ∀ c ∈ args[i], c ≠ 0) :
    CString (put mem (argStack args top) (argBlock args top))
      (addr (argTextStart args top) (argText (args.take i)).length) args[i] := by
  have htext := argText_split hi
  have hlong := congrArg List.length htext
  simp only [List.length_append, List.length_singleton] at hlong
  have hhead : ∃ xs, argBlock args top = xs ++ argText args ∧ xs.length = 4 * (args.length + 4) := by
    refine ⟨wordBytes 0 ++ (wordBytes (BitVec.ofNat 32 args.length) ++
      (wordBytes (argTextStart args top - BitVec.ofNat 32 (4 * (args.length + 1))) ++
        ((argSlots (argTextStart args top) args).flatMap wordBytes ++ wordBytes 0))), ?_, ?_⟩
    · simp only [argBlock, List.append_assoc]
    · simp only [List.length_append, wordBytes_length, slots_length, argSlots_length]
      omega
  obtain ⟨xs, hblock, hxs⟩ := hhead
  have hbyte : ∀ j ≤ args[i].length, put mem (argStack args top) (argBlock args top)
      (addr (addr (argTextStart args top) (argText (args.take i)).length) j) = (args[i] ++ [0]).getD j 0 := by
    intro j hj
    rw [argTextStart_eq, addr_addr, addr_addr, put_at (by rw [argBlock_length]; omega) (argBlock_short hfits hn top),
      hblock, List.getD_append_right _ _ _ _ (by omega), hxs, Nat.add_sub_cancel_left, htext,
      List.getD_append_right _ _ _ _ (Nat.le_add_right _ _), Nat.add_sub_cancel_left,
      List.getD_append _ _ _ _ (by rw [List.length_append, List.length_singleton]; omega)]
  refine ⟨fun j hj => ⟨?_, hnul _ (List.getElem_mem hj)⟩, ?_⟩
  · rw [hbyte j hj.le, List.getD_append _ _ _ _ hj, List.getD_eq_getElem _ _ hj]
  · rw [hbyte _ le_rfl, List.getD_append_right _ _ _ _ le_rfl, Nat.sub_self]
    rfl

lemma argBlock_words (mem : Word → Byte) (top : Word) :
    word32 (put mem (argStack args top) (argBlock args top)) (argStack args top) = 0 ∧
    word32 (put mem (argStack args top) (argBlock args top)) (addr (argStack args top) 4) =
      BitVec.ofNat 32 args.length ∧
    word32 (put mem (argStack args top) (argBlock args top)) (addr (argStack args top) 8) =
      addr (argStack args top) 12 ∧
    (∀ i < args.length, word32 (put mem (argStack args top) (argBlock args top))
      (addr (argStack args top) (12 + 4 * i)) =
      addr (argTextStart args top) (argText (args.take i)).length) ∧
    word32 (put mem (argStack args top) (argBlock args top)) (addr (argStack args top) (12 + 4 * args.length)) = 0 := by
  have hlen := argBlock_short hfits hn top
  refine ⟨?_, word32_put (wordBytes 0) _ rfl rfl hlen, ?_, fun i hi => ?_, ?_⟩
  · have h : word32 (put mem (argStack args top) (argBlock args top)) (addr (argStack args top) 0) = 0 :=
      word32_put [] _ rfl rfl hlen
    rw [addr_zero] at h
    exact h
  · rw [← argv_eq, argc_words]
    refine word32_put (wordBytes 0 ++ wordBytes (BitVec.ofNat 32 args.length))
      ((argSlots (argTextStart args top) args).flatMap wordBytes ++ (wordBytes 0 ++ argText args)) ?_ rfl hlen
    rw [argBlock, List.append_assoc]
  · obtain ⟨slots, hslots⟩ := argSlots_split (argTextStart args top) hi
    refine word32_put (wordBytes 0 ++ (wordBytes (BitVec.ofNat 32 args.length) ++
      (wordBytes (argTextStart args top - BitVec.ofNat 32 (4 * (args.length + 1))) ++
        (argSlots (argTextStart args top) (args.take i)).flatMap wordBytes)))
      (slots.flatMap wordBytes ++ (wordBytes 0 ++ argText args)) ?_ ?_ hlen
    · rw [argBlock, hslots]
      simp only [List.flatMap_append, List.flatMap_cons, List.append_assoc]
    · simp only [List.length_append, wordBytes_length, slots_length, argSlots_length, List.length_take]
      omega
  · refine word32_put (wordBytes 0 ++ (wordBytes (BitVec.ofNat 32 args.length) ++
      (wordBytes (argTextStart args top - BitVec.ofNat 32 (4 * (args.length + 1))) ++
        (argSlots (argTextStart args top) args).flatMap wordBytes))) (argText args) ?_ ?_ hlen
    · simp only [argBlock, List.append_assoc]
    · simp only [List.length_append, wordBytes_length, slots_length, argSlots_length]
      omega

lemma argFrame_put {mem : Word → Byte} (htop : 512 ≤ top.toNat) (hnul : ∀ arg ∈ args, ∀ c ∈ arg, c ≠ 0) :
    ArgFrame (put mem (argStack args top) (argBlock args top)) (argStack args top) top args := by
  obtain ⟨hret, hargc, hargv, hslot, hlast⟩ := argBlock_words hfits hn mem top
  obtain ⟨hplace, _⟩ := argStack_place hfits hn htop
  rw [argBlock_length] at hplace
  have htoplt := top.isLt
  have hat : ∀ k, k ≤ 4 * (args.length + 4) + (argText args).length →
      (addr (argStack args top) k).toNat = (argStack args top).toNat + k := by
    intro k hk
    rw [addr, BitVec.toNat_add, BitVec.toNat_ofNat]
    omega
  refine ⟨argStack_aligned args top, hret, hargc, ?_, fun i hi => ?_, ?_⟩
  · rw [hargv, hat 12 (by omega)]
    omega
  · rw [hargv, addr_addr, hslot i hi]
    refine ⟨cstring_slot hfits hn hi (hnul _ (List.getElem_mem hi)), ?_⟩
    have hlong := congrArg List.length (argText_split hi)
    simp only [List.length_append, List.length_singleton] at hlong
    rw [argTextStart_eq, addr_addr, hat _ (by omega)]
    omega
  · rw [hargv, addr_addr]
    exact hlast

end

lemma argText_length (args : List (List Byte)) : (argText args).length = (args.map List.length).sum + args.length := by
  induction args with
  | nil => rfl
  | cons arg args ih =>
    rw [argText_cons, List.length_append, List.length_append, List.length_singleton, ih, List.map_cons, List.sum_cons,
      List.length_cons]
    omega

lemma line_short (htop : 512 ≤ top.toNat) (hout : ∀ j ≤ chars.length,
    ¬ (top.toNat - 512 ≤ (addr line j).toNat ∧ (addr line j).toNat < top.toNat)) : chars.length + 8 < 2 ^ 32 := by
  have hlow : (top - 512).toNat = top.toNat - 512 := BitVec.toNat_sub_of_le (BitVec.le_def.mpr htop)
  have haddr : addr line (top - 512 - line).toNat = top - 512 := by
    rw [addr, BitVec.ofNat_toNat, BitVec.setWidth_eq, add_comm, BitVec.sub_add_cancel]
  have hlt : chars.length < (top - 512 - line).toNat := by
    by_contra hle
    refine hout _ (not_lt.mp hle) ?_
    rw [haddr, hlow]
    omega
  have hzero := hout 0 (Nat.zero_le _)
  rw [addr_zero] at hzero
  have hsub := BitVec.toNat_sub (top - 512) line
  have hbound := line.isLt
  have htoplt := top.isLt
  omega

lemma splitArgs_sub (n : ℕ) (chars : List Byte) : ∀ arg ∈ splitArgs n chars, ∀ c ∈ arg, c ∈ chars := by
  induction n generalizing chars with
  | zero => exact nofun
  | succ n ih =>
    intro arg harg c hc
    rw [splitArgs] at harg
    cases hd : chars.dropWhile (· = 0x20) with
    | nil =>
      rw [hd] at harg
      cases harg
    | cons x p =>
      rw [hd] at harg
      have hsub : ∀ y ∈ x :: p, y ∈ chars := fun y hy => (List.dropWhile_suffix _).subset (hd ▸ hy)
      rcases List.mem_cons.mp harg with rfl | harg
      · exact hsub c ((List.takeWhile_prefix _).subset hc)
      · exact hsub c ((List.dropWhile_suffix _).subset (ih _ arg harg c hc))

theorem args_frame_decodes {w : World} {line top : Word} {chars : List Byte} (hline : CString w.mem line chars)
    (htop : 512 ≤ top.toNat) (hout : ∀ j ≤ chars.length,
      ¬ (top.toNat - 512 ≤ (addr line j).toNat ∧ (addr line j).toNat < top.toNat)) :
    ∃ sp t, exec (argsBuildAt line top) w = some (sp, t) ∧
      ((sp = 0 ∧ ∀ a b, Req.store a b ∉ (argsBuildAt line top).requests World.handle w) ↔
        256 < (((wordsOf chars).take 8).map List.length).sum + ((wordsOf chars).take 8).length) ∧
      ((((wordsOf chars).take 8).map List.length).sum + ((wordsOf chars).take 8).length ≤ 256 →
        ArgFrame t.mem sp top ((wordsOf chars).take 8) ∧
        (∀ a b, Req.store a b ∈ (argsBuildAt line top).requests World.handle w → sp ≤ a ∧ a < top) ∧
        ∀ x, ¬ (sp ≤ x ∧ x < top) → t.mem x = w.mem x) := by
  have hshort := line_short htop hout
  have hargs : (wordsOf chars).take 8 = splitArgs argMax chars := (splitArgs_eq argMax chars).symm
  have hn : ((wordsOf chars).take 8).length ≤ 8 := List.length_take_le _ _
  have hsub := splitArgs_sub argMax chars
  have hlen : (argText (splitArgs argMax chars)).length ≤ chars.length + 8 := argText_splitArgs argMax chars
  rw [← hargs] at hsub hlen
  generalize (wordsOf chars).take 8 = args at hargs hn hsub hlen
  rw [← argText_length]
  by_cases hbig : 256 < (argText args).length
  · have hm : (argsBuildAt line top).Meets (Transfer fun _ => False) (fun e => ∀ a b, e ≠ .store a b) (fun _ => True)
        (fun sp _ => sp = 0) w :=
      meets_argsBuildAt hline hargs (by omega) (by omega) (fun h => by omega) (fun _ _ _ _ => nofun) (fun h => by omega)
        (fun h => by omega) fun _ => rfl
    rw [transfer_handled] at hm
    obtain ⟨sp, t, hrun, hsp⟩ := hm.run
    exact ⟨sp, t, hrun, ⟨fun _ => hbig, fun _ => ⟨hsp, fun a b hmem => hm.requests _ hmem a b rfl⟩⟩, fun h => by omega⟩
  · have hfits := not_lt.mp hbig
    obtain ⟨hend, hlow⟩ := argStack_place hfits hn htop
    have hblock : (argBlock args top).length = 4 * (args.length + 4) + (argText args).length := argBlock_length
    have htoplt := top.isLt
    have hat : ∀ i ≤ (argBlock args top).length, (addr (argStack args top) i).toNat = (argStack args top).toNat + i := by
      intro i hi
      rw [addr, BitVec.toNat_add, BitVec.toNat_ofNat]
      omega
    have hm : (argsBuildAt line top).Meets (Transfer fun _ => False)
        (fun e => ∀ a b, e = .store a b → argStack args top ≤ a ∧ a < top) (fun _ => True)
        (fun sp t => sp = argStack args top ∧
          t = { w with mem := put w.mem (argStack args top) (argBlock args top) }) w := by
      refine meets_argsBuildAt hline hargs (by omega) (by omega) (fun _ j hj => ?_) (fun _ _ _ _ => nofun)
        (fun _ i hi b => ?_) (fun _ => ⟨rfl, rfl⟩) fun h => by omega
      · by_contra hin
        have htext : (argTextStart args top).toNat = (argStack args top).toNat + 4 * (args.length + 4) := by
          rw [argTextStart_eq, hat _ (by omega)]
        rw [not_le, sub_lt_iff (by omega)] at hin
        exact hout j hj.le (by omega)
      · rintro a c ⟨⟩
        rw [BitVec.le_def, BitVec.lt_def, hat i hi.le]
        omega
    rw [transfer_handled] at hm
    obtain ⟨sp, t, hrun, rfl, rfl⟩ := hm.run
    refine ⟨_, _, hrun, ⟨fun h => ?_, fun h => by omega⟩, fun _ => ⟨?_, fun a b hmem => hm.requests _ hmem a b rfl,
      fun x hx => ?_⟩⟩
    · exact (ne_zero_of_pos (by omega) h.1).elim
    · exact argFrame_put hfits hn htop fun arg harg c hc => hline.ne_zero c (hsub arg harg c hc)
    · refine put_outside (not_lt.mp fun hin => hx ?_)
      rw [sub_lt_iff (by omega)] at hin
      rw [BitVec.le_def, BitVec.lt_def]
      omega

theorem args_frame_decodes_sample : CString lineWorld.mem 0x30000 [0x61, 0x62, 0x20, 0x20, 0x63] ∧
    ∃ sp t, exec (argsBuildAt 0x30000 0xF0000) lineWorld = some (sp, t) ∧
      ArgFrame t.mem sp 0xF0000 [[0x61, 0x62], [0x63]] := by
  refine ⟨lineWorld_line, ?_⟩
  have hout : ∀ j ≤ 5, ¬ ((0xF0000 : Word).toNat - 512 ≤ (addr 0x30000 j).toNat ∧
      (addr 0x30000 j).toNat < (0xF0000 : Word).toNat) := by decide
  obtain ⟨sp, t, hrun, _, hframe⟩ := args_frame_decodes lineWorld_line (by decide) hout
  exact ⟨sp, t, hrun, (hframe (by decide)).1⟩

end PyroOS
