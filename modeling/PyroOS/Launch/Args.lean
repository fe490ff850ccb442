import PyroOS.Machine.Strings

/-! The argument block that a program finds on its stack. -/

namespace PyroOS

open Interaction Kernel

def argMax : ℕ := 8
def argBytes : Word := 256

def splitArgs : ℕ → List Byte → List (List Byte)
  | 0, _ => []
  | n + 1, line =>
    match line.dropWhile (· = 0x20) with
    | [] => []
    | c :: p => (c :: p).takeWhile (· ≠ 0x20) :: splitArgs n ((c :: p).dropWhile (· ≠ 0x20))

def copyStrings (text : Word) : Word → List (List Byte) → Kernel (List Word)
  | _, [] => pure []
  | off, arg :: args => do
    let dst := text + off
    memcpyTo dst (fun j => arg.getD j 0) arg.length
    store (addr dst arg.length) 0
    let slots ← copyStrings text (off + (BitVec.ofNat 32 arg.length + 1)) args
    pure (dst :: slots)

def storeSlots : Word → List Word → Kernel Unit
  | _, [] => pure ()
  | argv, slot :: slots => do
    store32 argv slot
    storeSlots (argv + 4) slots

def argsFrame (text argc : Word) (slots : List Word) : Kernel Word := do
  let argv := text - (argc + 1) * 4
  storeSlots argv slots
  store32 (argv + argc * 4) 0
  store32 (argv - 4) argv
  store32 (argv - 4 - 4) argc
  store32 (argv - 4 - 4 - 4) 0
  pure (argv - 4 - 4 - 4)

def argsBuild (line : List Byte) (stackTop : Word) : Kernel Word := do
  let args := splitArgs argMax line
  let argc : Word := BitVec.ofNat 32 args.length
  let total : Word := (args.map fun arg => BitVec.ofNat 32 arg.length + 1).sum
  if argBytes < total then pure 0
  else do
    let text := (stackTop - total) &&& ~~~3
    let slots ← copyStrings text 0 args
    argsFrame text argc slots

/-! ### The block -/

def argText (args : List (List Byte)) : List Byte := args.flatMap (· ++ [0])

def argSlots : Word → List (List Byte) → List Word
  | _, [] => []
  | text, arg :: args => text :: argSlots (addr text (arg.length + 1)) args

def argTextStart (args : List (List Byte)) (top : Word) : Word :=
  (top - BitVec.ofNat 32 (argText args).length) &&& ~~~3

def argBlock (args : List (List Byte)) (top : Word) : List Byte :=
  let text := argTextStart args top
  wordBytes 0 ++ (wordBytes (BitVec.ofNat 32 args.length) ++
    (wordBytes (text - BitVec.ofNat 32 (4 * (args.length + 1))) ++
    ((argSlots text args).flatMap wordBytes ++ (wordBytes 0 ++ argText args))))

def argStack (args : List (List Byte)) (top : Word) : Word :=
  argTextStart args top - BitVec.ofNat 32 (4 * (args.length + 4))

variable {may allowed : Req → Prop} {w : World} {args : List (List Byte)} {line : List Byte} {text off top p : Word}

lemma argText_cons (arg : List Byte) : argText (arg :: args) = arg ++ [0] ++ argText args := rfl

lemma argSlots_length : (argSlots text args).length = args.length := by
  induction args generalizing text with
  | nil => rfl
  | cons arg args ih => rw [argSlots, List.length_cons, List.length_cons, ih]

lemma slots_length (slots : List Word) : (slots.flatMap wordBytes).length = 4 * slots.length := by
  induction slots with
  | nil => rfl
  | cons x slots ih =>
    rw [List.flatMap_cons, List.length_append, ih, wordBytes_length, List.length_cons]
    ring

lemma argBlock_length : (argBlock args top).length = 4 * (args.length + 4) + (argText args).length := by
  simp only [argBlock, List.length_append, wordBytes_length, slots_length, argSlots_length]
  ring

/-! ### Rules -/

lemma meets_copyStrings {post : List Word → World → Prop} (hn : (argText args).length ≤ 2 ^ 32)
    (hs : ∀ i < (argText args).length, ∀ b, allowed (.store (addr (text + off) i) b))
    (hp : post (argSlots (text + off) args) { w with mem := put w.mem (text + off) (argText args) }) :
    (copyStrings text off args).Meets (Transfer may) allowed (fun _ => True) post w := by
  induction args generalizing off w post with
  | nil =>
    rw [argText, List.flatMap_nil, put_nil] at hp
    exact ⟨trivial, hp⟩
  | cons arg args ih =>
    rw [argText_cons, List.length_append, List.length_append, List.length_singleton] at hn hs
    have hnext : text + (off + (BitVec.ofNat 32 arg.length + 1)) = addr (text + off) (arg.length + 1) := by
      rw [addr, BitVec.ofNat_add, add_assoc]
      rfl
    refine Prog.Meets.bind (meets_memcpyTo (by omega) (fun _ _ => trivial) (fun i hi => hs i (by omega) _) ?_)
    refine Prog.Meets.bind (meets_store trivial (hs _ (by omega) _) trivial ?_)
    refine Prog.Meets.bind (ih (by omega) (fun i hi b => ?_) ⟨trivial, ?_⟩)
    · rw [hnext, addr_addr]
      exact hs _ (by omega) b
    · have hlen : (arg ++ [0]).length = arg.length + 1 := List.length_append
      have hword : Function.update (put w.mem (text + off) arg) (addr (text + off) arg.length) 0 =
          put w.mem (text + off) (arg ++ [0]) := by
        rw [← put_singleton, put_append _ rfl (by rw [List.length_singleton]; omega)]
      rw [hnext, World.setMem_mem, show blit w.mem (text + off) arg.length _ = put w.mem (text + off) arg from rfl,
        hword, put_append _ (by rw [hlen]) (by omega), ← argText_cons]
      exact hp

lemma meets_storeSlots {slots : List Word} {post : Unit → World → Prop} (hn : 4 * slots.length ≤ 2 ^ 32)
    (hs : ∀ i < 4 * slots.length, ∀ b, allowed (.store (addr p i) b))
    (hp : post () { w with mem := put w.mem p (slots.flatMap wordBytes) }) :
    (storeSlots p slots).Meets (Transfer may) allowed (fun _ => True) post w := by
  induction slots generalizing p w with
  | nil =>
    rw [List.flatMap_nil, put_nil] at hp
    exact ⟨trivial, hp⟩
  | cons x slots ih =>
    rw [List.length_cons] at hn hs
    refine Prog.Meets.bind (meets_store32 (fun _ _ => trivial) (fun i hi => hs i (by omega)) ?_)
    refine ih (by omega) (fun i hi b => ?_) ?_
    · have h := hs (4 + i) (by omega) b
      rw [← addr_addr] at h
      exact h
    · have happ : put (put w.mem p (wordBytes x)) (p + 4) (slots.flatMap wordBytes) =
          put w.mem p ((x :: slots).flatMap wordBytes) :=
        put_append w.mem rfl (by rw [slots_length, wordBytes_length]; omega)
      rw [happ]
      exact hp

lemma sum_lengths (h : (argText args).length < 2 ^ 32) :
    (args.map fun arg => BitVec.ofNat 32 arg.length + 1).sum = BitVec.ofNat 32 (argText args).length := by
  induction args with
  | nil => rfl
  | cons arg args ih =>
    rw [argText_cons, List.length_append, List.length_append, List.length_singleton] at h ⊢
    rw [List.map_cons, List.sum_cons, ih (by omega), BitVec.ofNat_add, BitVec.ofNat_add]
    rfl

lemma argBytes_lt (h : (argText args).length < 2 ^ 32) :
    argBytes < BitVec.ofNat 32 (argText args).length ↔ 256 < (argText args).length := by
  rw [BitVec.lt_def, BitVec.toNat_ofNat, Nat.mod_eq_of_lt h]
  rfl

lemma length_le_argText : args.length ≤ (argText args).length := by
  induction args with
  | nil => exact le_rfl
  | cons arg args ih =>
    rw [argText_cons, List.length_cons, List.length_append, List.length_append, List.length_singleton]
    omega

/-! The parts of the block, as places above the stack pointer. -/

lemma argTextStart_eq : argTextStart args top = addr (argStack args top) (4 * (args.length + 4)) := by
  rw [argStack, addr, BitVec.sub_add_cancel]

lemma argc_words (n : ℕ) : (BitVec.ofNat 32 n + 1) * 4 = BitVec.ofNat 32 (4 * (n + 1)) := by
  rw [Nat.mul_comm, BitVec.ofNat_mul, BitVec.ofNat_add]
  rfl

lemma argv_eq : argTextStart args top - (BitVec.ofNat 32 args.length + 1) * 4 = addr (argStack args top) 12 := by
  rw [argc_words, argTextStart_eq, show 4 * (args.length + 4) = 12 + 4 * (args.length + 1) by ring, ← addr_addr]
  exact BitVec.add_sub_cancel _ _

lemma splitArgs_length (n : ℕ) (line : List Byte) : (splitArgs n line).length ≤ n := by
  induction n generalizing line with
  | zero => exact le_rfl
  | succ n ih =>
    rw [splitArgs]
    split
    · exact Nat.zero_le _
    · exact Nat.succ_le_succ (ih _)

lemma argText_splitArgs (n : ℕ) (line : List Byte) : (argText (splitArgs n line)).length ≤ line.length + n := by
  induction n generalizing line with
  | zero => exact Nat.zero_le _
  | succ n ih =>
    rw [splitArgs]
    split
    · exact Nat.zero_le _
    · rename_i c p hline
      have hrest := ih ((c :: p).dropWhile (· ≠ 0x20))
      have hdrop : (c :: p).length ≤ line.length := hline ▸ (List.dropWhile_suffix _).length_le
      have hsplit := congrArg List.length (List.takeWhile_append_dropWhile (p := (· ≠ 0x20)) (l := c :: p))
      rw [List.length_append] at hsplit
      rw [argText_cons, List.length_append, List.length_append, List.length_singleton]
      omega

lemma argStack_place (hfit : (argText args).length ≤ 256) (hn : args.length ≤ 8) (htop : 512 ≤ top.toNat) :
    (argStack args top).toNat + (argBlock args top).length ≤ top.toNat ∧
      top.toNat < (argStack args top).toNat + (argBlock args top).length + 4 := by
  have hlt := top.isLt
  have hsub : (top - BitVec.ofNat 32 (argText args).length).toNat = top.toNat - (argText args).length := by
    rw [BitVec.toNat_sub, BitVec.toNat_ofNat]
    omega
  have htext : (argTextStart args top).toNat = (top.toNat - (argText args).length) / 4 * 4 := by
    rw [argTextStart, and_not_low _ (k := 2) (by decide), hsub]
    rfl
  have hstack : (argStack args top).toNat = (argTextStart args top).toNat - 4 * (args.length + 4) := by
    rw [argStack, BitVec.toNat_sub, BitVec.toNat_ofNat]
    omega
  rw [argBlock_length]
  omega

lemma put_block {mem : Word → Byte} {s x y : Word} {n : ℕ} {array text : List Byte} (ha : array.length = 4 * n)
    (hn : 4 * (n + 4) + text.length ≤ 2 ^ 32) :
    put (put (put (put (put (put mem (addr s (4 * (n + 4))) text) (addr s 12) array) (addr s (12 + 4 * n))
      (wordBytes 0)) (addr s 8) (wordBytes x)) (addr s 4) (wordBytes y)) s (wordBytes 0) =
      put mem s (wordBytes 0 ++ (wordBytes y ++ (wordBytes x ++ (array ++ (wordBytes 0 ++ text))))) := by
  have hend : put (put (put mem (addr s (4 * (n + 4))) text) (addr s 12) array) (addr s (12 + 4 * n))
      (wordBytes 0) = put (put mem (addr s (4 * (n + 4))) text) (addr s 12) (array ++ wordBytes 0) :=
    put_append _ (by rw [ha, addr_addr]) (by rw [ha, wordBytes_length]; omega)
  have htext : put (put mem (addr s (4 * (n + 4))) text) (addr s 12) (array ++ wordBytes 0) =
      put mem (addr s 12) (array ++ (wordBytes 0 ++ text)) := by
    rw [← List.append_assoc]
    refine put_prepend mem ?_ ?_
    · rw [List.length_append, ha, wordBytes_length, addr_addr, show 12 + (4 * n + 4) = 4 * (n + 4) by ring]
    · rw [List.length_append, ha, wordBytes_length]
      omega
  -- the words below the array, from the top down
  have hword : ∀ (v : Word) (k : ℕ) (bytes : List Byte), bytes.length + 4 ≤ 2 ^ 32 →
      put (put mem (addr s (k + 4)) bytes) (addr s k) (wordBytes v) = put mem (addr s k) (wordBytes v ++ bytes) :=
    fun v k bytes hb => put_prepend mem (by rw [wordBytes_length, addr_addr]) (by rw [wordBytes_length]; omega)
  have hlast := hword 0 0 (wordBytes y ++ (wordBytes x ++ (array ++ (wordBytes 0 ++ text))))
    (by simp only [List.length_append, ha, wordBytes_length]; omega)
  rw [addr_zero] at hlast
  rw [hend, htext, hword x 8 _ (by simp only [List.length_append, ha, wordBytes_length]; omega),
    hword y 4 _ (by simp only [List.length_append, ha, wordBytes_length]; omega), hlast]

section

variable (hfits : (argText args).length ≤ 256)
  (hs : ∀ i < (argBlock args top).length, ∀ b, allowed (.store (addr (argStack args top) i) b))
include hs

lemma block_stores {k m : ℕ} (hkm : k + m ≤ 4 * (args.length + 4) + (argText args).length) :
    ∀ i < m, ∀ b, allowed (.store (addr (addr (argStack args top) k) i) b) := by
  intro i hi b
  rw [addr_addr]
  exact hs _ (by rw [argBlock_length]; omega) b

include hfits

lemma meets_argsFrame {post : Word → World → Prop}
    (hp : post (argStack args top) { w with mem := put w.mem (argStack args top) (argBlock args top) }) :
    (argsFrame (argTextStart args top) (BitVec.ofNat 32 args.length) (argSlots (argTextStart args top) args)).Meets
      (Transfer may) allowed (fun _ => True) post
      { w with mem := put w.mem (argTextStart args top) (argText args) } := by
  have hn : args.length ≤ (argText args).length := length_le_argText
  have hend : addr (argStack args top) 12 + BitVec.ofNat 32 args.length * 4 =
      addr (argStack args top) (12 + 4 * args.length) := by
    rw [← addr_addr, Nat.mul_comm]
    change _ = _ + BitVec.ofNat 32 (args.length * 4)
    rw [BitVec.ofNat_mul]
    rfl
  have hdown : ∀ k, addr (argStack args top) (k + 4) - 4 = addr (argStack args top) k := by
    intro k
    rw [← addr_addr]
    exact BitVec.add_sub_cancel _ _
  rw [argsFrame, argv_eq, hend, hdown 8, hdown 4, hdown 0, addr_zero]
  refine Prog.Meets.bind (meets_storeSlots (by rw [argSlots_length]; omega) ?_ ?_)
  · rw [argSlots_length]
    exact block_stores hs (by omega)
  refine Prog.Meets.bind (meets_store32 (fun _ _ => trivial) (block_stores hs (by omega)) ?_)
  refine Prog.Meets.bind (meets_store32 (fun _ _ => trivial) (block_stores hs (by omega)) ?_)
  refine Prog.Meets.bind (meets_store32 (fun _ _ => trivial) (block_stores hs (by omega)) ?_)
  refine Prog.Meets.bind (meets_store32 (fun _ _ => trivial) (fun i hi => hs i ?_) ⟨trivial, ?_⟩)
  · rw [argBlock_length]
    omega
  · rw [argBlock, ← argc_words, argv_eq, ← put_block (by rw [slots_length, argSlots_length]) (by omega),
      argTextStart_eq] at hp
    rw [argTextStart_eq]
    exact hp

end

lemma meets_argsBuild {post : Word → World → Prop} (hargs : args = splitArgs argMax line)
    (hlen : (argText args).length < 2 ^ 32)
    (hs : (argText args).length ≤ 256 → ∀ i < (argBlock args top).length, ∀ b,
      allowed (.store (addr (argStack args top) i) b))
    (hfit : (argText args).length ≤ 256 → post (argStack args top)
      { w with mem := put w.mem (argStack args top) (argBlock args top) })
    (hlong : 256 < (argText args).length → post 0 w) :
    (argsBuild line top).Meets (Transfer may) allowed (fun _ => True) post w := by
  rw [argsBuild, ← hargs, sum_lengths hlen]
  dsimp only
  by_cases hbig : 256 < (argText args).length
  · rw [if_pos ((argBytes_lt hlen).mpr hbig)]
    exact ⟨trivial, hlong hbig⟩
  rw [if_neg (mt (argBytes_lt hlen).mp hbig)]
  have hfits := not_lt.mp hbig
  refine Prog.Meets.bind (meets_copyStrings (by omega) ?_ ?_)
  · rw [add_zero, show (top - BitVec.ofNat 32 (argText args).length) &&& ~~~3 = argTextStart args top from rfl,
      argTextStart_eq]
    exact block_stores (hs hfits) (by omega)
  · rw [add_zero]
    exact meets_argsFrame hfits (hs hfits) (hfit hfits)

end PyroOS
