import PyroOS.Machine.World

/-! The string functions where one of their operands lies at an address the caller supplied. -/

namespace PyroOS

open Interaction

namespace Kernel

def sameChar (x : Byte) (b : Word) : Kernel Bool :=
  if x = 0 then pure false
  else do
    let y ← load b
    pure (x == y)

/-- `strcmp` of a string in kernel memory with the caller's. -/
def strcmp (a : ℕ → Byte) (b : Word) : Kernel ℤ :=
  Prog.iterate (fun _ => hang)
    (fun i => do
      let same ← sameChar (a i) (addr b i)
      if same then pure (.inl (i + 1))
      else do
        let y ← load (addr b i)
        pure (.inr ((a i).toNat - y.toNat)))
    (2 ^ 32) 0

def strncpyZ (dst : ℕ → Byte) (src : Word) (n : ℕ) : Kernel (ℕ → Byte) :=
  Prog.iterate (fun x => pure (Function.update x.2 x.1 0))
    (fun x => do
      let c ← load (addr src x.1)
      if c = 0 then pure (.inr (Function.update x.2 x.1 0))
      else do
        let c ← load (addr src x.1)
        pure (.inl (x.1 + 1, Function.update x.2 x.1 c)))
    (n - 1) (0, dst)

def memcpyFrom (buf : ℕ → Byte) (src : Word) (n : ℕ) : Kernel (ℕ → Byte) :=
  Prog.iterate (fun x => pure x.2)
    (fun x => do
      let c ← load (addr src x.1)
      pure (.inl (x.1 + 1, Function.update x.2 x.1 c)))
    n (0, buf)

def memcpyTo (dst : Word) (buf : ℕ → Byte) (n : ℕ) : Kernel Unit :=
  Prog.iterate (fun _ => pure ())
    (fun i => do
      store (addr dst i) (buf i)
      pure (.inl (i + 1)))
    n 0

def memcpy (dst src : Word) (n : ℕ) : Kernel Unit :=
  Prog.iterate (fun _ => pure ())
    (fun i => do
      let c ← load (addr src i)
      store (addr dst i) c
      pure (.inl (i + 1)))
    n 0

def memset (dst : Word) (value : Byte) (n : ℕ) : Kernel Unit := memcpyTo dst (fun _ => value) n

def store32 (a v : Word) : Kernel Unit := memcpyTo a (byteOf v) 4

end Kernel

def CString (mem : Word → Byte) (p : Word) (nm : List Byte) : Prop :=
  (∀ i (h : i < nm.length), mem (addr p i) = nm[i] ∧ nm[i] ≠ 0) ∧ mem (addr p nm.length) = 0

def Spells (a : ℕ → Byte) (nm : List Byte) : Prop :=
  (∀ i (h : i < nm.length), a i = nm[i]) ∧ a nm.length = 0

def copied (dst : ℕ → Byte) (nm : List Byte) (n : ℕ) (j : ℕ) : Byte :=
  if j < min (n - 1) nm.length then nm.getD j 0 else if j = min (n - 1) nm.length then 0 else dst j

def blit (mem : Word → Byte) (dst : Word) (n : ℕ) (f : ℕ → Byte) (x : Word) : Byte :=
  if (x - dst).toNat < n then f (x - dst).toNat else mem x

def wordBytes (x : Word) : List Byte := (List.range 4).map (byteOf x)

def put (mem : Word → Byte) (p : Word) (bytes : List Byte) : Word → Byte :=
  blit mem p bytes.length fun j => bytes.getD j 0

section

variable {may allowed : Req → Prop} {good : World → Prop} {w : World} {nm : List Byte} {p : Word}
  {a : ℕ → Byte} {n : ℕ}

lemma CString.length_lt {mem : Word → Byte} (h : CString mem p nm) : nm.length < 2 ^ 32 := by
  by_contra hle
  have hk : nm.length - 2 ^ 32 < nm.length := by omega
  have hsame : BitVec.ofNat 32 nm.length = BitVec.ofNat 32 (nm.length - 2 ^ 32) := by
    apply BitVec.eq_of_toNat_eq
    rw [BitVec.toNat_ofNat, BitVec.toNat_ofNat]
    omega
  have hz := h.2
  rw [addr, hsame] at hz
  exact (h.1 _ hk).2 ((h.1 _ hk).1.symm.trans hz)

lemma CString.ne_zero {mem : Word → Byte} (h : CString mem p nm) : ∀ b ∈ nm, b ≠ 0 := by
  intro b hb
  obtain ⟨i, hi, rfl⟩ := List.getElem_of_mem hb
  exact (h.1 i hi).2

lemma spells_stop {mem : Word → Byte} {i : ℕ} (hs : CString mem p nm) (hi : i ≤ nm.length)
    (hpre : ∀ j (_ : j < i) (h : j < nm.length), a j = nm[j])
    (hstop : a i = 0 ∨ a i ≠ mem (addr p i)) :
    ((a i).toNat - (mem (addr p i)).toNat : ℤ) = 0 ↔ Spells a nm := by
  constructor
  · intro hr
    have he : a i = mem (addr p i) := BitVec.eq_of_toNat_eq (by omega)
    have hz : a i = 0 := hstop.resolve_right (not_not.mpr he)
    have hlen : i = nm.length := by
      by_contra hne
      obtain ⟨hc, hnz⟩ := hs.1 i (by omega)
      exact hnz (hc.symm.trans (he.symm.trans hz))
    subst hlen
    exact ⟨fun j h => hpre j h h, hz⟩
  · rintro ⟨h₁, h₂⟩
    have hlen : i = nm.length := by
      by_contra hne
      have hlt : i < nm.length := by omega
      obtain ⟨hc, hnz⟩ := hs.1 i hlt
      rcases hstop with hz | hne'
      · exact hnz ((h₁ i hlt).symm.trans hz)
      · exact hne' ((h₁ i hlt).trans hc.symm)
    subst hlen
    rw [h₂, hs.2, sub_self]

lemma meets_strcmp {post : ℤ → World → Prop} (hs : CString w.mem p nm) (hlen : nm.length < 2 ^ 32)
    (hg : good w) (ha : ∀ i ≤ nm.length, allowed (.load (addr p i)))
    (hp : ∀ r : ℤ, (r = 0 ↔ Spells a nm) → post r w) :
    (Kernel.strcmp a p).Meets (Transfer may) allowed good post w := by
  refine Prog.meets_iterate
    (fun n i t => t = w ∧ n + i = 2 ^ 32 ∧ i ≤ nm.length ∧ ∀ j (_ : j < i) (h : j < nm.length), a j = nm[j])
    ?_ ?_ _ _ _ ⟨rfl, rfl, Nat.zero_le _, fun j hj => by omega⟩
  · rintro n i t ⟨rfl, hn, hi, hpre⟩
    refine Prog.Meets.bind ?_
    rw [Kernel.sameChar]
    by_cases hz : a i = 0
    · rw [if_pos hz]
      exact ⟨hg, Prog.Meets.bind (meets_load hg (ha i hi) ⟨hg, hp _ (spells_stop hs hi hpre (.inl hz))⟩)⟩
    · rw [if_neg hz]
      refine Prog.Meets.bind (meets_load hg (ha i hi) ⟨hg, ?_⟩)
      by_cases he : a i = t.mem (addr p i)
      · have hlt : i < nm.length := by
          by_contra hge
          obtain rfl : i = nm.length := by omega
          exact hz (he.trans hs.2)
        rw [beq_iff_eq.mpr he]
        refine ⟨hg, rfl, by omega, hlt, fun j hj h => ?_⟩
        rcases Nat.lt_succ_iff_lt_or_eq.mp hj with hj | rfl
        · exact hpre j hj h
        · exact he.trans (hs.1 j h).1
      · rw [beq_eq_false_iff_ne.mpr he]
        exact Prog.Meets.bind (meets_load hg (ha i hi) ⟨hg, hp _ (spells_stop hs hi hpre (.inr he))⟩)
  · rintro i t ⟨_, hn, hi, _⟩
    omega

lemma meets_strncpyZ {dst : ℕ → Byte} {post : (ℕ → Byte) → World → Prop} (hs : CString w.mem p nm)
    (hg : good w) (ha : ∀ i ≤ nm.length, allowed (.load (addr p i))) (hp : post (copied dst nm n) w) :
    (Kernel.strncpyZ dst p n).Meets (Transfer may) allowed good post w := by
  -- After `i` rounds the first `i` bytes are copied and the rest is as it was.
  have hend : ∀ (i : ℕ) (x : ℕ → Byte), i = min (n - 1) nm.length →
      (∀ j, x j = if j < i then nm.getD j 0 else dst j) → Function.update x i 0 = copied dst nm n := by
    rintro i x rfl hx
    funext j
    by_cases hj : j = min (n - 1) nm.length
    · rw [hj, Function.update_self, copied, if_neg (lt_irrefl _), if_pos rfl]
    · rw [Function.update_of_ne hj, hx, copied, if_neg hj]
  refine Prog.meets_iterate
    (fun r x t => t = w ∧ r + x.1 = n - 1 ∧ x.1 ≤ nm.length ∧ ∀ j, x.2 j = if j < x.1 then nm.getD j 0 else dst j)
    ?_ ?_ _ _ _ ⟨rfl, rfl, Nat.zero_le _, fun j => by simp⟩
  · rintro r x t ⟨rfl, hr, hi, hx⟩
    refine Prog.Meets.bind (meets_load hg (ha x.1 hi) ?_)
    by_cases hc : t.mem (addr p x.1) = 0
    · rw [if_pos hc]
      have hlen : x.1 = nm.length := by
        by_contra hne
        obtain ⟨h₁, h₂⟩ := hs.1 x.1 (by omega)
        exact h₂ (h₁.symm.trans hc)
      rw [hend x.1 x.2 (by omega) hx]
      exact ⟨hg, hp⟩
    · rw [if_neg hc]
      have hlt : x.1 < nm.length := by
        by_contra hge
        exact hc (by rw [show x.1 = nm.length by omega]; exact hs.2)
      refine Prog.Meets.bind (meets_load hg (ha x.1 hi) ⟨hg, rfl, by dsimp only; omega, hlt, fun j => ?_⟩)
      dsimp only
      by_cases hj : j = x.1
      · rw [hj, Function.update_self, if_pos (Nat.lt_succ_self x.1), (hs.1 x.1 hlt).1,
          List.getD_eq_getElem _ _ hlt]
      · rw [Function.update_of_ne hj, hx]
        exact if_congr (by omega) rfl rfl
  · rintro x t ⟨rfl, hr, hi, hx⟩
    rw [hend x.1 x.2 (by omega) hx]
    exact ⟨hg, hp⟩

lemma meets_memcpyFrom {buf : ℕ → Byte} {post : (ℕ → Byte) → World → Prop} (hg : good w)
    (ha : ∀ i < n, allowed (.load (addr p i)))
    (hp : post (fun j => if j < n then w.mem (addr p j) else buf j) w) :
    (Kernel.memcpyFrom buf p n).Meets (Transfer may) allowed good post w := by
  refine Prog.meets_iterate
    (fun r x t => t = w ∧ r + x.1 = n ∧ x.2 = fun j => if j < x.1 then w.mem (addr p j) else buf j)
    ?_ ?_ _ _ _ ⟨rfl, rfl, by simp⟩
  · rintro r x t ⟨rfl, hr, hx⟩
    refine Prog.Meets.bind (meets_load hg (ha x.1 (by omega)) ⟨hg, rfl, by dsimp only; omega, ?_⟩)
    funext j
    dsimp only
    by_cases hj : j = x.1
    · rw [hj, Function.update_self, if_pos (Nat.lt_succ_self x.1)]
    · rw [Function.update_of_ne hj, hx]
      exact if_congr (by omega) rfl rfl
  · rintro x t ⟨rfl, hr, hx⟩
    rw [zero_add] at hr
    rw [hx, hr]
    exact ⟨hg, hp⟩

lemma addr_sub (p : Word) {j : ℕ} (hj : j < 2 ^ 32) : (addr p j - p).toNat = j := by
  rw [addr, add_comm, BitVec.add_sub_cancel, BitVec.toNat_ofNat, Nat.mod_eq_of_lt hj]

lemma sub_addr {x : Word} {k : ℕ} (h : k ≤ (x - p).toNat) : (x - addr p k).toNat = (x - p).toNat - k := by
  have hlt := (x - p).isLt
  have hk : (BitVec.ofNat 32 k).toNat = k := by
    rw [BitVec.toNat_ofNat]
    omega
  rw [addr, show x - (p + BitVec.ofNat 32 k) = x - p - BitVec.ofNat 32 k by ring,
    BitVec.toNat_sub_of_le (BitVec.le_def.mpr (by omega)), hk]

lemma addr_lt {i m : ℕ} (h : p.toNat + i < m) (hm : m ≤ 2 ^ 32) : (addr p i).toNat < m := by
  rw [addr, BitVec.toNat_add, BitVec.toNat_ofNat]
  omega

lemma sub_lt_iff {x : Word} (h : p.toNat + n ≤ 2 ^ 32) :
    (x - p).toNat < n ↔ p.toNat ≤ x.toNat ∧ x.toNat < p.toNat + n := by
  have hx := x.isLt
  have hp := p.isLt
  rw [BitVec.toNat_sub]
  omega

@[simp] lemma blit_zero (mem : Word → Byte) (p : Word) (f : ℕ → Byte) : blit mem p 0 f = mem := by
  funext x
  rw [blit, if_neg (Nat.not_lt_zero _)]

lemma blit_succ (mem : Word → Byte) (p : Word) {j : ℕ} (hj : j < 2 ^ 32) (f : ℕ → Byte) :
    Function.update (blit mem p j f) (addr p j) (f j) = blit mem p (j + 1) f := by
  funext x
  by_cases hx : x = addr p j
  · rw [hx, Function.update_self, blit, addr_sub p hj, if_pos (Nat.lt_succ_self j)]
  · rw [Function.update_of_ne hx, blit, blit]
    have hne : (x - p).toNat ≠ j := by
      intro he
      apply hx
      rw [addr, ← he, BitVec.ofNat_toNat, BitVec.setWidth_eq, add_comm, BitVec.sub_add_cancel]
    exact if_congr (by omega) rfl rfl

lemma addr_zero (p : Word) : addr p 0 = p := BitVec.add_zero p

lemma addr_add (a : Word) (i j : ℕ) : addr (a + BitVec.ofNat 32 i) j = addr a (i + j) := by
  rw [addr, addr, BitVec.ofNat_add, BitVec.add_assoc]

lemma addr_addr (p : Word) (i j : ℕ) : addr (addr p i) j = addr p (i + j) := by
  rw [addr, addr, addr, BitVec.ofNat_add, add_assoc]

lemma addr_offset (p q : Word) (j : ℕ) : addr (p + q) j = addr p (q.toNat + j) := by
  rw [addr, addr, BitVec.ofNat_add, BitVec.ofNat_toNat, BitVec.setWidth_eq, add_assoc]

lemma blit_congr {mem : Word → Byte} {p : Word} {n : ℕ} {f g : ℕ → Byte} (h : ∀ j < n, f j = g j) :
    blit mem p n f = blit mem p n g := by
  funext x
  rw [blit, blit]
  split
  · rename_i hx
    exact h _ hx
  · rfl

lemma blit_append (mem : Word → Byte) (p : Word) {a b : ℕ} {f g : ℕ → Byte} (hab : a + b ≤ 2 ^ 32)
    (hg : ∀ j < b, g j = f (a + j)) :
    blit (blit mem p a f) (p + BitVec.ofNat 32 a) b g = blit mem p (a + b) f := by
  funext x
  rcases Nat.eq_zero_or_pos b with rfl | hb
  · rw [blit_zero, add_zero]
  have hd := (x - p).isLt
  have hshift : (x - (p + BitVec.ofNat 32 a)).toNat = (2 ^ 32 - a + (x - p).toNat) % 2 ^ 32 := by
    rw [show x - (p + BitVec.ofNat 32 a) = x - p - BitVec.ofNat 32 a by ring, BitVec.toNat_sub,
      BitVec.toNat_ofNat, Nat.mod_eq_of_lt (show a < 2 ^ 32 by omega)]
  simp only [blit, hshift]
  by_cases h₁ : (x - p).toNat < a
  · rw [if_neg (by omega), if_pos h₁, if_pos (by omega)]
  · have hmod : (2 ^ 32 - a + (x - p).toNat) % 2 ^ 32 = (x - p).toNat - a := by omega
    rw [hmod, if_neg h₁]
    by_cases h₂ : (x - p).toNat < a + b
    · rw [if_pos (by omega), if_pos h₂, hg _ (by omega), show a + ((x - p).toNat - a) = (x - p).toNat by omega]
    · rw [if_neg (by omega), if_neg h₂]

lemma put_nil (mem : Word → Byte) (p : Word) : put mem p [] = mem := blit_zero mem p _

lemma put_outside {mem : Word → Byte} {bytes : List Byte} {x : Word} (h : bytes.length ≤ (x - p).toNat) :
    put mem p bytes x = mem x := if_neg (not_lt.mpr h)

lemma put_inside {mem : Word → Byte} {bytes : List Byte} {x : Word} (h : (x - p).toNat < bytes.length) :
    put mem p bytes x = bytes.getD (x - p).toNat 0 := if_pos h

lemma put_at {mem : Word → Byte} {bytes : List Byte} {i : ℕ} (hi : i < bytes.length) (hlen : bytes.length ≤ 2 ^ 32) :
    put mem p bytes (addr p i) = bytes.getD i 0 := by
  have hsub := addr_sub p (show i < 2 ^ 32 by omega)
  rw [put_inside (by rw [hsub]; exact hi), hsub]

lemma put_singleton (mem : Word → Byte) (p : Word) (b : Byte) : put mem p [b] = Function.update mem p b := by
  have h := blit_succ mem p (show 0 < 2 ^ 32 by decide) fun j => [b].getD j 0
  rw [blit_zero, addr_zero] at h
  exact h.symm

lemma put_append (mem : Word → Byte) {p q : Word} {xs ys : List Byte} (hq : q = addr p xs.length)
    (h : xs.length + ys.length ≤ 2 ^ 32) : put (put mem p xs) q ys = put mem p (xs ++ ys) := by
  have hxs : put mem p xs = blit mem p xs.length fun j => (xs ++ ys).getD j 0 :=
    blit_congr fun j hj => (List.getD_append xs ys 0 j hj).symm
  rw [hxs, put, put, List.length_append, hq]
  refine blit_append mem p h fun j hj => ?_
  rw [List.getD_append_right _ _ _ _ (Nat.le_add_right _ _), Nat.add_sub_cancel_left]

lemma put_comm (mem : Word → Byte) {p q : Word} {xs ys : List Byte}
    (h : ∀ x, (x - p).toNat < xs.length → ys.length ≤ (x - q).toNat) :
    put (put mem p xs) q ys = put (put mem q ys) p xs := by
  funext x
  by_cases hx : (x - p).toNat < xs.length
  · rw [put_outside (h x hx), put_inside hx, put_inside hx]
  · rw [put_outside (p := p) (not_lt.mp hx)]
    by_cases hy : (x - q).toNat < ys.length
    · rw [put_inside hy, put_inside hy]
    · rw [put_outside (not_lt.mp hy), put_outside (not_lt.mp hy), put_outside (not_lt.mp hx)]

lemma put_prepend (mem : Word → Byte) {p q : Word} {xs ys : List Byte} (hq : q = addr p xs.length)
    (h : xs.length + ys.length ≤ 2 ^ 32) : put (put mem q ys) p xs = put mem p (xs ++ ys) := by
  rw [← put_append mem hq h, put_comm]
  intro x hx
  have hsub : (x - p).toNat = (xs.length + (x - q).toNat) % 2 ^ 32 := by
    rw [show x - p = x - q + BitVec.ofNat 32 xs.length by rw [hq, addr]; ring, BitVec.toNat_add,
      BitVec.toNat_ofNat]
    omega
  have hlt := (x - q).isLt
  omega

lemma meets_store_blit {buf : ℕ → Byte} {i : ℕ} {post : Unit → World → Prop} (hi : i < 2 ^ 32)
    (hg : ∀ j ≤ i + 1, good { w with mem := blit w.mem p j buf }) (ha : allowed (.store (addr p i) (buf i)))
    (hp : post () { w with mem := blit w.mem p (i + 1) buf }) :
    (store (addr p i) (buf i)).Meets (Transfer may) allowed good post
      { w with mem := blit w.mem p i buf } := by
  have hset : ({ w with mem := blit w.mem p i buf } : World).setMem (addr p i) (buf i) =
      { w with mem := blit w.mem p (i + 1) buf } := by
    rw [World.setMem, ← blit_succ w.mem p hi]
  refine meets_store (hg i (Nat.le_succ i)) ha ?_ ?_
  · rw [hset]
    exact hg (i + 1) le_rfl
  · rw [hset]
    exact hp

lemma meets_memcpyTo {buf : ℕ → Byte} {post : Unit → World → Prop} (hn : n ≤ 2 ^ 32)
    (hg : ∀ i ≤ n, good { w with mem := blit w.mem p i buf })
    (ha : ∀ i < n, allowed (.store (addr p i) (buf i)))
    (hp : post () { w with mem := blit w.mem p n buf }) :
    (Kernel.memcpyTo p buf n).Meets (Transfer may) allowed good post w := by
  refine Prog.meets_iterate
    (fun r i t => r + i = n ∧ t = { w with mem := blit w.mem p i buf }) ?_ ?_ _ _ _ ⟨rfl, ?_⟩
  · rintro r i t ⟨hr, rfl⟩
    exact Prog.Meets.bind (meets_store_blit (by omega) (fun j hj => hg j (by omega)) (ha i (by omega))
      ⟨hg (i + 1) (by omega), by omega, rfl⟩)
  · rintro i t ⟨hr, rfl⟩
    rw [zero_add] at hr
    subst hr
    exact ⟨hg i le_rfl, hp⟩
  · rw [blit_zero]

lemma wordBytes_length (v : Word) : (wordBytes v).length = 4 := rfl

lemma meets_store32 {v : Word} {post : Unit → World → Prop}
    (hg : ∀ i ≤ 4, good { w with mem := blit w.mem p i (byteOf v) }) (ha : ∀ i < 4, ∀ b, allowed (.store (addr p i) b))
    (hp : post () { w with mem := put w.mem p (wordBytes v) }) :
    (Kernel.store32 p v).Meets (Transfer may) allowed good post w := by
  refine meets_memcpyTo (by decide) hg (fun i hi => ha i hi _) ?_
  have hput : blit w.mem p 4 (byteOf v) = put w.mem p (wordBytes v) := blit_congr fun j hj => by
    rw [wordBytes, List.getD_eq_getElem _ _ (by simpa using hj), List.getElem_map, List.getElem_range]
  rw [hput]
  exact hp

lemma meets_memcpy {dst src : Word} {post : Unit → World → Prop} (hn : n ≤ 2 ^ 32)
    (hg : ∀ i ≤ n, good { w with mem := blit w.mem dst i fun j => w.mem (addr src j) })
    (hload : ∀ i < n, allowed (.load (addr src i))) (hstore : ∀ i < n, ∀ b, allowed (.store (addr dst i) b))
    (hsep : ∀ i < n, n ≤ (addr src i - dst).toNat)
    (hp : post () { w with mem := blit w.mem dst n fun j => w.mem (addr src j) }) :
    (Kernel.memcpy dst src n).Meets (Transfer may) allowed good post w := by
  refine Prog.meets_iterate
    (fun r i t => r + i = n ∧ t = { w with mem := blit w.mem dst i fun j => w.mem (addr src j) }) ?_ ?_ _ _ _
    ⟨rfl, by rw [blit_zero]⟩
  · rintro r i t ⟨hr, rfl⟩
    have hread : blit w.mem dst i (fun j => w.mem (addr src j)) (addr src i) = w.mem (addr src i) := by
      have := hsep i (by omega)
      rw [blit, if_neg (by omega)]
    refine Prog.Meets.bind (meets_load (hg i (by omega)) (hload i (by omega)) ?_)
    dsimp only
    rw [hread]
    exact Prog.Meets.bind (meets_store_blit (by omega) (fun j hj => hg j (by omega)) (hstore i (by omega) _)
      ⟨hg (i + 1) (by omega), by omega, rfl⟩)
  · rintro i t ⟨hr, rfl⟩
    rw [zero_add] at hr
    subst hr
    exact ⟨hg i le_rfl, hp⟩

end

end PyroOS
