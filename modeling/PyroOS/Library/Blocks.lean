import Mathlib.Data.List.Chain
import Mathlib.Data.Set.Insert
import Mathlib.Tactic.SplitIfs

/-! Lists of blocks in the order of their addresses. Each block is a header of `hdr` bytes and a payload. -/

namespace FreeList

structure Block where
  addr : ℕ
  size : ℕ
  free : Bool
  deriving DecidableEq

def Tiles (hdr : ℕ) : ℕ → ℕ → List Block → Prop
  | lo, hi, [] => lo = hi
  | lo, hi, b :: bs => b.addr = lo ∧ Tiles hdr (lo + hdr + b.size) hi bs

def Spread (hdr : ℕ) : ℕ → ℕ → List Block → Prop
  | lo, hi, [] => lo ≤ hi
  | lo, hi, b :: bs => lo ≤ b.addr ∧ Spread hdr (b.addr + hdr + b.size) hi bs

variable {hdr lo hi room : ℕ} {b c : Block} {bs xs ys pre mid new post : List Block}

/-! ### Blocks in order -/

namespace Spread

lemma le (h : Spread hdr lo hi bs) : lo ≤ hi := by
  induction bs generalizing lo with
  | nil => exact h
  | cons b bs ih =>
    have hle := ih h.2
    have haddr := h.1
    omega

lemma mono {lo' hi' : ℕ} (h : Spread hdr lo hi bs) (hlo : lo' ≤ lo) (hhi : hi ≤ hi') : Spread hdr lo' hi' bs := by
  induction bs generalizing lo lo' with
  | nil => exact (hlo.trans h).trans hhi
  | cons b bs ih => exact ⟨hlo.trans h.1, ih h.2 le_rfl⟩

end Spread

lemma spread_append : Spread hdr lo hi (xs ++ ys) ↔ ∃ k, Spread hdr lo k xs ∧ Spread hdr k hi ys := by
  induction xs generalizing lo with
  | nil => exact ⟨fun h => ⟨lo, le_refl lo, h⟩, fun ⟨k, h₁, h₂⟩ => h₂.mono h₁ le_rfl⟩
  | cons b xs ih =>
    simp only [List.cons_append, Spread, ih]
    constructor
    · rintro ⟨h₁, k, h₂, h₃⟩
      exact ⟨k, ⟨h₁, h₂⟩, h₃⟩
    · rintro ⟨k, ⟨h₁, h₂⟩, h₃⟩
      exact ⟨h₁, k, h₂, h₃⟩

namespace Spread

lemma bounds (h : Spread hdr lo hi bs) (hb : b ∈ bs) : lo ≤ b.addr ∧ b.addr + hdr + b.size ≤ hi := by
  induction bs generalizing lo with
  | nil => cases hb
  | cons c bs ih =>
    obtain ⟨hc, ht⟩ := h
    rcases List.mem_cons.mp hb with rfl | hb
    · exact ⟨hc, ht.le⟩
    · have hle := ih ht hb
      omega

lemma apart (h : Spread hdr lo hi bs) (hb : b ∈ bs) (hc : c ∈ bs) :
    b = c ∨ b.addr + hdr + b.size ≤ c.addr ∨ c.addr + hdr + c.size ≤ b.addr := by
  induction bs generalizing lo with
  | nil => cases hb
  | cons d bs ih =>
    obtain ⟨-, ht⟩ := h
    rcases List.mem_cons.mp hb with rfl | hb' <;> rcases List.mem_cons.mp hc with rfl | hc'
    · exact .inl rfl
    · exact .inr (.inl (ht.bounds hc').1)
    · exact .inr (.inr (ht.bounds hb').1)
    · exact ih ht hb' hc'

lemma sorted (h : Spread hdr lo hi bs) (hh : 0 < hdr) : bs.Pairwise (·.addr < ·.addr) := by
  induction bs generalizing lo with
  | nil => exact .nil
  | cons b bs ih =>
    refine .cons (fun c hc => ?_) (ih h.2)
    have hle := (h.2.bounds hc).1
    omega

lemma length_le (h : Spread hdr lo hi bs) : lo + bs.length * hdr ≤ hi := by
  induction bs generalizing lo with
  | nil => simpa using h.le
  | cons b bs ih =>
    have hle := ih h.2
    have haddr := h.1
    rw [List.length_cons, Nat.succ_mul]
    omega

lemma addr_ne (h : Spread hdr lo hi (pre ++ ([b] ++ post))) (hh : 0 < hdr) (hc : c ∈ pre ++ post) : c.addr ≠ b.addr := by
  obtain ⟨-, hrest, hpre⟩ := List.pairwise_append.mp (h.sorted hh)
  rcases List.mem_append.mp hc with hc | hc
  · exact (hpre c hc b (by simp)).ne
  · exact ((List.pairwise_cons.mp hrest).1 c hc).ne'

lemma concat {n : ℕ} {f : Bool} (h : Spread hdr lo hi bs) : Spread hdr lo (hi + hdr + n) (bs ++ [⟨hi, n, f⟩]) :=
  spread_append.mpr ⟨hi, h, le_refl hi, le_refl (hi + hdr + n)⟩

end Spread

lemma tiles_append : Tiles hdr lo hi (xs ++ ys) ↔ ∃ k, Tiles hdr lo k xs ∧ Tiles hdr k hi ys := by
  induction xs generalizing lo with
  | nil => exact ⟨fun h => ⟨lo, rfl, h⟩, fun ⟨y, h₁, h₂⟩ => h₁ ▸ h₂⟩
  | cons b xs ih =>
    simp only [List.cons_append, Tiles, ih]
    constructor
    · rintro ⟨h₁, k, h₂, h₃⟩
      exact ⟨k, ⟨h₁, h₂⟩, h₃⟩
    · rintro ⟨k, ⟨h₁, h₂⟩, h₃⟩
      exact ⟨h₁, k, h₂, h₃⟩

namespace Tiles

lemma spread (h : Tiles hdr lo hi bs) : Spread hdr lo hi bs := by
  induction bs generalizing lo with
  | nil => exact le_of_eq h
  | cons b bs ih =>
    obtain ⟨rfl, ht⟩ := h
    exact ⟨le_rfl, ih ht⟩

lemma le (h : Tiles hdr lo hi bs) : lo ≤ hi := h.spread.le

lemma bounds (h : Tiles hdr lo hi bs) (hb : b ∈ bs) : lo ≤ b.addr ∧ b.addr + hdr + b.size ≤ hi := h.spread.bounds hb

lemma apart (h : Tiles hdr lo hi bs) (hb : b ∈ bs) (hc : c ∈ bs) :
    b = c ∨ b.addr + hdr + b.size ≤ c.addr ∨ c.addr + hdr + c.size ≤ b.addr := h.spread.apart hb hc

lemma dvd_addr {u : ℕ} (h : Tiles hdr lo hi bs) (hlo : u ∣ lo) (hh : u ∣ hdr) (hs : ∀ b ∈ bs, u ∣ b.size) :
    ∀ b ∈ bs, u ∣ b.addr := by
  induction bs generalizing lo with
  | nil => exact fun b hb => by cases hb
  | cons b bs ih =>
    obtain ⟨hb, hbs⟩ := List.forall_mem_cons.mp hs
    exact List.forall_mem_cons.mpr ⟨h.1 ▸ hlo, ih h.2 (Nat.dvd_add (Nat.dvd_add hlo hh) hb) hbs⟩

lemma addr_ne (h : Tiles hdr lo hi (pre ++ ([b] ++ post))) (hh : 0 < hdr) (hc : c ∈ pre ++ post) : c.addr ≠ b.addr :=
  h.spread.addr_ne hh hc

lemma concat {n : ℕ} {f : Bool} (h : Tiles hdr lo hi bs) : Tiles hdr lo (hi + hdr + n) (bs ++ [⟨hi, n, f⟩]) :=
  tiles_append.mpr ⟨hi, h, rfl, rfl⟩

lemma replace (h : Tiles hdr lo hi (pre ++ (mid ++ post))) (hnew : ∀ l k, Tiles hdr l k mid → Tiles hdr l k new) :
    Tiles hdr lo hi (pre ++ (new ++ post)) := by
  obtain ⟨l, hpre, hrest⟩ := tiles_append.mp h
  obtain ⟨k, hmid, hpost⟩ := tiles_append.mp hrest
  exact tiles_append.mpr ⟨l, hpre, tiles_append.mpr ⟨k, hnew l k hmid, hpost⟩⟩

end Tiles

/-! ### Blocks that are given out -/

def fits (n : ℕ) (b : Block) : Prop := b.free = true ∧ n ≤ b.size

def cut (hdr room n : ℕ) (b : Block) : List Block :=
  if n + hdr + room ≤ b.size then
    [⟨b.addr, n, false⟩, ⟨b.addr + hdr + n, b.size - n - hdr, true⟩]
  else [{ b with free := false }]

lemma cut_used {room : ℕ} {k : ℕ} (hc : c ∈ cut hdr room k b) (hf : c.free = false) : c.addr = b.addr := by
  rw [cut] at hc
  split at hc
  · rcases List.mem_cons.mp hc with rfl | hc
    · rfl
    · rw [List.mem_singleton.mp hc] at hf
      cases hf
  · rw [List.mem_singleton.mp hc]

lemma exists_used {k : ℕ} (hdr room : ℕ) (hk : k ≤ b.size) :
    ∃ c ∈ cut hdr room k b, c.free = false ∧ c.addr = b.addr ∧ k ≤ c.size := by
  rw [cut]
  split
  · exact ⟨_, List.mem_cons_self, rfl, rfl, le_rfl⟩
  · exact ⟨_, List.mem_cons_self, rfl, rfl, hk⟩

lemma dvd_cut {room k u : ℕ} (hu : u ∣ hdr) (hk : u ∣ k) (hb : u ∣ b.size) (hc : c ∈ cut hdr room k b) : u ∣ c.size := by
  rw [cut] at hc
  split at hc
  · rcases List.mem_cons.mp hc with rfl | hc
    · exact hk
    · rw [List.mem_singleton.mp hc]
      exact Nat.dvd_sub (Nat.dvd_sub hb hk) hu
  · rw [List.mem_singleton.mp hc]
    exact hb

def join (hdr : ℕ) (b : Block) : List Block → List Block
  | [] => [b]
  | c :: bs => if b.free ∧ c.free then ⟨b.addr, b.size + (hdr + c.size), b.free⟩ :: bs else b :: c :: bs

def joined (hdr : ℕ) : List Block → List Block
  | [] => []
  | b :: bs => join hdr b (joined hdr bs)

lemma joined_cons_cons (hb : b.free = true) (hc : c.free = true) :
    joined hdr (⟨b.addr, b.size + (hdr + c.size), b.free⟩ :: bs) = joined hdr (b :: c :: bs) := by
  simp only [joined]
  cases joined hdr bs with
  | nil => simp [join, hb, hc]
  | cons d ds =>
    by_cases hd : d.free = true
    · simp [join, hb, hc, hd, Nat.add_assoc]
    · simp [join, hb, hc, hd]

lemma joined_head (hdr : ℕ) (c : Block) (bs : List Block) :
    ∃ d ds, joined hdr (c :: bs) = d :: ds ∧ d.addr = c.addr ∧ d.free = c.free := by
  rw [joined]
  cases joined hdr bs with
  | nil => exact ⟨_, _, rfl, rfl, rfl⟩
  | cons d ds =>
    rw [join]
    split <;> exact ⟨_, _, rfl, rfl, rfl⟩

lemma joined_of_ne (h : ¬ (b.free = true ∧ c.free = true)) : joined hdr (b :: c :: bs) = b :: joined hdr (c :: bs) := by
  obtain ⟨d, ds, hd, -, hfree⟩ := joined_head hdr c bs
  rw [joined, hd, join, if_neg (by rwa [hfree])]

lemma mem_join (hf : c.free = false) : c ∈ join hdr b bs ↔ c ∈ b :: bs := by
  cases bs with
  | nil => exact Iff.rfl
  | cons d ds =>
    rw [join]
    split
    · rename_i h
      have hb : c ≠ b := fun heq => by simp [heq, h.1] at hf
      have hd : c ≠ d := fun heq => by simp [heq, h.2] at hf
      have hm : c ≠ ⟨b.addr, b.size + (hdr + d.size), b.free⟩ := fun heq => by simp [heq, h.1] at hf
      simp [hb, hd, hm]
    · exact Iff.rfl

lemma mem_joined (hf : c.free = false) : c ∈ joined hdr bs ↔ c ∈ bs := by
  induction bs with
  | nil => exact Iff.rfl
  | cons b bs ih => rw [joined, mem_join hf, List.mem_cons, List.mem_cons, ih]

lemma dvd_join {u : ℕ} (hu : u ∣ hdr) (hb : u ∣ b.size) (h : ∀ c ∈ bs, u ∣ c.size) : ∀ c ∈ join hdr b bs, u ∣ c.size := by
  cases bs with
  | nil => exact List.forall_mem_cons.mpr ⟨hb, h⟩
  | cons d ds =>
    obtain ⟨hd, hds⟩ := List.forall_mem_cons.mp h
    rw [join]
    split
    · exact List.forall_mem_cons.mpr ⟨Nat.dvd_add hb (Nat.dvd_add hu hd), hds⟩
    · exact List.forall_mem_cons.mpr ⟨hb, h⟩

lemma dvd_joined {u : ℕ} (hu : u ∣ hdr) (h : ∀ b ∈ bs, u ∣ b.size) : ∀ c ∈ joined hdr bs, u ∣ c.size := by
  induction bs with
  | nil => exact h
  | cons b bs ih =>
    obtain ⟨hb, hbs⟩ := List.forall_mem_cons.mp h
    exact dvd_join hu hb (ih hbs)

lemma Tiles.cut {n : ℕ} (h : Tiles hdr lo hi [b]) : Tiles hdr lo hi (cut hdr room n b) := by
  obtain ⟨haddr, hend⟩ : b.addr = lo ∧ lo + hdr + b.size = hi := h
  rw [FreeList.cut]
  split
  · simp only [Tiles]
    omega
  · exact ⟨haddr, hend⟩

lemma Tiles.join (h : Tiles hdr lo hi (b :: bs)) : Tiles hdr lo hi (join hdr b bs) := by
  cases bs with
  | nil => exact h
  | cons c bs =>
    obtain ⟨hb, hc, ht⟩ := h
    rw [FreeList.join]
    split
    · refine ⟨hb, ?_⟩
      rwa [← Nat.add_assoc, ← Nat.add_assoc]
    · exact ⟨hb, hc, ht⟩

lemma Tiles.joined (h : Tiles hdr lo hi bs) : Tiles hdr lo hi (joined hdr bs) := by
  induction bs generalizing lo with
  | nil => exact h
  | cons b bs ih =>
    have hb : Tiles hdr lo hi (b :: FreeList.joined hdr bs) := ⟨h.1, ih h.2⟩
    exact hb.join

lemma Spread.join (h : Spread hdr lo hi (b :: bs)) : Spread hdr lo hi (join hdr b bs) := by
  cases bs with
  | nil => exact h
  | cons c bs =>
    obtain ⟨hb, hc, ht⟩ := h
    rw [FreeList.join]
    split
    · refine ⟨hb, ht.mono ?_ le_rfl⟩
      dsimp only
      omega
    · exact ⟨hb, hc, ht⟩

lemma Spread.joined (h : Spread hdr lo hi bs) : Spread hdr lo hi (joined hdr bs) := by
  induction bs generalizing lo with
  | nil => exact h
  | cons b bs ih =>
    have hb : Spread hdr lo hi (b :: FreeList.joined hdr bs) := ⟨h.1, ih h.2⟩
    exact hb.join

/-! ### The bytes of a list -/

def freeBytes : List Block → ℕ
  | [] => 0
  | b :: bs => (if b.free then b.size else 0) + freeBytes bs

lemma freeBytes_append : freeBytes (xs ++ ys) = freeBytes xs + freeBytes ys := by
  induction xs with
  | nil => simp [freeBytes]
  | cons b xs ih => simp only [List.cons_append, freeBytes, ih, Nat.add_assoc]

lemma freeBytes_cut {n : ℕ} (hb : b.free = true) (hn : 0 < n) (hle : n ≤ b.size) :
    freeBytes (cut hdr room n b) < freeBytes [b] := by
  rw [cut]
  split
  · simp [freeBytes, hb]
    omega
  · simp [freeBytes, hb]
    omega

def area (hdr : ℕ) (bs : List Block) : Set ℕ := {a | ∃ b ∈ bs, b.addr ≤ a ∧ a < b.addr + hdr + b.size}

lemma mem_area_singleton {a : ℕ} : a ∈ area hdr [b] ↔ b.addr ≤ a ∧ a < b.addr + hdr + b.size := by
  simp [area]

lemma area_append : area hdr (xs ++ ys) = area hdr xs ∪ area hdr ys := by
  ext a
  simp only [area, List.mem_append, Set.mem_ofPred_eq, Set.mem_union, or_and_right, exists_or]

lemma area_cons : area hdr (b :: bs) = area hdr [b] ∪ area hdr bs := by rw [← area_append, List.singleton_append]

lemma area_singleton (f : Bool) : area hdr [{ b with free := f }] = area hdr [b] := by
  ext a
  rw [mem_area_singleton, mem_area_singleton]

lemma area_mark (f : Bool) : area hdr (pre ++ ([{ b with free := f }] ++ post)) = area hdr (pre ++ ([b] ++ post)) := by
  rw [area_append, area_append, area_singleton, ← area_append, ← area_append]

lemma area_cut {n : ℕ} (hn : n ≤ b.size) : area hdr (cut hdr room n b) = area hdr [b] := by
  rw [cut]
  split
  · rw [area_cons]
    ext a
    simp only [Set.mem_union, mem_area_singleton]
    omega
  · exact area_singleton false

def Touching (hdr : ℕ) (bs : List Block) : Prop :=
  bs.IsChain fun b c => b.free = true → c.free = true → b.addr + hdr + b.size = c.addr

lemma Touching.area_joined (h : Touching hdr bs) : area hdr (joined hdr bs) = area hdr bs := by
  induction bs with
  | nil => rfl
  | cons b bs ih =>
    obtain ⟨hhead, hbs⟩ := List.isChain_cons.mp h
    rw [area_cons, ← ih hbs, joined]
    cases bs with
    | nil => rw [joined, join, ← area_cons]
    | cons c bs =>
      obtain ⟨d, ds, hd, haddr, hfree⟩ := joined_head hdr c bs
      rw [hd, join]
      split
      · rename_i hbd
        have hend := hhead c rfl hbd.1 (hfree ▸ hbd.2)
        rw [area_cons, area_cons (b := d), ← Set.union_assoc]
        congr 1
        ext a
        simp only [Set.mem_union, mem_area_singleton]
        omega
      · rw [area_cons]

lemma Spread.exists_gap (h : Spread hdr lo hi bs) (hh : 0 < hdr) (hgap : ¬ Touching hdr bs) :
    ∃ d ∈ FreeList.joined hdr bs, d.free = true ∧ ∃ a, d.addr + hdr ≤ a ∧ a < d.addr + hdr + d.size ∧
      a ∉ area hdr bs := by
  induction bs generalizing lo with
  | nil => exact (hgap .nil).elim
  | cons b bs ih =>
    cases bs with
    | nil => exact (hgap (.singleton b)).elim
    | cons c bs =>
      obtain ⟨-, ht⟩ := h
      have htj := ht.joined
      obtain ⟨e, es, he, haddr, hfree⟩ := joined_head hdr c bs
      rw [FreeList.joined, he]
      rw [he] at htj ih
      -- the first byte behind `b`, if `b` is joined with its successor across a gap
      have hfirst : b.free = true → c.free = true → b.addr + hdr + b.size ≠ c.addr →
          ∃ d ∈ FreeList.join hdr b (e :: es), d.free = true ∧
            ∃ a, d.addr + hdr ≤ a ∧ a < d.addr + hdr + d.size ∧ a ∉ area hdr (b :: c :: bs) := by
        intro hb hc hne
        rw [FreeList.join, if_pos ⟨hb, hfree.trans hc⟩]
        refine ⟨_, List.mem_cons_self, hb, b.addr + hdr + b.size, by simp only; omega, by simp only; omega, ?_⟩
        rintro ⟨d, hd, hle, hlt⟩
        rcases List.mem_cons.mp hd with rfl | hd
        · omega
        · have hcaddr := ht.1
          rcases List.mem_cons.mp hd with rfl | hd
          · omega
          · have hd' := (ht.2.bounds hd).1
            omega
      by_cases hbc : b.free = true ∧ c.free = true ∧ b.addr + hdr + b.size ≠ c.addr
      · exact hfirst hbc.1 hbc.2.1 hbc.2.2
      · have hrest : ¬ Touching hdr (c :: bs) := fun hc =>
          hgap (List.isChain_cons_cons.mpr ⟨fun h₁ h₂ => by_contra fun h₃ => hbc ⟨h₁, h₂, h₃⟩, hc⟩)
        obtain ⟨d, hd, hdfree, a, hle, hlt, hmem⟩ := ih ht hrest
        have hbelow := (htj.bounds hd).1
        have hout : a ∉ area hdr (b :: c :: bs) := by
          rw [area_cons, Set.mem_union, mem_area_singleton]
          rintro (hb | hb)
          · omega
          · exact hmem hb
        rw [FreeList.join]
        split
        · rename_i hbe
          have hend : b.addr + hdr + b.size = c.addr := by_contra fun hne => hbc ⟨hbe.1, hfree ▸ hbe.2, hne⟩
          rcases List.mem_cons.mp hd with rfl | hd
          · exact ⟨_, List.mem_cons_self, hbe.1, a, by simp only; omega, by simp only; omega, hout⟩
          · exact ⟨d, List.mem_cons_of_mem _ hd, hdfree, a, hle, hlt, hout⟩
        · exact ⟨d, List.mem_cons_of_mem _ hd, hdfree, a, hle, hlt, hout⟩

end FreeList
