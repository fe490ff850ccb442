import PyroOS.Library.Blocks
import PyroOS.Library.ByteMemory

/-! First-fit free lists that are threaded through the memory they manage. A header holds the size of its block, a
flag and the address of the next header in its first three words. -/

namespace FreeList

open ByteMemory

def flag (f : Bool) : BitVec 32 := if f then 1 else 0

def Seg (m : Mem) : BitVec 32 → List Block → BitVec 32 → Prop
  | x, [], z => x = z
  | x, b :: bs, z => x.toNat = b.addr ∧ (readWord m x).toNat = b.size ∧ readWord m (x + 4) = flag b.free ∧
      Seg m (readWord m (x + 8)) bs z

/-! ### The code -/

def headers : ℕ → Mem → BitVec 32 → Option (List Block)
  | 0, _, _ => none
  | n + 1, m, x =>
    if x = 0 then some []
    else (headers n m (readWord m (x + 8))).map (⟨x.toNat, (readWord m x).toNat, readWord m (x + 4) ≠ 0⟩ :: ·)

def seek (size : BitVec 32) : ℕ → Mem → BitVec 32 → Option (BitVec 32)
  | 0, _, _ => none
  | n + 1, m, x =>
    if x = 0 ∨ readWord m (x + 4) ≠ 0 ∧ size ≤ readWord m x then some x else seek size n m (readWord m (x + 8))

def carve (hdr : BitVec 32) (m : Mem) (x size : BitVec 32) : Mem :=
  let rest := x + hdr + size
  let m := writeWord m rest (readWord m x - size - hdr)
  let m := writeWord m (rest + 4) 1
  let m := writeWord m (rest + 8) (readWord m (x + 8))
  let m := writeWord m x size
  writeWord m (x + 8) rest

def allot (hdr room : BitVec 32) (m : Mem) (x size : BitVec 32) : Mem :=
  let m := if size + hdr + room ≤ readWord m x then carve hdr m x size else m
  writeWord m (x + 4) 0

def absorb (hdr : BitVec 32) (m : Mem) (x : BitVec 32) : Mem :=
  let m := writeWord m x (readWord m x + (hdr + readWord m (readWord m (x + 8))))
  writeWord m (x + 8) (readWord m (readWord m (x + 8) + 8))

def coalesce (hdr : BitVec 32) : ℕ → Mem → BitVec 32 → Option Mem
  | 0, _, _ => none
  | n + 1, m, x =>
    if x = 0 ∨ readWord m (x + 8) = 0 then some m
    else if readWord m (x + 4) ≠ 0 ∧ readWord m (readWord m (x + 8) + 4) ≠ 0 then coalesce hdr n (absorb hdr m x) x
    else coalesce hdr n m (readWord m (x + 8))

def lastBlock : ℕ → Mem → BitVec 32 → Option (BitVec 32)
  | 0, _, _ => none
  | n + 1, m, x => if readWord m (x + 8) = 0 then some x else lastBlock n m (readWord m (x + 8))

def newHeader (m : Mem) (x size : BitVec 32) : Mem := writeWord (writeWord (writeWord m x size) (x + 4) 0) (x + 8) 0

/-! ### Headers in memory -/

variable {hdr lo hi n : ℕ} {m m' : Mem} {x y z size : BitVec 32} {b c : Block} {bs xs ys pre mid new post : List Block}

lemma seg_append : Seg m x (xs ++ ys) z ↔ ∃ y, Seg m x xs y ∧ Seg m y ys z := by
  induction xs generalizing x with
  | nil => exact ⟨fun h => ⟨x, rfl, h⟩, fun ⟨y, h₁, h₂⟩ => h₁ ▸ h₂⟩
  | cons b xs ih =>
    simp only [List.cons_append, Seg, ih]
    constructor
    · rintro ⟨h₁, h₂, h₃, y, h₄, h₅⟩
      exact ⟨y, ⟨h₁, h₂, h₃, h₄⟩, h₅⟩
    · rintro ⟨y, ⟨h₁, h₂, h₃, h₄⟩, h₅⟩
      exact ⟨h₁, h₂, h₃, y, h₄, h₅⟩

lemma header_toNat (h : x.toNat + 12 ≤ 2 ^ 32) : (x + 4).toNat = x.toNat + 4 ∧ (x + 8).toNat = x.toNat + 8 := by
  constructor <;> bv_omega

lemma Seg.congr (h : Seg m x bs z) (hs : ∀ b ∈ bs, b.addr + 12 ≤ 2 ^ 32 ∧ Same b.addr (b.addr + 12) m m') :
    Seg m' x bs z := by
  induction bs generalizing x with
  | nil => exact h
  | cons b bs ih =>
    obtain ⟨h₁, h₂, h₃, h₄⟩ := h
    obtain ⟨⟨hhigh, hsame⟩, hbs⟩ := List.forall_mem_cons.mp hs
    obtain ⟨hx₄, hx₈⟩ := header_toNat (x := x) (by omega)
    have hread : ∀ a : BitVec 32, b.addr ≤ a.toNat → a.toNat + 4 ≤ b.addr + 12 → readWord m' a = readWord m a :=
      fun a ha ha' => hsame.read ha ha' hhigh
    rw [← hread x (by omega) (by omega)] at h₂
    rw [← hread (x + 4) (by omega) (by omega)] at h₃
    rw [← hread (x + 8) (by omega) (by omega)] at h₄
    exact ⟨h₁, h₂, h₃, ih h₄ hbs⟩

lemma Seg.frame (h : Seg m x bs z) (ht : Spread hdr lo hi bs) (hh : 12 ≤ hdr) (hhi : hi ≤ 2 ^ 32)
    (hs : Same lo hi m m') :
    Seg m' x bs z := by
  refine h.congr fun b hb => ?_
  have hbounds := ht.bounds hb
  exact ⟨by omega, hs.mono (by omega) (by omega)⟩

lemma flag_ne_zero (f : Bool) : flag f ≠ 0 ↔ f = true := by cases f <;> simp [flag]

structure Spaced (hdr lo hi : ℕ) (m : Mem) (x : BitVec 32) (bs : List Block) : Prop where
  seg : Seg m x bs 0
  spread : Spread hdr lo hi bs
  header : 12 ≤ hdr
  low : 0 < lo
  high : hi ≤ 2 ^ 32

namespace Spaced

lemma replace (h : Spaced hdr lo hi m x (pre ++ (mid ++ post)))
    (hstep : ∀ l k y z, lo ≤ l → k ≤ hi → Spread hdr l k mid → Seg m y mid z →
      Same 0 l m m' ∧ Same k (2 ^ 32) m m' ∧ Spread hdr l k new ∧ Seg m' y new z) :
    Spaced hdr lo hi m' x (pre ++ (new ++ post)) := by
  obtain ⟨l, htpre, htrest⟩ := spread_append.mp h.spread
  obtain ⟨k, htmid, htpost⟩ := spread_append.mp htrest
  obtain ⟨y, hpre, hrest⟩ := seg_append.mp h.seg
  obtain ⟨z, hmid, hpost⟩ := seg_append.mp hrest
  have hk := htpost.le
  have hl := htpre.le
  have hlk := htmid.le
  have hhigh := h.high
  obtain ⟨hbelow, habove, htnew, hnew⟩ := hstep l k y z hl hk htmid hmid
  refine ⟨seg_append.mpr ⟨y, ?_, seg_append.mpr ⟨z, hnew, ?_⟩⟩,
    spread_append.mpr ⟨l, htpre, spread_append.mpr ⟨k, htnew, htpost⟩⟩, h.header, h.low, h.high⟩
  · exact hpre.frame htpre h.header (by omega) (hbelow.mono (Nat.zero_le _) le_rfl)
  · exact hpost.frame htpost h.header hhigh (habove.mono le_rfl hhigh)

lemma outside (h : Spaced hdr lo hi m x bs)
    (hm : ∀ a, m' a ≠ m a → ∀ b ∈ bs, a.toNat < b.addr ∨ b.addr + hdr ≤ a.toNat) : Spaced hdr lo hi m' x bs := by
  refine ⟨h.seg.congr fun b hb => ?_, h.spread, h.header, h.low, h.high⟩
  have hbounds := h.spread.bounds hb
  have hh := h.header
  have hhigh := h.high
  refine ⟨by omega, fun a h₁ h₂ => by_contra fun hne => ?_⟩
  have ha := hm a hne b hb
  omega

lemma payload (h : Spaced hdr lo hi m x bs) (hb : b ∈ bs)
    (hm : ∀ a, m' a ≠ m a → b.addr + hdr ≤ a.toNat ∧ a.toNat < b.addr + hdr + b.size) : Spaced hdr lo hi m' x bs := by
  refine h.outside fun a ha c hc => ?_
  have hab := hm a ha
  rcases h.spread.apart hb hc with rfl | happart | happart <;> omega

lemma replace_block (h : Spaced hdr lo hi m x (pre ++ ([b] ++ post))) (hy : y.toNat = b.addr)
    (hstep : ∀ l k, lo ≤ l → l ≤ b.addr → b.addr + hdr + b.size ≤ k → k ≤ hi →
      (y + 4).toNat = y.toNat + 4 → (y + 8).toNat = y.toNat + 8 → (readWord m y).toNat = b.size →
      readWord m (y + 4) = flag b.free →
      Same 0 l m m' ∧ Same k (2 ^ 32) m m' ∧ Spread hdr l k new ∧ Seg m' y new (readWord m (y + 8))) :
    Spaced hdr lo hi m' x (pre ++ (new ++ post)) := by
  have hh := h.header
  have hhigh := h.high
  refine h.replace fun l k y' z hl hk ht hs => ?_
  obtain ⟨hl', hk'⟩ : l ≤ b.addr ∧ b.addr + hdr + b.size ≤ k := ht
  obtain ⟨h₁, h₂, h₃, rfl⟩ := hs
  obtain rfl : y' = y := BitVec.eq_of_toNat_eq (h₁.trans hy.symm)
  obtain ⟨hy₄, hy₈⟩ := header_toNat (x := y') (by omega)
  exact hstep l k hl hl' hk' hk hy₄ hy₈ h₂ h₃

lemma mark (h : Spaced hdr lo hi m x (pre ++ ([b] ++ post))) (hy : y.toNat = b.addr) (f : Bool) :
    Spaced hdr lo hi (writeWord m (y + 4) (flag f)) x (pre ++ ([{ b with free := f }] ++ post)) := by
  have hh := h.header
  have hhigh := h.high
  refine h.replace_block hy fun l k hl hl' hk' hk hy₄ hy₈ hsize hfree => ?_
  refine ⟨write_same _ (by omega) (by omega), write_same _ (by omega) (by omega), ⟨hl', hk'⟩, hy, ?_, ?_, ?_⟩
  · rw [read_write_other _ (by omega) (by omega) (by omega)]
    exact hsize
  · exact read_write _ _ _
  · exact read_write_other _ (by omega) (by omega) (by omega)

lemma carve {w : BitVec 32} (h : Spaced hdr lo hi m x (pre ++ ([b] ++ post))) (hy : y.toNat = b.addr)
    (hw : w.toNat = hdr) (hsize : size.toNat + hdr ≤ b.size) :
    Spaced hdr lo hi (carve w m y size) x
      (pre ++ ([⟨b.addr, size.toNat, b.free⟩, ⟨b.addr + hdr + size.toNat, b.size - size.toNat - hdr, true⟩] ++
        post)) := by
  have hh := h.header
  have hhigh := h.high
  refine h.replace_block hy fun l k hl hl' hk' hk hy₄ hy₈ h₂ h₃ => ?_
  have hrest : (y + w + size).toNat = b.addr + hdr + size.toNat := by
    rw [BitVec.toNat_add, BitVec.toNat_add, hw]
    omega
  have hleft : (readWord m y - size - w).toNat = b.size - size.toNat - hdr := by
    have hsub : (readWord m y - size).toNat = b.size - size.toNat := by
      rw [BitVec.toNat_sub_of_le (by rw [BitVec.le_def]; omega), h₂]
    rw [BitVec.toNat_sub_of_le (by rw [BitVec.le_def]; omega), hsub, hw]
  rw [FreeList.carve]
  generalize y + w + size = r at hrest ⊢
  obtain ⟨hr₄, hr₈⟩ := header_toNat (x := r) (by omega)
  have hnext : readWord (writeWord (writeWord m r (readWord m y - size - w)) (r + 4) 1) (y + 8) = readWord m (y + 8) := by
    rw [read_write_other _ (by omega) (by omega) (by omega), read_write_other _ (by omega) (by omega) (by omega)]
  refine ⟨?_, ?_, ?_, hy, ?_, ?_, ?_⟩
  · exact ((((write_same _ (by omega) (by omega)).trans (write_same _ (by omega) (by omega))).trans
      (write_same _ (by omega) (by omega))).trans (write_same _ (by omega) (by omega))).trans
      (write_same _ (by omega) (by omega))
  · exact ((((write_same _ (by omega) (by omega)).trans (write_same _ (by omega) (by omega))).trans
      (write_same _ (by omega) (by omega))).trans (write_same _ (by omega) (by omega))).trans
      (write_same _ (by omega) (by omega))
  · simp only [Spread]
    omega
  · rw [read_write_other _ (by omega) (by omega) (by omega), read_write]
  · rw [read_write_other _ (by omega) (by omega) (by omega), read_write_other _ (by omega) (by omega) (by omega),
      read_write_other _ (by omega) (by omega) (by omega), read_write_other _ (by omega) (by omega) (by omega),
      read_write_other _ (by omega) (by omega) (by omega)]
    exact h₃
  · rw [read_write]
    refine ⟨hrest, ?_, ?_, ?_⟩
    · rw [read_write_other _ (by omega) (by omega) (by omega), read_write_other _ (by omega) (by omega) (by omega),
        read_write_other _ (by omega) (by omega) (by omega), read_write_other _ (by omega) (by omega) (by omega),
          read_write]
      exact hleft
    · rw [read_write_other _ (by omega) (by omega) (by omega), read_write_other _ (by omega) (by omega) (by omega),
        read_write_other _ (by omega) (by omega) (by omega), read_write]
      rfl
    · exact (read_write_other _ (by omega) (by omega) (by omega)).trans
        ((read_write_other _ (by omega) (by omega) (by omega)).trans ((read_write _ _ _).trans hnext))

lemma allot {w v : BitVec 32} {room : ℕ} (h : Spaced hdr lo hi m x (pre ++ ([b] ++ post))) (hy : y.toNat = b.addr)
    (hw : w.toNat = hdr) (hv : v.toNat = room) (hfit : hi + room ≤ 2 ^ 32) (hsize : size.toNat ≤ b.size) :
    Spaced hdr lo hi (allot w v m y size) x (pre ++ (cut hdr room size.toNat b ++ post)) := by
  have hb := h.spread.bounds (b := b) (by simp)
  have hlow := h.low
  have hread : (readWord m y).toNat = b.size := by
    obtain ⟨y', -, hrest⟩ := seg_append.mp h.seg
    obtain ⟨h₁, h₂, -⟩ := hrest
    obtain rfl : y' = y := BitVec.eq_of_toNat_eq (h₁.trans hy.symm)
    exact h₂
  have hsum : (size + w + v).toNat = size.toNat + hdr + room := by
    rw [BitVec.toNat_add, BitVec.toNat_add, hw, hv]
    omega
  have htest : size + w + v ≤ readWord m y ↔ size.toNat + hdr + room ≤ b.size := by
    rw [BitVec.le_def, hsum, hread]
  rw [FreeList.allot, cut]
  by_cases hroom : size.toNat + hdr + room ≤ b.size
  · rw [if_pos (htest.mpr hroom), if_pos hroom]
    have hcut : Spaced hdr lo hi (FreeList.carve w m y size) x (pre ++ ([⟨b.addr, size.toNat, b.free⟩] ++
        (⟨b.addr + hdr + size.toNat, b.size - size.toNat - hdr, true⟩ :: post))) := h.carve hy hw (by omega)
    exact hcut.mark hy false
  · rw [if_neg (mt htest.mp hroom), if_neg hroom]
    exact h.mark hy false

lemma absorb {w : BitVec 32} (h : Spaced hdr lo hi m x (pre ++ ([b, c] ++ post))) (hy : y.toNat = b.addr)
    (hw : w.toNat = hdr) :
    Spaced hdr lo hi (absorb w m y) x (pre ++ ([⟨b.addr, b.size + (hdr + c.size), b.free⟩] ++ post)) := by
  have hh := h.header
  have hhigh := h.high
  have hlow := h.low
  refine h.replace fun l k y' z hl hk ht hs => ?_
  obtain ⟨hl', hc', hk'⟩ : l ≤ b.addr ∧ b.addr + hdr + b.size ≤ c.addr ∧ c.addr + hdr + c.size ≤ k := ht
  obtain ⟨h₁, h₂, h₃, h₄, h₅, h₆, h₇⟩ := hs
  obtain rfl : y' = y := BitVec.eq_of_toNat_eq (h₁.trans hy.symm)
  rw [FreeList.absorb]
  obtain ⟨hy₄, hy₈⟩ := header_toNat (x := y') (by omega)
  generalize hq : readWord m (y' + 8) = q at h₄ h₅ h₆ h₇ ⊢
  obtain ⟨hq₄, hq₈⟩ := header_toNat (x := q) (by omega)
  have hsize : (readWord m y' + (w + readWord m q)).toNat = b.size + (hdr + c.size) := by
    rw [BitVec.toNat_add, BitVec.toNat_add, hw, h₂, h₅]
    omega
  generalize readWord m y' + (w + readWord m q) = t at hsize ⊢
  have hlink : readWord (writeWord m y' t) (y' + 8) = q :=
    (read_write_other _ (by omega) (by omega) (by omega)).trans hq
  have hnext : readWord (writeWord m y' t) (q + 8) = z :=
    (read_write_other _ (by omega) (by omega) (by omega)).trans h₇
  rw [hlink, hnext]
  refine ⟨(write_same _ (by omega) (by omega)).trans (write_same _ (by omega) (by omega)),
    (write_same _ (by omega) (by omega)).trans (write_same _ (by omega) (by omega)), ?_, h₁, ?_, ?_, read_write _ _ _⟩
  · simp only [Spread]
    omega
  · rw [read_write_other _ (by omega) (by omega) (by omega), read_write]
    exact hsize
  · rw [read_write_other _ (by omega) (by omega) (by omega), read_write_other _ (by omega) (by omega) (by omega)]
    exact h₃

/-! ### Walks -/

lemma cons_ne_zero (h : Spaced hdr lo hi m x (b :: bs)) : x ≠ 0 := by
  rintro rfl
  have h₁ := h.seg.1
  have h₂ := h.spread.1
  have h₃ := h.low
  have h₄ : (0 : BitVec 32).toNat = 0 := rfl
  omega

lemma tail (h : Spaced hdr lo hi m x (b :: bs)) : Spaced hdr (b.addr + hdr + b.size) hi m (readWord m (x + 8)) bs :=
  ⟨h.seg.2.2.2, h.spread.2, h.header, by have h₁ := h.header; omega, h.high⟩

lemma headers_eq (h : Spaced hdr lo hi m x bs) (hn : bs.length < n) : headers n m x = some bs := by
  induction bs generalizing n x lo with
  | nil =>
    obtain ⟨n, rfl⟩ := Nat.exists_eq_add_one.mpr (Nat.zero_lt_of_lt hn)
    have hx : x = 0 := h.seg
    rw [headers, if_pos hx]
  | cons b bs ih =>
    obtain ⟨n, rfl⟩ := Nat.exists_eq_add_one.mpr (Nat.zero_lt_of_lt hn)
    obtain ⟨h₁, h₂, h₃, -⟩ := h.seg
    have hfree : decide (flag b.free ≠ 0) = b.free := by simp only [flag_ne_zero, Bool.decide_eq_true]
    rw [headers, if_neg h.cons_ne_zero, ih h.tail (by simpa using hn), h₁, h₂, h₃, hfree]
    rfl

lemma seek_cases (h : Spaced hdr lo hi m x bs) (hn : bs.length < n) (size : BitVec 32) :
    (seek size n m x = some 0 ∧ ∀ b ∈ bs, ¬ fits size.toNat b) ∨
    ∃ pre b post y, bs = pre ++ ([b] ++ post) ∧ (∀ c ∈ pre, ¬ fits size.toNat c) ∧ fits size.toNat b ∧
      seek size n m x = some y ∧ y.toNat = b.addr := by
  induction bs generalizing n x lo with
  | nil =>
    obtain ⟨n, rfl⟩ := Nat.exists_eq_add_one.mpr (Nat.zero_lt_of_lt hn)
    have hx : x = 0 := h.seg
    refine .inl ⟨?_, fun b hb => (by cases hb)⟩
    rw [seek, if_pos (.inl hx), hx]
  | cons b bs ih =>
    obtain ⟨n, rfl⟩ := Nat.exists_eq_add_one.mpr (Nat.zero_lt_of_lt hn)
    obtain ⟨h₁, h₂, h₃, -⟩ := h.seg
    have htest : (x = 0 ∨ readWord m (x + 4) ≠ 0 ∧ size ≤ readWord m x) ↔ fits size.toNat b := by
      rw [or_iff_right h.cons_ne_zero, h₃, flag_ne_zero, BitVec.le_def, h₂]
      exact Iff.rfl
    by_cases hfit : fits size.toNat b
    · exact .inr ⟨[], b, bs, x, rfl, fun c hc => (by cases hc), hfit, by rw [seek, if_pos (htest.mpr hfit)], h₁⟩
    · have hseek : seek size (n + 1) m x = seek size n m (readWord m (x + 8)) := by
        rw [seek, if_neg (mt htest.mp hfit)]
      rw [hseek]
      rcases ih h.tail (by simpa using hn) with ⟨hs, hnone⟩ | ⟨pre, c, post, y, rfl, hpre, hc, hs, hy⟩
      · exact .inl ⟨hs, List.forall_mem_cons.mpr ⟨hfit, hnone⟩⟩
      · exact .inr ⟨b :: pre, c, post, y, rfl, List.forall_mem_cons.mpr ⟨hfit, hpre⟩, hc, hs, hy⟩

lemma nil_iff (h : Spaced hdr lo hi m x (pre ++ bs)) (hy : Seg m y bs 0) : bs = [] ↔ y = 0 := by
  cases bs with
  | nil => exact ⟨fun _ => hy, fun _ => rfl⟩
  | cons b bs =>
    refine ⟨fun hbs => (by cases hbs), ?_⟩
    rintro rfl
    have hb := h.spread.bounds (b := b) (by simp)
    have hlow := h.low
    have h₁ := hy.1
    have h₀ : (0 : BitVec 32).toNat = 0 := rfl
    omega

lemma coalesce_spec {w : BitVec 32} (h : Spaced hdr lo hi m x (pre ++ bs)) (hw : w.toNat = hdr) (hy : Seg m y bs 0)
    (hn : bs.length < n) : ∃ m', coalesce w n m y = some m' ∧ Spaced hdr lo hi m' x (pre ++ joined hdr bs) := by
  induction n generalizing m y pre bs with
  | zero => omega
  | succ n ih =>
    have hzero := h.nil_iff hy
    match bs, hy, hn with
    | [], hy, hn =>
      rw [coalesce, if_pos (.inl hy)]
      exact ⟨m, rfl, h⟩
    | [b], hy, hn =>
      rw [coalesce, if_pos (.inr hy.2.2.2)]
      exact ⟨m, rfl, h⟩
    | b :: c :: bs, hy, hn =>
      obtain ⟨h₁, h₂, h₃, h₄⟩ := hy
      have hy₀ : y ≠ 0 := fun hy₀ => by cases hzero.mpr hy₀
      have hpost : Spaced hdr lo hi m x ((pre ++ [b]) ++ c :: bs) := by simpa using h
      have hnext : readWord m (y + 8) ≠ 0 := fun hn₀ => by cases (hpost.nil_iff h₄).mpr hn₀
      have htest : (readWord m (y + 4) ≠ 0 ∧ readWord m (readWord m (y + 8) + 4) ≠ 0) ↔ b.free = true ∧
        c.free = true := by
        rw [h₃, h₄.2.2.1, flag_ne_zero, flag_ne_zero]
      rw [coalesce, if_neg (by simp only [not_or]; exact ⟨hy₀, hnext⟩)]
      by_cases hfree : b.free = true ∧ c.free = true
      · rw [if_pos (htest.mpr hfree), ← joined_cons_cons hfree.1 hfree.2]
        have hpair : Spaced hdr lo hi m x (pre ++ ([b, c] ++ bs)) := h
        have habsorb := hpair.absorb h₁ hw
        obtain ⟨y', -, hseg⟩ := seg_append.mp habsorb.seg
        obtain rfl : y' = y := BitVec.eq_of_toNat_eq (hseg.1.trans h₁.symm)
        exact ih habsorb hseg (by simp only [List.length_cons] at hn ⊢; omega)
      · rw [if_neg (mt htest.mp hfree), joined_of_ne hfree]
        obtain ⟨m', hm', hheap⟩ := ih hpost h₄ (by simpa using hn)
        exact ⟨m', hm', by simpa using hheap⟩

lemma empty_iff (h : Spaced hdr lo hi m x bs) : bs = [] ↔ x = 0 := by
  have hall : Spaced hdr lo hi m x ([] ++ bs) := h
  exact hall.nil_iff h.seg

lemma coalesce_all {w : BitVec 32} (h : Spaced hdr lo hi m x bs) (hw : w.toNat = hdr) (hn : bs.length < n) :
    ∃ m', coalesce w n m x = some m' ∧ Spaced hdr lo hi m' x (joined hdr bs) := by
  have hall : Spaced hdr lo hi m x ([] ++ bs) := h
  exact hall.coalesce_spec hw h.seg hn

lemma lastBlock_spec (h : Spaced hdr lo hi m x (pre ++ [b])) (hn : pre.length < n) :
    ∃ y, lastBlock n m x = some y ∧ y.toNat = b.addr := by
  induction pre generalizing n x lo with
  | nil =>
    obtain ⟨n, rfl⟩ := Nat.exists_eq_add_one.mpr (Nat.zero_lt_of_lt hn)
    obtain ⟨h₁, -, -, h₄⟩ := h.seg
    have hlast : readWord m (x + 8) = 0 := h₄
    exact ⟨x, by rw [lastBlock, if_pos hlast], h₁⟩
  | cons c pre ih =>
    obtain ⟨n, rfl⟩ := Nat.exists_eq_add_one.mpr (Nat.zero_lt_of_lt hn)
    have htail : Spaced hdr (c.addr + hdr + c.size) hi m (readWord m (x + 8)) (pre ++ [b]) := h.tail
    have hne : readWord m (x + 8) ≠ 0 := by
      cases pre with
      | nil => exact htail.cons_ne_zero
      | cons d pre => exact htail.cons_ne_zero
    rw [lastBlock, if_neg hne]
    exact ih htail (by simpa using hn)

lemma newHeader_seg (m : Mem) (hx : x.toNat + 12 ≤ 2 ^ 32) :
    Seg (newHeader m x size) x [⟨x.toNat, size.toNat, false⟩] 0 := by
  obtain ⟨h₄, h₈⟩ := header_toNat hx
  refine ⟨rfl, ?_, ?_, read_write _ _ _⟩
  · rw [newHeader, read_write_other _ (by omega) (by omega) (by omega),
      read_write_other _ (by omega) (by omega) (by omega), read_write]
  · rw [newHeader, read_write_other _ (by omega) (by omega) (by omega), read_write]
    rfl

lemma behind (h : Spaced hdr lo hi m x bs) (hz : z.toNat = hi) (hfit : hi + 12 ≤ 2 ^ 32) (size : BitVec 32) :
    Spaced hdr lo hi (newHeader m z size) x bs := by
  obtain ⟨h₄, h₈⟩ := header_toNat (x := z) (by omega)
  have hsame : Same lo hi m (newHeader m z size) :=
    ((write_same _ (by omega) (by omega)).trans (write_same _ (by omega) (by omega))).trans
      (write_same _ (by omega) (by omega))
  exact ⟨h.seg.frame h.spread h.header h.high hsame, h.spread, h.header, h.low, h.high⟩

lemma first (h : Spaced hdr lo hi m x []) (hz : z.toNat = hi) (hfit : hi + hdr + size.toNat ≤ 2 ^ 32) :
    Spaced hdr lo (hi + hdr + size.toNat) (newHeader m z size) z [⟨hi, size.toNat, false⟩] := by
  have hh := h.header
  exact ⟨hz ▸ newHeader_seg m (by omega), h.spread.concat, h.header, h.low, hfit⟩

lemma extend (h : Spaced hdr lo hi m x (pre ++ [b])) (hy : y.toNat = b.addr) (hz : z.toNat = hi)
    (hfit : hi + hdr + size.toNat ≤ 2 ^ 32) :
    Spaced hdr lo (hi + hdr + size.toNat) (writeWord (newHeader m z size) (y + 8) z) x
      (pre ++ [b] ++ [⟨hi, size.toNat, false⟩]) := by
  have hh := h.header
  obtain ⟨l, htpre, hl, hend⟩ := spread_append.mp h.spread
  have hend : b.addr + hdr + b.size ≤ hi := hend
  have hpre' := htpre.le
  obtain ⟨hy₄, hy₈⟩ := header_toNat (x := y) (by omega)
  have hnew : Seg (newHeader m z size) z [⟨hi, size.toNat, false⟩] 0 := hz ▸ newHeader_seg m (by omega)
  have hold := (h.behind hz (by omega) size).seg
  generalize newHeader m z size = m₁ at hnew hold ⊢
  obtain ⟨y', hpre, h₁, h₂, h₃, h₄⟩ := seg_append.mp hold
  obtain rfl : y' = y := BitVec.eq_of_toNat_eq (h₁.trans hy.symm)
  have hpre₂ : Seg (writeWord m₁ (y' + 8) z) x pre y' :=
    hpre.frame htpre hh (by omega) (write_same _ (by omega) (by omega))
  have hb₂ : Seg (writeWord m₁ (y' + 8) z) y' [b] z := by
    refine ⟨h₁, ?_, ?_, read_write _ _ _⟩
    · rwa [read_write_other _ (by omega) (by omega) (by omega)]
    · rwa [read_write_other _ (by omega) (by omega) (by omega)]
  have htnew : Spread hdr hi (hi + hdr + size.toNat) [⟨hi, size.toNat, false⟩] :=
    ⟨le_refl hi, le_refl (hi + hdr + size.toNat)⟩
  have hnew₂ := hnew.frame htnew hh hfit (write_same (a := y' + 8) z (by omega) (by omega))
  exact ⟨seg_append.mpr ⟨z, seg_append.mpr ⟨y', hpre₂, hb₂⟩, hnew₂⟩, h.spread.concat, hh, h.low, hfit⟩

end Spaced

/-! ### Lists without gaps -/

structure Heap (hdr lo hi : ℕ) (m : Mem) (x : BitVec 32) (bs : List Block) : Prop where
  seg : Seg m x bs 0
  tiles : Tiles hdr lo hi bs
  header : 12 ≤ hdr
  low : 0 < lo
  high : hi ≤ 2 ^ 32

namespace Heap

lemma spaced (h : Heap hdr lo hi m x bs) : Spaced hdr lo hi m x bs := ⟨h.seg, h.tiles.spread, h.header, h.low, h.high⟩

lemma of_spaced (h : Spaced hdr lo hi m x bs) (ht : Tiles hdr lo hi bs) : Heap hdr lo hi m x bs :=
  ⟨h.seg, ht, h.header, h.low, h.high⟩

lemma payload (h : Heap hdr lo hi m x (pre ++ ([b] ++ post)))
    (hm : ∀ a, m' a ≠ m a → b.addr + hdr ≤ a.toNat ∧ a.toNat < b.addr + hdr + b.size) :
    Heap hdr lo hi m' x (pre ++ ([b] ++ post)) := of_spaced (h.spaced.payload (by simp) hm) h.tiles

lemma mark (h : Heap hdr lo hi m x (pre ++ ([b] ++ post))) (hy : y.toNat = b.addr) (f : Bool) :
    Heap hdr lo hi (writeWord m (y + 4) (flag f)) x (pre ++ ([{ b with free := f }] ++ post)) :=
  of_spaced (h.spaced.mark hy f) (h.tiles.replace fun _ _ ht => ht)

lemma allot {w v : BitVec 32} {room : ℕ} (h : Heap hdr lo hi m x (pre ++ ([b] ++ post))) (hy : y.toNat = b.addr)
    (hw : w.toNat = hdr) (hv : v.toNat = room) (hfit : hi + room ≤ 2 ^ 32) (hsize : size.toNat ≤ b.size) :
    Heap hdr lo hi (allot w v m y size) x (pre ++ (cut hdr room size.toNat b ++ post)) :=
  of_spaced (h.spaced.allot hy hw hv hfit hsize) (h.tiles.replace fun _ _ ht => ht.cut)

lemma absorb {w : BitVec 32} (h : Heap hdr lo hi m x (pre ++ ([b, c] ++ post))) (hy : y.toNat = b.addr)
    (hw : w.toNat = hdr) :
    Heap hdr lo hi (absorb w m y) x (pre ++ ([⟨b.addr, b.size + (hdr + c.size), b.free⟩] ++ post)) := by
  refine of_spaced (h.spaced.absorb hy hw) (h.tiles.replace fun l k ht => ?_)
  simp only [Tiles] at ht ⊢
  omega

lemma headers_eq (h : Heap hdr lo hi m x bs) (hn : bs.length < n) : headers n m x = some bs := h.spaced.headers_eq hn

end Heap

end FreeList
