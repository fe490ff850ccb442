import PyroOS.Library.FreeList
import PyroOS.Memory.Word

/-! The kernel heap. -/

namespace PyroOS

open ByteMemory FreeList

def heapStart : Word := 0x00100000

def heapSize : Word := 0x00300000

/-- `heap_install`, which also sets `heap_head` to `HEAP_START`. -/
def heapInstall (m : Mem) : Mem :=
  let m := writeWord m heapStart (heapSize - 12)
  let m := writeWord m (heapStart + 4) 1
  writeWord m (heapStart + 8) 0

def heapSteps : ℕ := 262145

def kmalloc (m : Mem) (size : Word) : Option (Mem × Word) :=
  let size := (size + 3) &&& ~~~3
  match seek size heapSteps m heapStart with
  | none => none
  | some cur => if cur = 0 then some (m, 0) else some (allot 12 4 m cur size, cur + 12)

def kfree (m : Mem) (ptr : Word) : Mem :=
  if ptr = 0 then m
  else
    let b := ptr - 12
    let m := writeWord m (b + 4) 1
    let next := readWord m (b + 8)
    if next ≠ 0 ∧ readWord m (next + 4) ≠ 0 then absorb 12 m b else m

structure KernelHeap where
  mem : Mem
  live : List Word

/-- The payload of `p` is the program's, up to the size in its header. -/
inductive KernelHeap.Run : KernelHeap → Prop
  | install (m : Mem) : Run ⟨heapInstall m, []⟩
  | kmalloc {s : KernelHeap} (size : Word) {m : Mem} {p : Word} : Run s → PyroOS.kmalloc s.mem size = some (m, p) →
    Run ⟨m, if p = 0 then s.live else p :: s.live⟩
  | kfree {s : KernelHeap} {p : Word} : Run s → p ∈ s.live → Run ⟨PyroOS.kfree s.mem p, s.live.erase p⟩
  | use {s : KernelHeap} {p : Word} (m : Mem) : Run s → p ∈ s.live →
    (∀ x, m x ≠ s.mem x → p.toNat ≤ x.toNat ∧ x.toNat < p.toNat + (readWord s.mem (p - 12)).toNat) → Run ⟨m, s.live⟩

variable {s : KernelHeap} {m : Mem} {p : Word} {bs pre post : List Block} {b c : Block}

structure KernelHeap.Lists (s : KernelHeap) (bs : List Block) : Prop where
  heap : Heap 12 0x100000 0x400000 s.mem heapStart bs
  sizes : ∀ b ∈ bs, 4 ∣ b.size
  live : ∀ p, p ∈ s.live ↔ ∃ b ∈ bs, b.free = false ∧ p.toNat = b.addr + 12
  nodup : s.live.Nodup

lemma KernelHeap.Lists.length_lt (h : s.Lists bs) : bs.length < heapSteps := by
  have hle := h.heap.tiles.spread.length_le
  rw [heapSteps]
  omega

lemma install_lists (m : Mem) : KernelHeap.Lists ⟨heapInstall m, []⟩ [⟨0x100000, 0x2ffff4, true⟩] := by
  have h₀ : heapStart.toNat = 0x100000 := rfl
  have h₄ : (heapStart + 4).toNat = 0x100004 := rfl
  have h₈ : (heapStart + 8).toNat = 0x100008 := rfl
  refine ⟨⟨⟨rfl, ?_, ?_, ?_⟩, ⟨rfl, rfl⟩, by decide, by decide, by decide⟩, by decide, fun p => ?_, .nil⟩
  · rw [heapInstall, read_write_other _ (by omega) (by omega) (by omega),
      read_write_other _ (by omega) (by omega) (by omega), read_write]
    rfl
  · rw [heapInstall, read_write_other _ (by omega) (by omega) (by omega), read_write]
    rfl
  · exact read_write _ _ _
  · simp

lemma four_dvd_round (size : Word) : 4 ∣ ((size + 3) &&& ~~~3).toNat := by
  rw [and_not_low (k := 2) _ (by decide)]
  exact Dvd.intro_left _ rfl

namespace KernelHeap.Lists

lemma live_iff (h : s.Lists (pre ++ ([b] ++ post))) (hb : b.free = true) (p : Word) :
    p ∈ s.live ↔ ∃ c ∈ pre ++ post, c.free = false ∧ p.toNat = c.addr + 12 := by
  rw [h.live]
  constructor
  · rintro ⟨c, hc, hf, hp⟩
    simp only [List.mem_append, List.mem_singleton] at hc
    rcases hc with hc | rfl | hc
    · exact ⟨c, List.mem_append.mpr (.inl hc), hf, hp⟩
    · rw [hb] at hf
      cases hf
    · exact ⟨c, List.mem_append.mpr (.inr hc), hf, hp⟩
  · rintro ⟨c, hc, hf, hp⟩
    refine ⟨c, ?_, hf, hp⟩
    simp only [List.mem_append, List.mem_singleton] at hc ⊢
    tauto

lemma kmalloc (h : s.Lists bs) (size : Word) : ∃ m p, PyroOS.kmalloc s.mem size = some (m, p) ∧
    ((p = 0 ∧ m = s.mem ∧ ∀ b ∈ bs, ¬ fits ((size + 3) &&& ~~~3).toNat b) ∨
      ∃ pre b post, bs = pre ++ ([b] ++ post) ∧ (∀ c ∈ pre, ¬ fits ((size + 3) &&& ~~~3).toNat c) ∧
        fits ((size + 3) &&& ~~~3).toNat b ∧ p.toNat = b.addr + 12 ∧
        KernelHeap.Lists ⟨m, p :: s.live⟩ (pre ++ (cut 12 4 ((size + 3) &&& ~~~3).toNat b ++ post))) := by
  have hround := four_dvd_round size
  rw [PyroOS.kmalloc]
  generalize (size + 3) &&& ~~~3 = k at hround ⊢
  rcases h.heap.spaced.seek_cases h.length_lt k with ⟨hs, hnone⟩ | ⟨pre, b, post, y, rfl, hpre, hb, hs, hy⟩
  · exact ⟨s.mem, 0, by rw [hs]; rfl, .inl ⟨rfl, rfl, hnone⟩⟩
  have hbounds := h.heap.tiles.bounds (b := b) (by simp)
  have hy₀ : y ≠ 0 := ne_zero_of_pos (by omega)
  have hp : (y + 12).toNat = b.addr + 12 := by
    have hb := hbounds.2
    bv_omega
  refine ⟨_, _, by rw [hs]; exact if_neg hy₀, .inr ⟨pre, b, post, rfl, hpre, hb, hp, ?_⟩⟩
  refine ⟨h.heap.allot (w := 12) (v := 4) hy rfl rfl (by decide) hb.2, fun c hc => ?_, fun q => ?_, ?_⟩
  · simp only [List.mem_append] at hc
    rcases hc with hc | hc | hc
    · exact h.sizes c (by simp [hc])
    · exact dvd_cut (by decide) hround (h.sizes b (by simp)) hc
    · exact h.sizes c (by simp [hc])
  · rw [List.mem_cons, h.live_iff hb.1]
    constructor
    · rintro (rfl | ⟨c, hc, hf, hq⟩)
      · obtain ⟨c, hc, hf, haddr, -⟩ := exists_used 12 4 hb.2
        exact ⟨c, by simp [hc], hf, by rw [hp, haddr]⟩
      · refine ⟨c, ?_, hf, hq⟩
        simp only [List.mem_append] at hc ⊢
        tauto
    · rintro ⟨c, hc, hf, hq⟩
      simp only [List.mem_append] at hc
      rcases hc with hc | hc | hc
      · exact .inr ⟨c, by simp [hc], hf, hq⟩
      · rw [cut_used hc hf] at hq
        exact .inl (BitVec.eq_of_toNat_eq (hq.trans hp.symm))
      · exact .inr ⟨c, by simp [hc], hf, hq⟩
  · refine List.nodup_cons.mpr ⟨fun hmem => ?_, h.nodup⟩
    obtain ⟨c, hc, -, hq⟩ := (h.live_iff hb.1 _).mp hmem
    have hne := h.heap.tiles.addr_ne (by decide) hc
    omega

lemma block (h : s.Lists bs) (hp : p ∈ s.live) : ∃ pre b post, bs = pre ++ ([b] ++ post) ∧ b.free = false ∧
    p.toNat = b.addr + 12 ∧ (p - 12).toNat = b.addr := by
  obtain ⟨b, hb, hf, haddr⟩ := (h.live p).mp hp
  obtain ⟨pre, post, rfl⟩ := List.append_of_mem hb
  refine ⟨pre, b, post, rfl, hf, haddr, ?_⟩
  bv_omega

lemma erase {bs' : List Block} (h : s.Lists bs) (hheap : Heap 12 0x100000 0x400000 m heapStart bs')
    (hsizes : ∀ b ∈ bs', 4 ∣ b.size)
    (hused : ∀ c, c.free = false → (c ∈ bs' ↔ c ∈ bs ∧ c.addr + 12 ≠ p.toNat)) :
    KernelHeap.Lists ⟨m, s.live.erase p⟩ bs' := by
  refine ⟨hheap, hsizes, fun q => ?_, h.nodup.erase p⟩
  rw [h.nodup.mem_erase_iff, h.live]
  constructor
  · rintro ⟨hne, c, hc, hf, hq⟩
    refine ⟨c, (hused c hf).mpr ⟨hc, fun heq => hne ?_⟩, hf, hq⟩
    exact BitVec.eq_of_toNat_eq (hq.trans heq)
  · rintro ⟨c, hc, hf, hq⟩
    obtain ⟨hmem, hne⟩ := (hused c hf).mp hc
    exact ⟨fun heq => hne (by rw [← heq, hq]), c, hmem, hf, hq⟩

lemma used_iff (h : s.Lists (pre ++ ([b] ++ post))) (hp : p.toNat = b.addr + 12) (c : Block) :
    (c ∈ pre ++ ([b] ++ post) ∧ c.addr + 12 ≠ p.toNat) ↔ c ∈ pre ++ post := by
  constructor
  · rintro ⟨hc, hne⟩
    simp only [List.mem_append, List.mem_singleton] at hc ⊢
    rcases hc with hc | rfl | hc
    · exact .inl hc
    · exact absurd hp.symm hne
    · exact .inr hc
  · intro hc
    have hne := h.heap.tiles.addr_ne (by decide) hc
    refine ⟨?_, by omega⟩
    simp only [List.mem_append, List.mem_singleton] at hc ⊢
    tauto

lemma kfree_list (h : s.Lists (pre ++ ([b] ++ post))) (haddr : p.toNat = b.addr + 12) :
    KernelHeap.Lists ⟨PyroOS.kfree s.mem p, s.live.erase p⟩ (pre ++ join 12 { b with free := true } post) := by
  have hb : (p - 12).toNat = b.addr := by bv_omega
  have hp₀ : p ≠ 0 := ne_zero_of_pos (by omega)
  have hsizes : ∀ c ∈ pre ++ join 12 { b with free := true } post, 4 ∣ c.size := by
    intro c hc
    rcases List.mem_append.mp hc with hc | hc
    · exact h.sizes c (by simp [hc])
    · have hpost : ∀ d ∈ post, 4 ∣ d.size := fun d hd => h.sizes d (by simp [hd])
      have hblock : 4 ∣ ({ b with free := true } : Block).size := h.sizes b (by simp)
      exact dvd_join (by decide) hblock hpost c hc
  have hused : ∀ c : Block, c.free = false →
      (c ∈ pre ++ join 12 { b with free := true } post ↔ c ∈ pre ++ ([b] ++ post) ∧ c.addr + 12 ≠ p.toNat) := by
    intro c hc
    have hne : c ≠ { b with free := true } := by
      rintro rfl
      cases hc
    rw [h.used_iff haddr, List.mem_append, mem_join hc, List.mem_cons, or_iff_right hne, List.mem_append]
  refine h.erase ?_ hsizes hused
  have hmark := h.heap.mark hb true
  have hflag : flag true = 1 := rfl
  rw [hflag] at hmark
  rw [PyroOS.kfree, if_neg hp₀]
  dsimp only
  generalize writeWord s.mem (p - 12 + 4) 1 = m at hmark ⊢
  have hnext : Seg m (readWord m (p - 12 + 8)) post 0 := by
    obtain ⟨y, -, h₁, -, -, hrest⟩ := seg_append.mp hmark.seg
    obtain rfl : y = p - 12 := BitVec.eq_of_toNat_eq (h₁.trans hb.symm)
    exact hrest
  cases post with
  | nil =>
    have hzero : readWord m (p - 12 + 8) = 0 := hnext
    rw [if_neg fun ht => ht.1 hzero]
    exact hmark
  | cons c post =>
    obtain ⟨h₁, -, h₃, -⟩ := hnext
    have hcb := h.heap.tiles.bounds (b := c) (by simp)
    have hne : readWord m (p - 12 + 8) ≠ 0 := ne_zero_of_pos (by omega)
    have htest : (readWord m (p - 12 + 8) ≠ 0 ∧ readWord m (readWord m (p - 12 + 8) + 4) ≠ 0) ↔ c.free = true := by
      rw [and_iff_right hne, h₃, flag_ne_zero]
    rw [join]
    by_cases hc : c.free = true
    · rw [if_pos (htest.mpr hc), if_pos ⟨rfl, hc⟩]
      have hpair : Heap 12 0x100000 0x400000 m heapStart (pre ++ ([{ b with free := true }, c] ++ post)) := hmark
      exact hpair.absorb (w := 12) hb rfl
    · rw [if_neg (mt htest.mp hc), if_neg fun hh => hc hh.2]
      exact hmark

lemma kfree (h : s.Lists bs) (hp : p ∈ s.live) : ∃ bs', KernelHeap.Lists ⟨PyroOS.kfree s.mem p, s.live.erase p⟩ bs' ∧
    ∀ c ∈ bs, c.free = false → c.addr + 12 ≠ p.toNat → c ∈ bs' := by
  obtain ⟨pre, b, post, rfl, -, haddr, -⟩ := h.block hp
  refine ⟨_, h.kfree_list haddr, fun c hc hcf hne => ?_⟩
  have hmem := (h.used_iff haddr c).mp ⟨hc, hne⟩
  rw [List.mem_append, mem_join hcf, List.mem_cons]
  rcases List.mem_append.mp hmem with hmem | hmem
  · exact .inl hmem
  · exact .inr (.inr hmem)

lemma header_size (h : s.Lists (pre ++ ([b] ++ post))) (hb : (p - 12).toNat = b.addr) :
    (readWord s.mem (p - 12)).toNat = b.size := by
  obtain ⟨y, -, h₁, h₂, -⟩ := seg_append.mp h.heap.seg
  obtain rfl : y = p - 12 := BitVec.eq_of_toNat_eq (h₁.trans hb.symm)
  exact h₂

lemma use (h : s.Lists bs) (hp : p ∈ s.live)
    (hm : ∀ x, m x ≠ s.mem x → p.toNat ≤ x.toNat ∧ x.toNat < p.toNat + (readWord s.mem (p - 12)).toNat) :
    KernelHeap.Lists ⟨m, s.live⟩ bs := by
  obtain ⟨pre, b, post, rfl, -, haddr, hb⟩ := h.block hp
  rw [h.header_size hb, haddr] at hm
  exact ⟨h.heap.payload hm, h.sizes, h.live, h.nodup⟩

end KernelHeap.Lists

lemma KernelHeap.Run.lists (h : KernelHeap.Run s) : ∃ bs, s.Lists bs := by
  induction h with
  | install m => exact ⟨_, install_lists m⟩
  | @kmalloc s size m p _ hk ih =>
    obtain ⟨bs, hbs⟩ := ih
    obtain ⟨m', p', hk', hcases⟩ := hbs.kmalloc size
    obtain ⟨rfl, rfl⟩ : m = m' ∧ p = p' := by simpa using hk.symm.trans hk'
    rcases hcases with ⟨rfl, rfl, -⟩ | ⟨pre, b, post, rfl, -, -, hp, hl⟩
    · exact ⟨bs, hbs⟩
    · have hp₀ : p ≠ 0 := ne_zero_of_pos (by omega)
      rw [if_neg hp₀]
      exact ⟨_, hl⟩
  | kfree _ hp ih =>
    obtain ⟨bs, hbs⟩ := ih
    obtain ⟨bs', hbs', -⟩ := hbs.kfree hp
    exact ⟨bs', hbs'⟩
  | use m _ hp hm ih =>
    obtain ⟨bs, hbs⟩ := ih
    exact ⟨bs, hbs.use hp hm⟩

/-- The blocks reached from the head of the list tile the region, those in use are the live allocations, every walk
ends, and `kfree` leaves the other blocks in use where they are. -/
theorem kernel_heap_tiles (h : KernelHeap.Run s) : ∃ bs, headers heapSteps s.mem heapStart = some bs ∧
    Tiles 12 heapStart.toNat (heapStart + heapSize).toNat bs ∧ bs.Pairwise (·.addr < ·.addr) ∧ (∀ b ∈ bs, 4 ∣ b.size) ∧
    (∀ p, p ∈ s.live ↔ ∃ b ∈ bs, b.free = false ∧ p.toNat = b.addr + 12) ∧ s.live.Nodup ∧
    (∀ size, (kmalloc s.mem size).isSome) ∧
    ∀ p ∈ s.live, ∃ bs', headers heapSteps (kfree s.mem p) heapStart = some bs' ∧
      ∀ b ∈ bs, b.free = false → b.addr + 12 ≠ p.toNat → b ∈ bs' := by
  obtain ⟨bs, hbs⟩ := h.lists
  refine ⟨bs, hbs.heap.headers_eq hbs.length_lt, hbs.heap.tiles, hbs.heap.tiles.spread.sorted (by decide), hbs.sizes,
    hbs.live, hbs.nodup, fun size => ?_, fun p hp => ?_⟩
  · obtain ⟨m, p, hk, -⟩ := hbs.kmalloc size
    rw [hk]
    rfl
  · obtain ⟨bs', hbs', hkeep⟩ := hbs.kfree hp
    exact ⟨bs', hbs'.heap.headers_eq hbs'.length_lt, hkeep⟩

def sampleKmalloc (m : Mem) (size : Word) : Mem := ((kmalloc m size).getD (m, 0)).1

lemma sample_kmalloc {size : Word} (hp : (kmalloc m size).map Prod.snd = some p) :
    kmalloc m size = some (sampleKmalloc m size, p) := by
  obtain ⟨x, hx, rfl⟩ := Option.map_eq_some_iff.mp hp
  rw [sampleKmalloc, hx]
  rfl

-- two allocations, of which the first has been freed again
theorem kernel_heap_tiles_sample : ∃ s bs, KernelHeap.Run s ∧ s.live = [0x100024] ∧
    headers heapSteps s.mem heapStart = some bs ∧ Tiles 12 0x100000 0x400000 bs := by
  have h₁ := (KernelHeap.Run.install fun _ => 0).kmalloc 10 (sample_kmalloc (p := 0x10000c) (by decide +kernel))
  have h₂ := h₁.kmalloc 20 (sample_kmalloc (p := 0x100024) (by decide +kernel))
  have h := h₂.kfree (p := 0x10000c) (by decide)
  obtain ⟨bs, hbs, htiles, -⟩ := kernel_heap_tiles h
  exact ⟨_, bs, h, by decide, hbs, htiles⟩

end PyroOS
