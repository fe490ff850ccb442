import PyroOS.Heap.Kernel
import PyroOS.Library.Coalescing

/-! What the kernel heap grants, and when it becomes whole again. -/

namespace PyroOS

open ByteMemory FreeList

/-! ### Requests -/

structure KernelClient where
  mem : Mem
  live : List (Word × Word)

inductive KernelClient.Run (P : Word → Prop) : KernelClient → Prop
  | install (m : Mem) : Run P ⟨heapInstall m, []⟩
  | kmalloc {s : KernelClient} (size : Word) {m : Mem} {p : Word} : Run P s → P size →
    PyroOS.kmalloc s.mem size = some (m, p) → Run P ⟨m, if p = 0 then s.live else (p, size) :: s.live⟩
  | kfree {s : KernelClient} {x : Word × Word} : Run P s → x ∈ s.live →
    Run P ⟨PyroOS.kfree s.mem x.1, s.live.erase x⟩
  | use {s : KernelClient} {x : Word × Word} (m : Mem) : Run P s → x ∈ s.live →
    (∀ a, m a ≠ s.mem a → x.1.toNat ≤ a.toNat ∧ a.toNat < x.1.toNat + x.2.toNat) → Run P ⟨m, s.live⟩

def roundUp (n : ℕ) : ℕ := (n + 3) / 4 * 4

structure Granted (s : KernelClient) (bs : List Block) (m : Mem) (p size : Word) : Prop where
  inside : heapStart.toNat ≤ p.toNat ∧ p.toNat + size.toNat ≤ (heapStart + heapSize).toNat
  headers : ∃ bs', headers heapSteps m heapStart = some bs' ∧
    ∀ b ∈ bs', p.toNat + size.toNat ≤ b.addr ∨ b.addr + 12 ≤ p.toNat
  apart : ∀ x ∈ s.live, p.toNat + size.toNat ≤ x.1.toNat ∨ x.1.toNat + x.2.toNat ≤ p.toNat
  first : ∃ pre b post, bs = pre ++ ([b] ++ post) ∧ fits (roundUp size.toNat) b ∧
    (∀ c ∈ pre, ¬ fits (roundUp size.toNat) c) ∧ p.toNat = b.addr + 12

def GrantExact (s : KernelClient) (size : Word) : Prop :=
  ∃ bs m p, headers heapSteps s.mem heapStart = some bs ∧ kmalloc s.mem size = some (m, p) ∧
    (p ≠ 0 → Granted s bs m p size) ∧ (p = 0 ↔ ∀ b ∈ bs, ¬ fits (roundUp size.toNat) b) ∧ (p = 0 → m = s.mem)

structure KernelClient.Lists (s : KernelClient) (bs : List Block) : Prop where
  heap : KernelHeap.Lists ⟨s.mem, s.live.map Prod.fst⟩ bs
  sizes : ∀ x ∈ s.live, ∃ b ∈ bs, b.free = false ∧ x.1.toNat = b.addr + 12 ∧ x.2.toNat ≤ b.size

variable {s : KernelClient} {m : Mem} {p size : Word} {x : Word × Word} {bs pre post : List Block} {b c : Block}

lemma round_size (h : size ≤ 0xFFFFFFFC) : ((size + 3) &&& ~~~3).toNat = roundUp size.toNat := by
  have hs : size.toNat ≤ 0xFFFFFFFC := h
  have h₃ : (3 : Word).toNat = 3 := rfl
  rw [and_not_low (k := 2) _ (by decide), BitVec.toNat_add, h₃, Nat.mod_eq_of_lt (by omega)]
  rfl

lemma round_wraps (h : ¬ size ≤ 0xFFFFFFFC) : (size + 3) &&& ~~~3 = 0 := by
  have hs : ¬ size.toNat ≤ 0xFFFFFFFC := h
  have h₃ : (3 : Word).toNat = 3 := rfl
  have hlt := size.isLt
  have h₀ : (0 : Word).toNat = 0 := rfl
  apply BitVec.eq_of_toNat_eq
  rw [and_not_low (k := 2) _ (by decide), BitVec.toNat_add, h₃, h₀]
  omega

lemma le_roundUp (n : ℕ) : n ≤ roundUp n := by
  rw [roundUp]
  omega

namespace KernelClient.Lists

lemma kmalloc (h : s.Lists bs) (hsize : size ≤ 0xFFFFFFFC) : ∃ m p, PyroOS.kmalloc s.mem size = some (m, p) ∧
    ((p = 0 ∧ m = s.mem ∧ ∀ b ∈ bs, ¬ fits (roundUp size.toNat) b) ∨
      (p ≠ 0 ∧ ∃ pre b post, bs = pre ++ ([b] ++ post) ∧ (∀ c ∈ pre, ¬ fits (roundUp size.toNat) c) ∧
        fits (roundUp size.toNat) b ∧ p.toNat = b.addr + 12 ∧
        KernelClient.Lists ⟨m, (p, size) :: s.live⟩ (pre ++ (cut 12 4 (roundUp size.toNat) b ++ post)))) := by
  obtain ⟨m, p, hk, hcases⟩ := h.heap.kmalloc size
  rw [round_size hsize] at hcases
  refine ⟨m, p, hk, hcases.imp id ?_⟩
  rintro ⟨pre, b, post, rfl, hpre, hb, hp, hl⟩
  have hp₀ : p ≠ 0 := ne_zero_of_pos (by omega)
  refine ⟨hp₀, pre, b, post, rfl, hpre, hb, hp, hl, fun x hx => ?_⟩
  rcases List.mem_cons.mp hx with rfl | hx
  · obtain ⟨c, hc, hf, haddr, hle⟩ := exists_used 12 4 hb.2
    exact ⟨c, by simp [hc], hf, by rw [hp, haddr], (le_roundUp _).trans hle⟩
  · -- the blocks in use are not the one that is given out
    obtain ⟨c, hc, hf, haddr, hle⟩ := h.sizes x hx
    have hcb : c ≠ b := fun heq => by rw [heq, hb.1] at hf; cases hf
    refine ⟨c, ?_, hf, haddr, hle⟩
    simp only [List.mem_append, List.mem_singleton] at hc ⊢
    tauto

lemma kfree (h : s.Lists bs) (hx : x ∈ s.live) :
    ∃ bs', KernelClient.Lists ⟨PyroOS.kfree s.mem x.1, s.live.erase x⟩ bs' := by
  obtain ⟨bs', hl, hkeep⟩ := h.heap.kfree (List.mem_map_of_mem hx)
  have hperm : ((s.live.erase x).map Prod.fst).Perm ((s.live.map Prod.fst).erase x.1) := by
    have hall := ((List.perm_cons_erase hx).map Prod.fst).erase x.1
    rw [List.map_cons, List.erase_cons_head] at hall
    exact hall.symm
  have hnodup : ((s.live.erase x).map Prod.fst).Nodup := hperm.nodup_iff.mpr hl.nodup
  refine ⟨bs', ⟨hl.heap, hl.sizes, fun q => hperm.mem_iff.trans (hl.live q), hnodup⟩, fun y hy => ?_⟩
  obtain ⟨c, hc, hf, haddr, hle⟩ := h.sizes y (List.mem_of_mem_erase hy)
  refine ⟨c, hkeep c hc hf fun heq => ?_, hf, haddr, hle⟩
  have hfst : y.1 = x.1 := BitVec.eq_of_toNat_eq (haddr.trans heq)
  have hmem := hperm.mem_iff.mp (List.mem_map_of_mem hy)
  rw [hfst] at hmem
  exact h.heap.nodup.not_mem_erase hmem

lemma use (h : s.Lists bs) (hx : x ∈ s.live)
    (hm : ∀ a, m a ≠ s.mem a → x.1.toNat ≤ a.toNat ∧ a.toNat < x.1.toNat + x.2.toNat) :
    KernelClient.Lists ⟨m, s.live⟩ bs := by
  refine ⟨h.heap.use (p := x.1) (List.mem_map_of_mem hx) fun a ha => ?_, h.sizes⟩
  obtain ⟨b, hb, -, haddr, hle⟩ := h.sizes x hx
  obtain ⟨pre, post, rfl⟩ := List.append_of_mem hb
  have hsize : (readWord s.mem (x.1 - 12)).toNat = b.size := h.heap.header_size (by bv_omega)
  have hbytes := hm a ha
  rw [hsize]
  omega

lemma granted (h : s.Lists (pre ++ ([b] ++ post))) (hpre : ∀ c ∈ pre, ¬ fits (roundUp size.toNat) c)
    (hb : fits (roundUp size.toNat) b) (hp : p.toNat = b.addr + 12)
    (hl : KernelClient.Lists ⟨m, (p, size) :: s.live⟩ (pre ++ (cut 12 4 (roundUp size.toNat) b ++ post))) :
    Granted s (pre ++ ([b] ++ post)) m p size := by
  have hbounds := h.heap.heap.tiles.bounds (b := b) (by simp)
  have hstart : heapStart.toNat = 0x100000 := rfl
  have hend : (heapStart + heapSize).toNat = 0x400000 := rfl
  have hround := le_roundUp size.toNat
  have hfit := hb.2
  obtain ⟨d, hd, hdf, hdaddr, hdsize⟩ := hl.sizes (p, size) List.mem_cons_self
  dsimp only at hdaddr hdsize
  refine ⟨by omega, ⟨_, hl.heap.heap.headers_eq hl.heap.length_lt, fun c hc => ?_⟩, fun x hx => ?_,
    pre, b, post, rfl, hb, hpre, hp⟩
  · rcases hl.heap.heap.tiles.apart hd hc with rfl | happart | happart <;> omega
  · obtain ⟨c, hc, hcf, hcaddr, hcsize⟩ := hl.sizes x (List.mem_cons_of_mem _ hx)
    obtain ⟨c', hc', hcf', hcaddr', -⟩ := h.sizes x hx
    have hne := h.heap.heap.tiles.addr_ne (c := c') (by decide) (by
      have hcb : c' ≠ b := fun heq => by rw [heq, hb.1] at hcf'; cases hcf'
      simp only [List.mem_append, List.mem_singleton] at hc' ⊢
      tauto)
    rcases hl.heap.heap.tiles.apart hd hc with rfl | happart | happart <;> omega

end KernelClient.Lists

lemma KernelClient.Run.lists (h : KernelClient.Run (· ≤ 0xFFFFFFFC) s) : ∃ bs, s.Lists bs := by
  induction h with
  | install m => exact ⟨_, install_lists m, fun x hx => (by cases hx)⟩
  | @kmalloc s size m p _ hsize hk ih =>
    obtain ⟨bs, hbs⟩ := ih
    obtain ⟨m', p', hk', hcases⟩ := hbs.kmalloc hsize
    obtain ⟨rfl, rfl⟩ : m = m' ∧ p = p' := by simpa using hk.symm.trans hk'
    rcases hcases with ⟨rfl, rfl, -⟩ | ⟨hp₀, pre, b, post, rfl, -, -, -, hl⟩
    · exact ⟨bs, hbs⟩
    · rw [if_neg hp₀]
      exact ⟨_, hl⟩
  | kfree _ hx ih =>
    obtain ⟨bs, hbs⟩ := ih
    exact hbs.kfree hx
  | use m _ hx hm ih =>
    obtain ⟨bs, hbs⟩ := ih
    exact ⟨bs, hbs.use hx hm⟩

lemma KernelHeap.Lists.grants_wrapped (h : KernelHeap.Lists ⟨s.mem, s.live.map Prod.fst⟩ bs)
    (hsize : ¬ size ≤ 0xFFFFFFFC) (hb : b ∈ bs) (hfree : b.free = true) : ¬ GrantExact s size := by
  rintro ⟨bs', m, p, -, hk, hgrant, -⟩
  obtain ⟨m', p', hk', hcases⟩ := h.kmalloc size
  obtain ⟨rfl, rfl⟩ : m = m' ∧ p = p' := by simpa using hk.symm.trans hk'
  rw [round_wraps hsize] at hcases
  rcases hcases with ⟨-, -, hnone⟩ | ⟨pre, c, post, -, -, -, hp, -⟩
  · exact hnone b hb ⟨hfree, Nat.zero_le _⟩
  · have hp₀ : p ≠ 0 := ne_zero_of_pos (by omega)
    have hinside := (hgrant hp₀).inside.2
    have hend : (heapStart + heapSize).toNat = 0x400000 := rfl
    have hs : ¬ size.toNat ≤ 0xFFFFFFFC := hsize
    omega

/-- `kmalloc` is exact for the sizes that do not wrap when they are rounded, and for the others only if nothing is free. -/
theorem kmalloc_exact_iff (h : KernelClient.Run (· ≤ 0xFFFFFFFC) s) (size : Word) : GrantExact s size ↔
    size ≤ 0xFFFFFFFC ∨ ∀ bs, headers heapSteps s.mem heapStart = some bs → ∀ b ∈ bs, b.free = false := by
  obtain ⟨bs, hbs⟩ := h.lists
  have hlist : headers heapSteps s.mem heapStart = some bs := hbs.heap.heap.headers_eq hbs.heap.length_lt
  constructor
  · intro hexact
    by_contra hnot
    rw [not_or] at hnot
    refine hnot.2 fun bs' hbs' b hb => ?_
    obtain rfl : bs = bs' := Option.some.inj (hlist.symm.trans hbs')
    by_contra hfree
    exact hbs.heap.grants_wrapped hnot.1 hb (Bool.not_eq_false _ ▸ hfree) hexact
  · rintro (hsize | hused)
    · obtain ⟨m, p, hk, hcases⟩ := hbs.kmalloc hsize
      refine ⟨bs, m, p, hlist, hk, ?_⟩
      rcases hcases with ⟨rfl, rfl, hnone⟩ | ⟨hp₀, pre, b, post, rfl, hpre, hb, hp, hl⟩
      · exact ⟨fun hp => (hp rfl).elim, ⟨fun _ => hnone, fun _ => rfl⟩, fun _ => rfl⟩
      · exact ⟨fun _ => hbs.granted hpre hb hp hl, ⟨fun hp => (hp₀ hp).elim, fun hnone => (hnone b (by simp) hb).elim⟩,
          fun hp => (hp₀ hp).elim⟩
    · have hnone : ∀ n, ∀ b ∈ bs, ¬ fits n b := fun n b hb hf => by
        rw [fits, hused bs hlist b hb] at hf
        cases hf.1
      obtain ⟨m, p, hk, hcases⟩ := hbs.heap.kmalloc size
      rcases hcases with ⟨rfl, rfl, -⟩ | ⟨pre, b, post, rfl, -, hb, -⟩
      · exact ⟨bs, _, 0, hlist, hk, fun hp => (hp rfl).elim, ⟨fun _ => hnone _, fun _ => rfl⟩, fun _ => rfl⟩
      · exact (hnone _ b (by simp) hb).elim

-- two allocations, of which the first has been freed: its block serves the next request
theorem kmalloc_exact_reuse : ∃ s, KernelClient.Run (· ≤ 0xFFFFFFFC) s ∧ s.live = [(0x100024, 20)] ∧
    (kmalloc s.mem 8).map Prod.snd = some 0x10000c ∧ GrantExact s 8 := by
  have h₁ := (KernelClient.Run.install (P := (· ≤ 0xFFFFFFFC)) fun _ => 0).kmalloc 10 (by decide)
    (sample_kmalloc (p := 0x10000c) (by decide +kernel))
  have h₂ := h₁.kmalloc 20 (by decide) (sample_kmalloc (p := 0x100024) (by decide +kernel))
  have h := h₂.kfree (x := (0x10000c, 10)) (by decide)
  exact ⟨_, h, by decide, by decide +kernel, (kmalloc_exact_iff h 8).mpr (.inl (by decide))⟩

theorem kmalloc_wraps : ¬ GrantExact ⟨heapInstall fun _ => 0, []⟩ 0xFFFFFFFF :=
  (install_lists fun _ => 0).grants_wrapped (s := ⟨_, []⟩) (by decide) List.mem_cons_self rfl

/-! ### Fragmentation -/

def BelowUsed (s : KernelHeap) (p : Word) : Prop :=
  ∀ bs, headers heapSteps s.mem heapStart = some bs → ∀ b ∈ bs, b.free = true → b.addr + 12 + b.size ≠ (p - 12).toNat

inductive KernelHeap.OrderedRun : KernelHeap → Prop
  | install (m : Mem) : OrderedRun ⟨heapInstall m, []⟩
  | kmalloc {s : KernelHeap} (size : Word) {m : Mem} {p : Word} : OrderedRun s →
    PyroOS.kmalloc s.mem size = some (m, p) → OrderedRun ⟨m, if p = 0 then s.live else p :: s.live⟩
  | kfree {s : KernelHeap} {p : Word} : OrderedRun s → p ∈ s.live → BelowUsed s p →
    OrderedRun ⟨PyroOS.kfree s.mem p, s.live.erase p⟩
  | use {s : KernelHeap} {p : Word} (m : Mem) : OrderedRun s → p ∈ s.live →
    (∀ x, m x ≠ s.mem x → p.toNat ≤ x.toNat ∧ x.toNat < p.toNat + (readWord s.mem (p - 12)).toNat) →
    OrderedRun ⟨m, s.live⟩

def CanGrant (m : Mem) (size : Word) : Prop := ∃ m' p, kmalloc m size = some (m', p) ∧ p ≠ 0

lemma not_canGrant (h : (kmalloc m size).map Prod.snd = some 0) : ¬ CanGrant m size := by
  rintro ⟨m', p, hk, hp⟩
  rw [hk] at h
  exact hp (Option.some.inj h)

lemma KernelHeap.Lists.last_used {s : KernelHeap} (h : s.Lists (pre ++ ([b] ++ post))) (haddr : p.toNat = b.addr + 12)
    (hbelow : BelowUsed s p) : ∀ c ∈ pre.getLast?, c.free = false := by
  intro c hc
  obtain ⟨front, rfl⟩ := List.getLast?_eq_some_iff.mp hc
  obtain ⟨k, hfront, hblock⟩ := tiles_append.mp h.heap.tiles
  obtain ⟨j, -, hc₁, hc₂⟩ := tiles_append.mp hfront
  have hc₂ : j + 12 + c.size = k := hc₂
  have hb : b.addr = k := hblock.1
  by_contra hfree
  refine hbelow _ (h.heap.headers_eq h.length_lt) c (by simp) (Bool.not_eq_false _ ▸ hfree) ?_
  bv_omega

lemma KernelHeap.OrderedRun.separate {s : KernelHeap} (h : KernelHeap.OrderedRun s) : ∃ bs, s.Lists bs ∧ Separate bs := by
  induction h with
  | install m => exact ⟨_, install_lists m, .singleton _⟩
  | @kmalloc s size m p _ hk ih =>
    obtain ⟨bs, hbs, hsep⟩ := ih
    obtain ⟨m', p', hk', hcases⟩ := hbs.kmalloc size
    obtain ⟨rfl, rfl⟩ : m = m' ∧ p = p' := by simpa using hk.symm.trans hk'
    rcases hcases with ⟨rfl, rfl, -⟩ | ⟨pre, b, post, rfl, -, hb, hp, hl⟩
    · exact ⟨bs, hbs, hsep⟩
    · have hp₀ : p ≠ 0 := ne_zero_of_pos (by omega)
      rw [if_neg hp₀]
      exact ⟨_, hl, hsep.cut hb.1⟩
  | kfree _ hp hbelow ih =>
    obtain ⟨bs, hbs, hsep⟩ := ih
    obtain ⟨pre, b, post, rfl, -, haddr, -⟩ := hbs.block hp
    exact ⟨_, hbs.kfree_list haddr, hsep.join (hbs.last_used haddr hbelow)⟩
  | use m _ hp hm ih =>
    obtain ⟨bs, hbs, hsep⟩ := ih
    exact ⟨bs, hbs.use hp hm, hsep⟩

lemma KernelHeap.Lists.canGrant_iff {s : KernelHeap} (h : s.Lists bs) (size : Word) :
    CanGrant s.mem size ↔ ∃ b ∈ bs, fits ((size + 3) &&& ~~~3).toNat b := by
  obtain ⟨m, p, hk, hcases⟩ := h.kmalloc size
  constructor
  · rintro ⟨m', p', hk', hp₀⟩
    obtain ⟨rfl, rfl⟩ : m = m' ∧ p = p' := by simpa using hk.symm.trans hk'
    rcases hcases with ⟨rfl, -⟩ | ⟨pre, b, post, rfl, -, hb, -⟩
    · exact (hp₀ rfl).elim
    · exact ⟨b, by simp, hb⟩
  · rintro ⟨b, hb, hfit⟩
    rcases hcases with ⟨-, -, hnone⟩ | ⟨pre, c, post, -, -, -, hp, -⟩
    · exact (hnone b hb hfit).elim
    · exact ⟨m, p, hk, ne_zero_of_pos (by omega)⟩

lemma KernelHeap.Lists.whole {s : KernelHeap} (h : s.Lists bs) (hsep : Separate bs) (hlive : s.live = []) :
    bs = [⟨0x100000, 0x2ffff4, true⟩] := by
  have hfree : ∀ b ∈ bs, b.free = true := by
    intro b hb
    by_contra hf
    have hbounds := h.heap.tiles.bounds hb
    have hmem : BitVec.ofNat 32 (b.addr + 12) ∈ s.live :=
      (h.live _).mpr ⟨b, hb, Bool.not_eq_true _ ▸ hf, by rw [BitVec.toNat_ofNat]; omega⟩
    rw [hlive] at hmem
    cases hmem
  rcases hsep.single hfree with rfl | ⟨b, rfl⟩
  · have htiles : (0x100000 : ℕ) = 0x400000 := h.heap.tiles
    omega
  · obtain ⟨haddr, hend⟩ : b.addr = 0x100000 ∧ 0x100000 + 12 + b.size = 0x400000 := h.heap.tiles
    obtain ⟨addr, size, free⟩ := b
    obtain rfl : free = true := hfree _ List.mem_cons_self
    dsimp only at haddr hend
    rw [haddr, show size = 0x2ffff4 by omega]

/-- As long as no block is freed behind a free one, the heap is whole again when everything has been freed. -/
theorem kernel_heap_recovers {s : KernelHeap} (h : KernelHeap.OrderedRun s) (hlive : s.live = []) :
    headers heapSteps s.mem heapStart = some [⟨heapStart.toNat, (heapSize - 12).toNat, true⟩] ∧
      (∀ m size, CanGrant (heapInstall m) size → CanGrant s.mem size) ∧ CanGrant s.mem (heapSize - 12) := by
  obtain ⟨bs, hbs, hsep⟩ := h.separate
  obtain rfl := hbs.whole hsep hlive
  refine ⟨hbs.heap.headers_eq hbs.length_lt, fun m size hgrant => ?_, ?_⟩
  · rw [hbs.canGrant_iff]
    exact ((install_lists m).canGrant_iff size).mp hgrant
  · rw [hbs.canGrant_iff]
    exact ⟨_, List.mem_cons_self, rfl, by decide⟩

lemma belowUsed_of_headers {s : KernelHeap} (bs : List Block) (h : headers heapSteps s.mem heapStart = some bs)
    (hbs : ∀ b ∈ bs, b.free = true → b.addr + 12 + b.size ≠ (p - 12).toNat) : BelowUsed s p := by
  intro bs' hbs'
  obtain rfl : bs = bs' := Option.some.inj (h.symm.trans hbs')
  exact hbs

-- two allocations that are freed from the last to the first
theorem kernel_heap_recovers_reverse : ∃ s, KernelHeap.OrderedRun s ∧ s.live = [] ∧ CanGrant s.mem (heapSize - 12) := by
  have h₁ := (KernelHeap.OrderedRun.install fun _ => 0).kmalloc 10 (sample_kmalloc (p := 0x10000c) (by decide +kernel))
  have h₂ := h₁.kmalloc 20 (sample_kmalloc (p := 0x100024) (by decide +kernel))
  have h₃ := h₂.kfree (p := 0x100024) (by decide) (belowUsed_of_headers
    [⟨0x100000, 12, false⟩, ⟨0x100018, 20, false⟩, ⟨0x100038, 0x2fffbc, true⟩] (by decide +kernel) (by decide))
  have h := h₃.kfree (p := 0x10000c) (by decide) (belowUsed_of_headers
    [⟨0x100000, 12, false⟩, ⟨0x100018, 0x2fffdc, true⟩] (by decide +kernel) (by decide))
  exact ⟨_, h, by decide, (kernel_heap_recovers h (by decide)).2.2⟩

theorem kernel_heap_fragments : ∃ s, KernelHeap.Run s ∧ s.live = [] ∧
    CanGrant (heapInstall fun _ => 0) (heapSize - 12) ∧ ¬ CanGrant s.mem (heapSize - 12) := by
  have hrun := KernelHeap.Run.kmalloc 4 (.kmalloc 4 (.install fun _ => 0) (Option.some_get (by decide +kernel)).symm)
    (Option.some_get (by decide +kernel)).symm
  have h := KernelHeap.Run.kfree (p := 0x10001c) (hrun.kfree (p := 0x10000c) (by decide +kernel)) (by decide +kernel)
  refine ⟨_, h, by decide +kernel, ?_, ?_⟩
  · rw [(install_lists _).canGrant_iff]
    exact ⟨_, List.mem_cons_self, rfl, by decide⟩
  · exact not_canGrant (by decide +kernel)

end PyroOS
