import PyroOS.Heap.User
import PyroOS.Library.Coalescing

/-! The user heap never keeps free neighbours apart. -/

namespace PyroOS

open ByteMemory FreeList

def FromList (h : UserHeap) (want : Word) (r : UserHeap × Word) : Prop := ∀ f, umallocWith f h want = some r

def rounded (want : Word) : ℕ := (want.toNat + 7) / 8 * 8

variable {s : UserProgram} {heap : UserHeap} {want p : Word} {x : Word × Word} {bs pre post : List Block} {b c : Block}

lemma round_eq (h : want ≤ 0xFFFFFFE8) : ((want + 7) &&& ~~~7).toNat = rounded want := by
  have hw : want.toNat ≤ 0xFFFFFFE8 := h
  have h₇ : (7 : Word).toNat = 7 := rfl
  rw [and_not_low (k := 3) _ (by decide), BitVec.toNat_add, h₇, Nat.mod_eq_of_lt (by omega)]
  rfl

structure UserProgram.Coalesced (s : UserProgram) (bs : List Block) : Prop where
  lists : s.Lists bs
  separate : Separate bs
  used : ∀ b ∈ bs, b.free = false → ∃ x ∈ s.live, x.1.toNat = b.addr + 16

namespace UserProgram.Coalesced

lemma allot (h : s.Coalesced (pre ++ ([b] ++ post))) {n : ℕ} (hb : b.free = true) (hp : p.toNat = b.addr + 16)
    (hl : UserProgram.Lists ⟨heap, (p, want) :: s.live⟩ (pre ++ (cut 16 8 n b ++ post))) :
    UserProgram.Coalesced ⟨heap, (p, want) :: s.live⟩ (pre ++ (cut 16 8 n b ++ post)) := by
  refine ⟨hl, h.separate.cut hb, fun c hc hf => ?_⟩
  by_cases hcut : c ∈ cut 16 8 n b
  · exact ⟨(p, want), List.mem_cons_self, by rw [hp, cut_used hcut hf]⟩
  · obtain ⟨x, hx, haddr⟩ := h.used c (by simp only [List.mem_append] at hc ⊢; tauto) hf
    exact ⟨x, List.mem_cons_of_mem _ hx, haddr⟩

lemma grow (h : s.Coalesced bs) {n : ℕ} (hp : p.toNat = s.heap.brk.toNat + 16)
    (hl : UserProgram.Lists ⟨heap, (p, want) :: s.live⟩ (bs ++ [⟨s.heap.brk.toNat, n, false⟩])) :
    UserProgram.Coalesced ⟨heap, (p, want) :: s.live⟩ (bs ++ [⟨s.heap.brk.toNat, n, false⟩]) := by
  refine ⟨hl, h.separate.concat rfl, fun c hc hf => ?_⟩
  rcases List.mem_append.mp hc with hc | hc
  · obtain ⟨x, hx, haddr⟩ := h.used c hc hf
    exact ⟨x, List.mem_cons_of_mem _ hx, haddr⟩
  · rw [List.mem_singleton.mp hc]
    exact ⟨(p, want), List.mem_cons_self, hp⟩

lemma free {m : Mem} (h : s.Coalesced (pre ++ ([b] ++ post))) (haddr : x.1.toNat = b.addr + 16)
    (hl : UserProgram.Lists ⟨{ s.heap with mem := m }, s.live.erase x⟩
      (joined 16 (pre ++ ([{ b with free := true }] ++ post)))) :
    UserProgram.Coalesced ⟨{ s.heap with mem := m }, s.live.erase x⟩
      (joined 16 (pre ++ ([{ b with free := true }] ++ post))) := by
  refine ⟨hl, separate_joined _ _, fun c hc hf => ?_⟩
  have hmem := (mem_joined hf).mp hc
  have hne : c ≠ { b with free := true } := by
    rintro rfl
    cases hf
  have hrest : c ∈ pre ++ post := by
    simp only [List.mem_append, List.mem_singleton] at hmem ⊢
    tauto
  obtain ⟨y, hy, hyaddr⟩ := h.used c (by simp only [List.mem_append] at hrest ⊢; tauto) hf
  have haddr_ne := h.lists.tiles.addr_ne (by decide) hrest
  refine ⟨y, (List.mem_erase_of_ne ?_).mpr hy, hyaddr⟩
  rintro rfl
  omega

lemma umalloc_step (h : s.Coalesced bs) (hwant : want ≤ 0xFFFFFFE8) (hm : umalloc s.heap want = some (heap, p)) :
    ∃ bs', UserProgram.Coalesced ⟨heap, if p = 0 then s.live else (p, want) :: s.live⟩ bs' := by
  by_cases hpos : want = 0
  · rw [umalloc, umallocWith, if_pos hpos, Option.some.injEq, Prod.mk.injEq] at hm
    obtain ⟨rfl, rfl⟩ := hm
    exact ⟨bs, h⟩
  obtain ⟨heap', p', hm', hcases⟩ := h.lists.umalloc_list hwant hpos
  obtain ⟨rfl, rfl⟩ : heap = heap' ∧ p = p' := by simpa using hm.symm.trans hm'
  rcases hcases with ⟨rfl, rfl, -⟩ | ⟨hp₀, -, -, pre, b, post, rfl, hb, hp, hl⟩ | ⟨hp₀, hp, -, hl⟩
  · exact ⟨bs, h⟩
  · rw [if_neg hp₀]
    exact ⟨_, h.allot hb.1 hp hl⟩
  · rw [if_neg hp₀]
    exact ⟨_, h.grow hp hl⟩

lemma ufree_step (h : s.Coalesced bs) (hx : x ∈ s.live) (hf : ufree s.heap x.1 = some heap) :
    ∃ bs', UserProgram.Coalesced ⟨heap, s.live.erase x⟩ bs' := by
  obtain ⟨pre, b, post, rfl, -, haddr, -⟩ := h.lists.block hx
  obtain ⟨m, hm, hl⟩ := h.lists.ufree_list hx haddr
  obtain rfl : heap = { s.heap with mem := m } := by simpa using hf.symm.trans hm
  exact ⟨_, h.free haddr hl⟩

end UserProgram.Coalesced

lemma UserProgram.Run.coalesced (h : UserProgram.Run (· ≤ 0xFFFFFFE8) s) : ∃ bs, s.Coalesced bs := by
  induction h with
  | start m =>
    obtain ⟨bs, hbs⟩ := (UserProgram.Run.start (P := (· ≤ 0xFFFFFFE8)) m).lists
    obtain rfl : bs = [] := hbs.heap.empty_iff.mpr rfl
    exact ⟨[], hbs, .nil, fun b hb => (by cases hb)⟩
  | umalloc want _ hwant hm ih =>
    obtain ⟨bs, hbs⟩ := ih
    exact hbs.umalloc_step hwant hm
  | ufree _ hx hf ih =>
    obtain ⟨bs, hbs⟩ := ih
    exact hbs.ufree_step hx hf
  | use m _ hx hm ih =>
    obtain ⟨bs, hbs⟩ := ih
    exact ⟨bs, hbs.lists.use hx hm, hbs.separate, hbs.used⟩

namespace UserProgram.Coalesced

lemma fromList (h : s.Coalesced bs) (hwant : want ≤ 0xFFFFFFE8) (hb : b ∈ bs) (hfit : fits (rounded want) b)
    (f : Word → Word → Word × Word) : umallocWith f s.heap want = umalloc s.heap want := by
  rw [← round_eq hwant] at hfit
  rw [umalloc, umallocWith, umallocWith]
  split
  · rfl
  dsimp only
  rcases h.lists.heap.seek_cases h.lists.length_lt ((want + 7) &&& ~~~7) with ⟨-, hnone⟩ |
    ⟨pre, c, post, y, rfl, -, -, hs, hy⟩
  · exact (hnone b hb hfit).elim
  · have hbounds := h.lists.tiles.bounds (b := c) (by simp)
    have hy₀ : y ≠ 0 := ne_zero_of_pos (by omega)
    rw [hs]
    dsimp only
    rw [if_pos hy₀, if_pos hy₀]

lemma undo (h : s.Coalesced bs) (hwant : want ≤ 0xFFFFFFE8) (hfrom : FromList s.heap want (heap, p)) (hp : p ≠ 0) :
    ∃ m, ufree heap p = some ⟨m, s.heap.head, s.heap.brk⟩ ∧ headers userHeapSteps m s.heap.head = some bs := by
  have hpos : want ≠ 0 := by
    rintro rfl
    have hm := hfrom sbrk
    rw [umallocWith, if_pos rfl, Option.some.injEq, Prod.mk.injEq] at hm
    exact hp hm.2.symm
  obtain ⟨heap', p', hm', hcases⟩ := h.lists.umalloc_list hwant hpos
  obtain ⟨rfl, rfl⟩ : heap = heap' ∧ p = p' := by simpa using (hfrom sbrk).symm.trans hm'
  rcases hcases with ⟨rfl, -⟩ | ⟨-, hbrk, hhead, pre, b, post, rfl, hb, haddr, hl⟩ | ⟨-, -, hnone, -⟩
  · exact (hp rfl).elim
  · obtain ⟨c, rest, hcut, -, hcaddr, hjoin⟩ := joined_cut 16 8 ((want + 7) &&& ~~~7).toNat h.separate hb.1
    rw [hcut] at hl
    have hlist : UserProgram.Lists ⟨heap, (p, want) :: s.live⟩ (pre ++ ([c] ++ (rest ++ post))) := hl
    obtain ⟨m, hf, hl'⟩ := hlist.ufree_list (x := (p, want)) List.mem_cons_self (by rw [haddr, hcaddr])
    rw [hjoin] at hl'
    dsimp only at hf hl'
    rw [hbrk, hhead] at hf hl'
    exact ⟨m, hf, hl'.heap.headers_eq hl'.length_lt⟩
  · -- with no block that fits, the result depends on the system call
    have hfail := hfrom fun brk _ => (-1, brk)
    rcases h.lists.heap.seek_cases h.lists.length_lt ((want + 7) &&& ~~~7) with ⟨hs, -⟩ | ⟨_, c, _, _, rfl, -, hc, -⟩
    · simp only [umallocWith, if_neg hpos, hs, ne_eq, not_true_eq_false, if_false, if_true, Option.some.injEq,
        Prod.mk.injEq] at hfail
      exact (hp hfail.2.symm).elim
    · exact (hnone c (by simp) hc).elim

lemma whole (h : s.Coalesced bs) (hlive : s.live = []) : (bs = [] ∧ s.heap.brk = userHeapBase) ∨
    bs = [⟨userHeapBase.toNat, s.heap.brk.toNat - userHeapBase.toNat - 16, true⟩] := by
  have hbase : userHeapBase.toNat = 0x90000 := rfl
  have hfree : ∀ b ∈ bs, b.free = true := by
    intro b hb
    by_contra hf
    obtain ⟨x, hx, -⟩ := h.used b hb (Bool.not_eq_true _ ▸ hf)
    rw [hlive] at hx
    cases hx
  rcases h.separate.single hfree with rfl | ⟨b, rfl⟩
  · have htiles : (0x90000 : ℕ) = s.heap.brk.toNat := h.lists.tiles
    exact .inl ⟨rfl, BitVec.eq_of_toNat_eq htiles.symm⟩
  · obtain ⟨haddr, hend⟩ : b.addr = 0x90000 ∧ 0x90000 + 16 + b.size = s.heap.brk.toNat := h.lists.tiles
    obtain ⟨addr, size, free⟩ := b
    obtain rfl : free = true := hfree _ List.mem_cons_self
    dsimp only at haddr hend
    rw [haddr, show size = s.heap.brk.toNat - userHeapBase.toNat - 16 by omega]
    exact .inr rfl

end UserProgram.Coalesced

/-- The list tiles the granted heap without free neighbours; it is used before `SYS_SBRK` is, an allocation from it can be
undone, and it is one block when nothing is allocated. -/
theorem user_heap_coalesces (h : UserProgram.Run (· ≤ 0xFFFFFFE8) s) :
    ∃ bs, headers userHeapSteps s.heap.mem s.heap.head = some bs ∧ bs.Pairwise (·.addr < ·.addr) ∧
      Tiles 16 userHeapBase.toNat s.heap.brk.toNat bs ∧ Separate bs ∧
      (∀ want ≤ 0xFFFFFFE8, ∀ b ∈ bs, fits (rounded want) b → ∀ f, umallocWith f s.heap want = umalloc s.heap want) ∧
      (∀ want ≤ 0xFFFFFFE8, ∀ heap p, FromList s.heap want (heap, p) → p ≠ 0 → ∃ m,
        ufree heap p = some ⟨m, s.heap.head, s.heap.brk⟩ ∧ headers userHeapSteps m s.heap.head = some bs) ∧
      (s.live = [] → (bs = [] ∧ s.heap.brk = userHeapBase) ∨
        bs = [⟨userHeapBase.toNat, s.heap.brk.toNat - userHeapBase.toNat - 16, true⟩]) := by
  obtain ⟨bs, hbs⟩ := h.coalesced
  exact ⟨bs, hbs.lists.heap.headers_eq hbs.lists.length_lt, hbs.lists.tiles.spread.sorted (by decide), hbs.lists.tiles,
    hbs.separate, fun want hwant b hb hfit f => hbs.fromList hwant hb hfit f,
    fun want hwant heap p hfrom hp => hbs.undo hwant hfrom hp, hbs.whole⟩

def sampleJoined : UserHeap :=
  sampleFree (sampleFree (sampleAlloc (sampleAlloc (sampleAlloc sampleUserHeap 24) 40) 8) 0x90010) 0x90038

lemma sampleJoined_run : UserProgram.Run (· ≤ 0xFFFFFFE8) ⟨sampleJoined, [(0x90070, 8)]⟩ := by
  have h₁ : UserProgram.Run (· ≤ 0xFFFFFFE8) ⟨sampleAlloc sampleUserHeap 24, [(0x90010, 24)]⟩ :=
    (UserProgram.Run.start fun _ => 0).umalloc 24 (by decide) (sample_alloc (p := 0x90010) (by decide +kernel))
  have h₂ : UserProgram.Run _ ⟨_, [(0x90038, 40), (0x90010, 24)]⟩ :=
    h₁.umalloc 40 (by decide) (sample_alloc (p := 0x90038) (by decide +kernel))
  have h₃ : UserProgram.Run _ ⟨_, [(0x90070, 8), (0x90038, 40), (0x90010, 24)]⟩ :=
    h₂.umalloc 8 (by decide) (sample_alloc (p := 0x90070) (by decide +kernel))
  have h₄ : UserProgram.Run _ ⟨_, [(0x90070, 8), (0x90038, 40)]⟩ :=
    h₃.ufree (x := (0x90010, 24)) (by decide) (sample_free (by decide +kernel))
  exact h₄.ufree (x := (0x90038, 40)) (by decide) (sample_free (by decide +kernel))

/-- The joined block serves a request that neither of the two could hold, and can be had back; without the third allocation
the list is one block. -/
theorem user_heap_coalesces_joined :
    headers userHeapSteps sampleJoined.mem sampleJoined.head = some [⟨0x90000, 80, true⟩, ⟨0x90060, 8, false⟩] ∧
    (∀ f, umallocWith f sampleJoined 64 = some (sampleAlloc sampleJoined 64, 0x90010)) ∧
    (∃ m, ufree (sampleAlloc sampleJoined 64) 0x90010 = some ⟨m, sampleJoined.head, sampleJoined.brk⟩ ∧
      headers userHeapSteps m sampleJoined.head = some [⟨0x90000, 80, true⟩, ⟨0x90060, 8, false⟩]) ∧
    headers userHeapSteps (sampleFree sampleJoined 0x90070).mem (sampleFree sampleJoined 0x90070).head =
      some [⟨0x90000, (sampleFree sampleJoined 0x90070).brk.toNat - 0x90000 - 16, true⟩] := by
  have hlist : headers userHeapSteps sampleJoined.mem sampleJoined.head = some [⟨0x90000, 80, true⟩,
    ⟨0x90060, 8, false⟩] := by
    decide +kernel
  obtain ⟨bs, hbs, -, -, -, hfits, hundo, -⟩ := user_heap_coalesces sampleJoined_run
  obtain rfl := Option.some.inj (hlist.symm.trans hbs)
  have hfrom : FromList sampleJoined 64 (sampleAlloc sampleJoined 64, 0x90010) := fun f =>
    (hfits 64 (by decide) ⟨0x90000, 80, true⟩ List.mem_cons_self ⟨rfl, by decide⟩ f).trans
      (sample_alloc (by decide +kernel))
  have hfreed : UserProgram.Run (· ≤ 0xFFFFFFE8) ⟨sampleFree sampleJoined 0x90070, []⟩ :=
    sampleJoined_run.ufree (x := (0x90070, 8)) (by decide) (sample_free (by decide +kernel))
  obtain ⟨bs', hbs', -, -, -, -, -, hwhole⟩ := user_heap_coalesces hfreed
  refine ⟨hlist, hfrom, hundo 64 (by decide) _ _ hfrom (by decide), ?_⟩
  obtain ⟨-, hbrk⟩ | rfl := hwhole rfl
  · exact absurd hbrk (by decide +kernel)
  · exact hbs'

end PyroOS
