import Mathlib.Logic.Relation
import Mathlib.Order.Interval.Set.Basic
import PyroOS.Heap.UserCalls

/-! A program that moves the break itself, next to its heap. -/

namespace PyroOS

open ByteMemory FreeList

def extent (x : Word × Word) : Set ℕ := Set.Ico x.1.toNat (x.1.toNat + x.2.toNat)

/-- With all that `umalloc` has ever returned, and all that the program got from `u_sbrk` directly. -/
structure SharedProgram extends UserProgram where
  returned : List (Word × Word)
  direct : List (Word × Word)

namespace SharedProgram

def given (s : SharedProgram) (want : Word) (heap : UserHeap) (p : Word) : SharedProgram :=
  if p = 0 then { s with heap := heap }
  else { s with heap := heap, live := (p, want) :: s.live, returned := (p, want) :: s.returned }

def freed (s : SharedProgram) (x : Word × Word) (heap : UserHeap) : SharedProgram :=
  { s with heap := heap, live := s.live.erase x }

def grown (s : SharedProgram) (n : Word) : SharedProgram :=
  let (old, brk) := sbrk s.heap.brk n
  if old = -1 then { s with heap := { s.heap with brk := brk } }
  else { s with heap := { s.heap with brk := brk }, direct := (old, n) :: s.direct }

inductive Umalloc : SharedProgram → SharedProgram → Prop
  | intro {s : SharedProgram} {want p : Word} {heap : UserHeap} : want ≤ 0xFFFFFFE8 →
    umalloc s.heap want = some (heap, p) → Umalloc s (s.given want heap p)

/-- The program frees `x` in a state `s` only if `Q s x`. It writes to what it asked for and to what it took itself. -/
inductive Run (Q : SharedProgram → Word × Word → Prop) : SharedProgram → Prop
  | start (m : Mem) : Run Q ⟨⟨⟨m, 0, userHeapBase⟩, []⟩, [], []⟩
  | umalloc {s t : SharedProgram} : Run Q s → Umalloc s t → Run Q t
  | ufree {s : SharedProgram} {x : Word × Word} {heap : UserHeap} : Run Q s → x ∈ s.live → Q s x →
    PyroOS.ufree s.heap x.1 = some heap → Run Q (s.freed x heap)
  | sbrk {s : SharedProgram} (n : Word) : Run Q s → 0 < n → Run Q (s.grown n)
  | use {s : SharedProgram} {x : Word × Word} (m : Mem) : Run Q s → x ∈ s.live ∨ x ∈ s.direct →
    (∀ a, m a ≠ s.heap.mem a → a.toNat ∈ extent x) → Run Q { s with heap := { s.heap with mem := m } }

def Apart (s : SharedProgram) : Prop :=
  (∀ x ∈ s.returned, ∀ r ∈ s.direct, Disjoint (extent x) (extent r)) ∧
    s.live.Pairwise fun x y => Disjoint (extent x) (extent y)

def Joinable (s : SharedProgram) (x : Word × Word) : Prop :=
  ∃ bs, headers userHeapSteps (writeWord s.heap.mem (x.1 - 16 + 4) 1) s.heap.head = some bs ∧ Touching 16 bs

def taken (s : SharedProgram) : Set ℕ := {a | ∃ r ∈ s.direct, a ∈ extent r}

structure Shares (s : SharedProgram) (bs : List Block) : Prop where
  ordered : s.toUserProgram.Ordered bs
  apart : Disjoint (area 16 bs) s.taken
  covers : area 16 bs ∪ s.taken = Set.Ico 0x90000 s.heap.brk.toNat
  returned : ∀ x ∈ s.returned, extent x ⊆ Set.Ico 0x90000 s.heap.brk.toNat \ s.taken

end SharedProgram

variable {m : Mem} {heap : UserHeap} {want p n : Word} {x : Word × Word} {bs pre post : List Block} {b d : Block}

/-! ### Allocations in order -/

namespace UserProgram.Ordered

variable {s : UserProgram}

lemma extent_subset (h : s.Ordered bs) (hx : x ∈ s.live) : extent x ⊆ area 16 bs := by
  obtain ⟨b, hb, -, haddr, hsize⟩ := h.live x hx
  rintro a ⟨hle, hlt⟩
  exact ⟨b, hb, by omega, by omega⟩

lemma extents_apart (h : s.Ordered bs) : s.live.Pairwise fun x y => Disjoint (extent x) (extent y) := by
  have hne : s.live.Pairwise fun x y => x.1 ≠ y.1 := List.pairwise_map.mp h.nodup
  refine hne.imp_of_mem fun {x y} hx hy hxy => Set.disjoint_left.mpr ?_
  obtain ⟨b, hb, -, hbaddr, hbsize⟩ := h.live x hx
  obtain ⟨c, hc, -, hcaddr, hcsize⟩ := h.live y hy
  rintro a ⟨hxle, hxlt⟩ ⟨hyle, hylt⟩
  rcases h.heap.spread.apart hb hc with rfl | happart | happart
  · exact hxy (BitVec.eq_of_toNat_eq (hbaddr.trans hcaddr.symm))
  · omega
  · omega

lemma isSome_umalloc (h : s.Ordered bs) (hwant : want ≤ 0xFFFFFFE8) : (umalloc s.heap want).isSome := by
  by_cases hpos : want = 0
  · rw [umalloc, umallocWith, if_pos hpos]
    rfl
  · obtain ⟨heap, p, hm, -⟩ := h.umalloc_list hwant hpos
    rw [hm]
    rfl

lemma headers_marked (h : s.Ordered (pre ++ ([b] ++ post))) (hb : (x.1 - 16).toNat = b.addr) :
    headers userHeapSteps (writeWord s.heap.mem (x.1 - 16 + 4) 1) s.heap.head =
      some (pre ++ ([{ b with free := true }] ++ post)) := by
  have hlen := h.length_lt
  have hmark := h.heap.mark hb true
  exact hmark.headers_eq (by simpa using hlen)

end UserProgram.Ordered

namespace SharedProgram

variable {s t : SharedProgram}

lemma joinable_iff (h : s.toUserProgram.Ordered (pre ++ ([b] ++ post))) (hb : (x.1 - 16).toNat = b.addr) :
    s.Joinable x ↔ Touching 16 (pre ++ ([{ b with free := true }] ++ post)) := by
  have hheaders := h.headers_marked hb
  constructor
  · rintro ⟨bs, hbs, htouch⟩
    rwa [Option.some.inj (hheaders.symm.trans hbs)]
  · exact fun htouch => ⟨_, hheaders, htouch⟩

lemma mem_taken_cons {u : UserProgram} {returned direct : List (Word × Word)} {r : Word × Word} {a : ℕ} :
    a ∈ taken ⟨u, returned, r :: direct⟩ ↔ a ∈ extent r ∨ a ∈ taken ⟨u, returned, direct⟩ := by
  simp only [taken, List.mem_cons, exists_eq_or_imp, Set.mem_ofPred_eq]

/-! ### The steps -/

namespace Shares

lemma isApart (h : s.Shares bs) : s.Apart := by
  refine ⟨fun x hx r hr => Set.disjoint_left.mpr fun a hax har => ?_, h.ordered.extents_apart⟩
  exact (h.returned x hx hax).2 ⟨r, hr, har⟩

lemma not_taken (h : s.Shares bs) {a : ℕ} (ha : a ∈ area 16 bs) : a ∈ Set.Ico 0x90000 s.heap.brk.toNat \ s.taken :=
  ⟨h.covers ▸ Set.mem_union_left _ ha, Set.disjoint_left.mp h.apart ha⟩

lemma mem_iff (h : s.Shares bs) (a : ℕ) : a ∈ area 16 bs ∨ a ∈ s.taken ↔ 0x90000 ≤ a ∧ a < s.heap.brk.toNat := by
  rw [← Set.mem_union, h.covers]
  exact Iff.rfl

lemma rearrange {bs' : List Block} {live : List (Word × Word)} (h : s.Shares bs) (hbrk : heap.brk = s.heap.brk)
    (ho : UserProgram.Ordered ⟨heap, live⟩ bs') (harea : area 16 bs' = area 16 bs) :
    Shares ⟨⟨heap, live⟩, s.returned, s.direct⟩ bs' := by
  refine ⟨ho, ?_, ?_, ?_⟩
  · rw [harea]
    exact h.apart
  · rw [harea]
    exact hbrk ▸ h.covers
  · exact hbrk ▸ h.returned

lemma give {bs' : List Block} (h : Shares ⟨⟨heap, (p, want) :: s.live⟩, s.returned, s.direct⟩ bs') (hp : p ≠ 0) :
    (s.given want heap p).Shares bs' := by
  rw [given, if_neg hp]
  refine ⟨h.ordered, h.apart, h.covers, List.forall_mem_cons.mpr ⟨?_, h.returned⟩⟩
  exact (h.ordered.extent_subset List.mem_cons_self).trans fun a ha => h.not_taken ha

lemma extend {bs' : List Block} {live : List (Word × Word)} {k : ℕ} (h : s.Shares bs)
    (hbrk : heap.brk.toNat = s.heap.brk.toNat + 16 + k) (ho : UserProgram.Ordered ⟨heap, live⟩ bs')
    (hbs : bs' = bs ++ [⟨s.heap.brk.toNat, k, false⟩]) : Shares ⟨⟨heap, live⟩, s.returned, s.direct⟩ bs' := by
  have hlow := h.ordered.brk_low
  have hcov := h.mem_iff
  have harea : ∀ a, a ∈ area 16 bs' ↔ a ∈ area 16 bs ∨ s.heap.brk.toNat ≤ a ∧ a < s.heap.brk.toNat + 16 + k := by
    intro a
    rw [hbs, area_append, Set.mem_union, mem_area_singleton]
  refine ⟨ho, Set.disjoint_left.mpr fun a ha hta => ?_, ?_, fun x hx a ha => ?_⟩
  · rcases (harea a).mp ha with ha | ha
    · exact Set.disjoint_left.mp h.apart ha hta
    · have hlt := (hcov a).mp (.inr hta)
      omega
  · ext a
    have hunion : a ∈ area 16 bs' ∪ s.taken ↔
        (a ∈ area 16 bs ∨ a ∈ s.taken) ∨ s.heap.brk.toNat ≤ a ∧ a < s.heap.brk.toNat + 16 + k := by
      rw [Set.mem_union, harea a, or_right_comm]
    refine hunion.trans ?_
    simp only [hcov a, Set.mem_Ico, hbrk]
    omega
  · obtain ⟨⟨hle, hlt⟩, hout⟩ := h.returned x hx ha
    exact ⟨⟨hle, by dsimp only; omega⟩, hout⟩

lemma umalloc (h : s.Shares bs) (hstep : s.Umalloc t) : ∃ bs', t.Shares bs' := by
  obtain ⟨hwant, hm⟩ := hstep
  rename_i want p heap
  by_cases hpos : want = 0
  · rw [PyroOS.umalloc, umallocWith, if_pos hpos] at hm
    cases hm
    exact ⟨bs, h⟩
  obtain ⟨heap', p', hm', hcases⟩ := h.ordered.umalloc_list hwant hpos
  obtain ⟨rfl, rfl⟩ : heap = heap' ∧ p = p' := by simpa using hm.symm.trans hm'
  rcases hcases with ⟨rfl, rfl, -⟩ | ⟨hp₀, hbrk, -, pre, b, post, rfl, hb, -, ho⟩ | ⟨hp₀, -, hbrk, -, ho⟩
  · exact ⟨bs, h⟩
  · refine ⟨_, give (h.rearrange hbrk ho ?_) hp₀⟩
    rw [area_append, area_append, area_cut hb.2, ← area_append, ← area_append]
  · exact ⟨_, give (h.extend hbrk ho rfl) hp₀⟩

lemma ufree (h : s.Shares bs) (hx : x ∈ s.live) (hjoin : s.Joinable x) (hf : PyroOS.ufree s.heap x.1 = some heap) :
    ∃ bs', (s.freed x heap).Shares bs' := by
  obtain ⟨pre, b, post, rfl, -, haddr, hb, -⟩ := h.ordered.block hx
  obtain ⟨m, hf', ho⟩ := h.ordered.ufree_list hx haddr
  obtain rfl : heap = { s.heap with mem := m } := by simpa using hf.symm.trans hf'
  refine ⟨_, h.rearrange rfl ho ?_⟩
  rw [((joinable_iff h.ordered hb).mp hjoin).area_joined, area_mark]

lemma sbrk (h : s.Shares bs) (hn : 0 < n) : (s.grown n).Shares bs := by
  have hn₀ : n ≠ 0 := ne_zero_of_pos hn
  have hlow := h.ordered.brk_low
  have hhigh := h.ordered.brk
  rcases sbrk_cases hlow hhigh hn₀ with ⟨hfail, -⟩ | ⟨hok, hsum, hfit⟩
  · simp only [grown, hfail, if_true]
    exact h
  · simp only [grown, hok, h.ordered.brk_ne, if_false]
    have hcov := h.mem_iff
    have hheap : Spaced 16 0x90000 (s.heap.brk + n).toNat s.heap.mem s.heap.head bs :=
      ⟨h.ordered.heap.seg, h.ordered.heap.spread.mono le_rfl (by omega), h.ordered.heap.header, h.ordered.heap.low,
        by omega⟩
    have hnew : ∀ a, a ∈ extent (s.heap.brk, n) ↔ s.heap.brk.toNat ≤ a ∧ a < s.heap.brk.toNat + n.toNat :=
      fun a => Iff.rfl
    refine ⟨⟨hheap, by dsimp only; omega, h.ordered.sizes, h.ordered.live, h.ordered.nodup⟩,
      Set.disjoint_left.mpr fun a ha hta => ?_, ?_, fun x hx a ha => ?_⟩
    · rcases mem_taken_cons.mp hta with hta | hta
      · have hlt := (hcov a).mp (.inl ha)
        rw [hnew] at hta
        omega
      · exact Set.disjoint_left.mp h.apart ha hta
    · ext a
      rw [Set.mem_union, mem_taken_cons, or_left_comm, hnew]
      refine (or_congr_right (hcov a)).trans ?_
      simp only [Set.mem_Ico, hsum]
      omega
    · obtain ⟨⟨hle, hlt⟩, hout⟩ := h.returned x hx ha
      refine ⟨⟨hle, by dsimp only; omega⟩, fun hta => ?_⟩
      rcases mem_taken_cons.mp hta with hta | hta
      · rw [hnew] at hta
        omega
      · exact hout hta

lemma use (h : s.Shares bs) (hx : x ∈ s.live ∨ x ∈ s.direct) (hm : ∀ a, m a ≠ s.heap.mem a → a.toNat ∈ extent x) :
    Shares { s with heap := { s.heap with mem := m } } bs := by
  rcases hx with hx | hx
  · exact h.rearrange rfl (h.ordered.use hx hm) rfl
  · -- no header holds a byte of a direct region
    have hheap : Spaced 16 0x90000 s.heap.brk.toNat m s.heap.head bs := by
      refine h.ordered.heap.outside fun a ha b hb => ?_
      by_contra hin
      exact Set.disjoint_left.mp h.apart ⟨b, hb, by omega, by omega⟩ ⟨x, hx, hm a ha⟩
    exact h.rearrange rfl ⟨hheap, h.ordered.brk, h.ordered.sizes, h.ordered.live, h.ordered.nodup⟩ rfl

end Shares

lemma Run.shares (h : Run Joinable s) : ∃ bs, s.Shares bs := by
  induction h with
  | start m =>
    obtain ⟨bs, hbs⟩ := (UserProgram.Run.start (P := (· ≤ 0xFFFFFFE8)) m).lists
    obtain rfl : bs = [] := hbs.heap.empty_iff.mpr rfl
    refine ⟨[], hbs.toOrdered, ?_, ?_, fun x hx => (by cases hx)⟩
    · simp [area]
    · ext a
      simp [area, taken, userHeapBase]
  | umalloc _ hstep ih =>
    obtain ⟨bs, hbs⟩ := ih
    exact hbs.umalloc hstep
  | ufree _ hx hjoin hf ih =>
    obtain ⟨bs, hbs⟩ := ih
    exact hbs.ufree hx hjoin hf
  | sbrk n _ hn ih =>
    obtain ⟨bs, hbs⟩ := ih
    exact ⟨bs, hbs.sbrk hn⟩
  | use m _ hx hm ih =>
    obtain ⟨bs, hbs⟩ := ih
    exact ⟨bs, hbs.use hx hm⟩

/-! ### Joining across a gap -/

lemma exists_given (h : s.toUserProgram.Ordered bs) (hd : d ∈ bs) (hfree : d.free = true) (hpos : 0 < d.size) :
    ∃ t, Relation.ReflTransGen Umalloc s t ∧ t.direct = s.direct ∧
      ∃ x ∈ t.returned, x.1.toNat = d.addr + 16 ∧ x.2.toNat = d.size := by
  -- every allocation that does not give out `d` uses up free bytes of other blocks
  induction hk : freeBytes bs using Nat.strong_induction_on generalizing s bs with
  | _ k ih =>
    have hbounds := h.heap.spread.bounds hd
    have hbrk := h.brk
    obtain ⟨want, hwant⟩ : ∃ want : Word, want.toNat = d.size := ⟨BitVec.ofNat 32 d.size, by
      rw [BitVec.toNat_ofNat]
      omega⟩
    have hle : want ≤ 0xFFFFFFE8 := by
      have hmax : (0xFFFFFFE8 : Word).toNat = 0xFFFFFFE8 := rfl
      rw [BitVec.le_def]
      omega
    have hround : ((want + 7) &&& ~~~7).toNat = d.size := by
      rw [round_eq hle, rounded, hwant]
      have hdvd := h.sizes d hd
      omega
    have hwant₀ : want ≠ 0 := ne_zero_of_pos (by omega)
    obtain ⟨heap, p, hm, hcases⟩ := h.umalloc_list hle hwant₀
    rw [hround] at hcases
    have hstep : Umalloc s (s.given want heap p) := .intro hle hm
    rcases hcases with ⟨-, -, hnone⟩ | ⟨hp₀, -, -, pre, b, post, rfl, hb, hp, ho⟩ | ⟨-, -, -, hnone, -⟩
    · exact (hnone d hd ⟨hfree, le_rfl⟩).elim
    · have hgiven : s.given want heap p = ⟨⟨heap, (p, want) :: s.live⟩, (p, want) :: s.returned, s.direct⟩ := if_neg hp₀
      rw [hgiven] at hstep
      by_cases hdb : d = b
      · exact ⟨_, .single hstep, rfl, _, List.mem_cons_self, by rw [hp, hdb], hwant⟩
      · have hless : freeBytes (pre ++ (cut 16 8 d.size b ++ post)) < k := by
          have hcut : freeBytes (cut 16 8 d.size b) < freeBytes [b] := freeBytes_cut hb.1 hpos hb.2
          rw [← hk, freeBytes_append, freeBytes_append, freeBytes_append, freeBytes_append]
          omega
        have hd' : d ∈ pre ++ (cut 16 8 d.size b ++ post) := by
          simp only [List.mem_append, List.mem_singleton, hdb, false_or] at hd ⊢
          tauto
        obtain ⟨t, ht, hdirect, hx⟩ :=
          ih _ hless (s := ⟨⟨heap, (p, want) :: s.live⟩, (p, want) :: s.returned, s.direct⟩) ho hd' rfl
        exact ⟨t, .head hstep ht, hdirect, hx⟩
    · exact (hnone d hd ⟨hfree, le_rfl⟩).elim

lemma Shares.exists_overlap (h : s.Shares bs) (hx : x ∈ s.live) (hjoin : ¬ s.Joinable x)
    (hf : PyroOS.ufree s.heap x.1 = some heap) : ∃ t, Relation.ReflTransGen Umalloc (s.freed x heap) t ∧ ¬ t.Apart := by
  obtain ⟨pre, b, post, rfl, -, haddr, hb, -⟩ := h.ordered.block hx
  obtain ⟨m, hf', ho⟩ := h.ordered.ufree_list hx haddr
  obtain rfl : heap = { s.heap with mem := m } := by simpa using hf.symm.trans hf'
  have hmark := (h.ordered.heap.mark hb true).spread
  obtain ⟨d, hd, hfree, a, hle, hlt, hgap⟩ := hmark.exists_gap (by decide) (mt (joinable_iff h.ordered hb).mpr hjoin)
  have hbounds := ho.heap.spread.bounds hd
  have hin : a ∈ s.taken := by
    have hcov : a ∈ area 16 (pre ++ ([b] ++ post)) ∪ s.taken := by
      rw [h.covers]
      exact ⟨by omega, by dsimp only at hbounds; omega⟩
    exact hcov.resolve_left fun hmem => hgap (by rwa [area_mark])
  obtain ⟨r, hr, har⟩ := hin
  obtain ⟨t, ht, hdirect, y, hy, hyaddr, hysize⟩ := exists_given (s := s.freed x _) ho hd hfree (by omega)
  refine ⟨t, ht, fun hap => Set.disjoint_left.mp (hap.1 y hy r (hdirect ▸ hr)) ?_ har⟩
  exact ⟨by omega, by omega⟩

/-- As long as no `ufree` joins blocks across memory that the program took itself, nothing overlaps; after one that does,
some calls of `umalloc` lead to an overlap. -/
theorem shared_break_iff (h : Run Joinable s) : s.Apart ∧ (∀ want ≤ 0xFFFFFFE8, (umalloc s.heap want).isSome) ∧
    ∀ x ∈ s.live, ∃ heap, ufree s.heap x.1 = some heap ∧
      (s.Joinable x ↔ ∀ t, Relation.ReflTransGen Umalloc (s.freed x heap) t → t.Apart) := by
  obtain ⟨bs, hbs⟩ := h.shares
  refine ⟨hbs.isApart, fun want hwant => hbs.ordered.isSome_umalloc hwant, fun x hx => ?_⟩
  obtain ⟨pre, b, post, hsplit, -, haddr, -⟩ := hbs.ordered.block hx
  obtain ⟨m, hf, -⟩ := (hsplit ▸ hbs.ordered).ufree_list hx haddr
  refine ⟨_, hf, fun hjoin t ht => ?_, fun hall => by_contra fun hjoin => ?_⟩
  · have hrun : Run Joinable t := by
      induction ht with
      | refl => exact h.ufree hx hjoin hf
      | tail _ hstep ih => exact ih.umalloc hstep
    obtain ⟨bs', hbs'⟩ := hrun.shares
    exact hbs'.isApart
  · obtain ⟨t, ht, hap⟩ := hbs.exists_overlap hx hjoin hf
    exact hap (hall t ht)

def sampleShared : SharedProgram := ⟨⟨sampleUserHeap, []⟩, [], []⟩

variable {Q : SharedProgram → Word × Word → Prop}

lemma Run.umalloc_get (h : Run Q s) (hn : n ≤ 0xFFFFFFE8) (hm : (PyroOS.umalloc s.heap n).isSome) :
    Run Q (s.given n ((PyroOS.umalloc s.heap n).get hm).1 ((PyroOS.umalloc s.heap n).get hm).2) :=
  h.umalloc (.intro hn (Option.some_get hm).symm)

lemma Run.ufree_get (h : Run Q s) (hx : x ∈ s.live) (hQ : Q s x) (hf : (PyroOS.ufree s.heap x.1).isSome) :
    Run Q (s.freed x ((PyroOS.ufree s.heap x.1).get hf)) :=
  h.ufree hx hQ (Option.some_get hf).symm

lemma joinable_of_headers (bs : List Block)
    (hbs : headers userHeapSteps (writeWord s.heap.mem (x.1 - 16 + 4) 1) s.heap.head = some bs)
    (ht : Touching 16 bs) : s.Joinable x := ⟨bs, hbs, ht⟩

theorem shared_break_iff_freed : ∃ s : SharedProgram, s.returned = [(0x90040, 16), (0x90018, 24)] ∧
    s.direct = [(0x90000, 8)] ∧ s.live = [(0x90040, 16)] ∧ s.Apart ∧ ∃ heap, ufree s.heap 0x90040 = some heap ∧
      ∀ t, Relation.ReflTransGen Umalloc (s.freed (0x90040, 16) heap) t → t.Apart := by
  have h₀ : Run Joinable sampleShared := .start fun _ => 0
  have h₁ := (h₀.sbrk 8 (by decide)).umalloc_get (n := 24) (by decide) (by decide +kernel)
  have h₂ := h₁.umalloc_get (n := 16) (by decide) (by decide +kernel)
  have h₃ := h₂.ufree_get (x := (0x90018, 24)) (by decide +kernel) (joinable_of_headers
    [⟨0x90008, 24, true⟩, ⟨0x90030, 16, false⟩] (by decide +kernel) (by simp [Touching])) (by decide +kernel)
  obtain ⟨hapart, -, hfree⟩ := shared_break_iff h₃
  obtain ⟨heap, hf, hiff⟩ := hfree (0x90040, 16) (by decide +kernel)
  exact ⟨_, by decide +kernel, by decide +kernel, by decide +kernel, hapart, heap, hf, hiff.mp (joinable_of_headers
    [⟨0x90008, 24, true⟩, ⟨0x90030, 16, true⟩] (by decide +kernel) (by simp [Touching]))⟩

/-- Two blocks of 16 bytes with 16 direct bytes between them become one free block of 48 bytes, and the next request for 48
bytes gets the direct ones. -/
theorem umalloc_overlaps : ∃ s, Run (fun _ _ => True) s ∧ ¬ s.Apart := by
  have h₀ : Run (fun _ _ => True) sampleShared := .start fun _ => 0
  have h₁ := h₀.umalloc_get (n := 16) (by decide) (by decide +kernel)
  have h₂ := h₁.sbrk 16 (by decide)
  have h₃ := h₂.umalloc_get (n := 16) (by decide) (by decide +kernel)
  have h₄ := h₃.ufree_get (x := (0x90010, 16)) (by decide +kernel) trivial (by decide +kernel)
  have h₅ := h₄.ufree_get (x := (0x90040, 16)) (by decide +kernel) trivial (by decide +kernel)
  have h₆ := h₅.umalloc_get (n := 48) (by decide) (by decide +kernel)
  refine ⟨_, h₆, fun hap => ?_⟩
  have hd := hap.1 (0x90010, 48) (by decide +kernel) (0x90020, 16) (by decide +kernel)
  have ha : 0x90020 ∈ extent (0x90010, 48) := ⟨by decide, by decide⟩
  exact Set.disjoint_left.mp hd ha ⟨by decide, by decide⟩

end SharedProgram

end PyroOS
