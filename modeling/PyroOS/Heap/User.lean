import PyroOS.Library.FreeList
import PyroOS.Syscall.Handler

/-! The heap of a user program, over `SYS_SBRK`. -/

namespace PyroOS

open ByteMemory FreeList

structure UserHeap where
  mem : Mem
  head : Word
  brk : Word

def userHeapSteps : ℕ := 3841

/-- `umalloc` over any system call in the place of `SYS_SBRK`. -/
def umallocWith (sbrk : Word → Word → Word × Word) (h : UserHeap) (want : Word) : Option (UserHeap × Word) :=
  if want = 0 then some (h, 0)
  else
    let want := (want + 7) &&& ~~~7
    match seek want userHeapSteps h.mem h.head with
    | none => none
    | some b =>
      if b ≠ 0 then some ({ h with mem := allot 16 8 h.mem b want }, b + 16)
      else
        let (b, brk) := sbrk h.brk (16 + want)
        if b = -1 then some ({ h with brk := brk }, 0)
        else
          let m := newHeader h.mem b want
          if h.head = 0 then some (⟨m, b, brk⟩, b + 16)
          else
            match lastBlock userHeapSteps m h.head with
            | none => none
            | some t => some (⟨writeWord m (t + 8) b, h.head, brk⟩, b + 16)

def umalloc (h : UserHeap) (want : Word) : Option (UserHeap × Word) := umallocWith sbrk h want

def ufree (h : UserHeap) (p : Word) : Option UserHeap :=
  if p = 0 then some h
  else
    let m := writeWord h.mem (p - 16 + 4) 1
    (coalesce 16 userHeapSteps m h.head).map fun m => { h with mem := m }

structure UserProgram where
  heap : UserHeap
  live : List (Word × Word)

inductive UserProgram.Run (P : Word → Prop) : UserProgram → Prop
  | start (m : Mem) : Run P ⟨⟨m, 0, userHeapBase⟩, []⟩
  | umalloc {s : UserProgram} (want : Word) {h : UserHeap} {p : Word} : Run P s → P want →
    PyroOS.umalloc s.heap want = some (h, p) → Run P ⟨h, if p = 0 then s.live else (p, want) :: s.live⟩
  | ufree {s : UserProgram} {x : Word × Word} {h : UserHeap} : Run P s → x ∈ s.live →
    PyroOS.ufree s.heap x.1 = some h → Run P ⟨h, s.live.erase x⟩
  | use {s : UserProgram} {x : Word × Word} (m : Mem) : Run P s → x ∈ s.live →
    (∀ a, m a ≠ s.heap.mem a → x.1.toNat ≤ a.toNat ∧ a.toNat < x.1.toNat + x.2.toNat) →
    Run P ⟨{ s.heap with mem := m }, s.live⟩

variable {s : UserProgram} {m : Mem} {want p : Word} {x : Word × Word} {bs pre post : List Block} {b c : Block}

structure UserProgram.Ordered (s : UserProgram) (bs : List Block) : Prop where
  heap : Spaced 16 0x90000 s.heap.brk.toNat s.heap.mem s.heap.head bs
  brk : s.heap.brk.toNat ≤ 0x9f000
  sizes : ∀ b ∈ bs, 8 ∣ b.size
  live : ∀ x ∈ s.live, ∃ b ∈ bs, b.free = false ∧ x.1.toNat = b.addr + 16 ∧ x.2.toNat ≤ b.size
  nodup : (s.live.map Prod.fst).Nodup

structure UserProgram.Lists (s : UserProgram) (bs : List Block) : Prop extends s.Ordered bs where
  tiles : Tiles 16 0x90000 s.heap.brk.toNat bs

/-! ### Sums -/

lemma round_want (h : want ≤ 0xFFFFFFE8) : want.toNat ≤ ((want + 7) &&& ~~~7).toNat ∧
    ((want + 7) &&& ~~~7).toNat ≤ 0xFFFFFFE8 ∧ 8 ∣ ((want + 7) &&& ~~~7).toNat := by
  have hw : want.toNat ≤ 0xFFFFFFE8 := h
  have h₇ : (7 : Word).toNat = 7 := rfl
  have hsum : (want + 7).toNat = want.toNat + 7 := by
    rw [BitVec.toNat_add, h₇]
    omega
  rw [and_not_low (k := 3) _ (by decide), hsum]
  exact ⟨by omega, by omega, Dvd.intro_left _ rfl⟩

/-! ### The calls -/

namespace UserProgram.Ordered

lemma length_lt (h : s.Ordered bs) : bs.length < userHeapSteps := by
  have hle := h.heap.spread.length_le
  have hbrk := h.brk
  rw [userHeapSteps]
  omega

lemma brk_low (h : s.Ordered bs) : 0x90000 ≤ s.heap.brk.toNat := h.heap.spread.le

lemma brk_ne (h : s.Ordered bs) : s.heap.brk ≠ -1 := fun heq => by
  have hhigh := h.brk
  have hm : (-1 : Word).toNat = 0xffffffff := rfl
  rw [heq] at hhigh
  omega

lemma add {heap : UserHeap} {bs' : List Block} (h : s.Ordered bs)
    (hheap : Spaced 16 0x90000 heap.brk.toNat heap.mem heap.head bs') (hbrk : heap.brk.toNat ≤ 0x9f000)
    (hsizes : ∀ b ∈ bs', 8 ∣ b.size) (hkeep : ∀ b ∈ bs, b.free = false → b ∈ bs')
    (hnew : ∃ c ∈ bs', c.free = false ∧ p.toNat = c.addr + 16 ∧ want.toNat ≤ c.size)
    (hp : ∀ b ∈ bs, b.free = false → p.toNat ≠ b.addr + 16) : UserProgram.Ordered ⟨heap, (p, want) :: s.live⟩ bs' := by
  refine ⟨hheap, hbrk, hsizes, fun x hx => ?_, List.nodup_cons.mpr ⟨fun hmem => ?_, h.nodup⟩⟩
  · rcases List.mem_cons.mp hx with rfl | hx
    · exact hnew
    · obtain ⟨b, hb, hf, haddr, hsize⟩ := h.live x hx
      exact ⟨b, hkeep b hb hf, hf, haddr, hsize⟩
  · obtain ⟨x, hx, rfl⟩ := List.mem_map.mp hmem
    obtain ⟨b, hb, hf, haddr, -⟩ := h.live x hx
    exact hp b hb hf haddr

lemma allot {k y : Word} (h : s.Ordered (pre ++ ([b] ++ post))) (hk : 8 ∣ k.toNat) (hwant : want.toNat ≤ k.toNat)
    (hb : fits k.toNat b) (hy : y.toNat = b.addr) :
    UserProgram.Ordered ⟨{ s.heap with mem := FreeList.allot 16 8 s.heap.mem y k }, (y + 16, want) :: s.live⟩
      (pre ++ (cut 16 8 k.toNat b ++ post)) := by
  have hbrk := h.brk
  have hbounds := h.heap.spread.bounds (b := b) (by simp)
  have hp : (y + 16).toNat = b.addr + 16 := by bv_omega
  have hused : ∀ c ∈ pre ++ ([b] ++ post), c.free = false → c ∈ pre ++ post := by
    intro c hc hf
    have hcb : c ≠ b := fun heq => by rw [heq, hb.1] at hf; cases hf
    simpa [hcb] using hc
  have h₈ : (8 : Word).toNat = 8 := rfl
  refine h.add (h.heap.allot (w := 16) hy rfl h₈ (by omega) hb.2) hbrk (fun c hc => ?_)
    (fun c hc hf => ?_) ?_ fun c hc hf => ?_
  · simp only [List.mem_append] at hc
    rcases hc with hc | hc | hc
    · exact h.sizes c (by simp [hc])
    · exact dvd_cut (by decide) hk (h.sizes b (by simp)) hc
    · exact h.sizes c (by simp [hc])
  · have hc' := hused c hc hf
    simp only [List.mem_append] at hc' ⊢
    tauto
  · obtain ⟨c, hc, hf, haddr, hsize⟩ := exists_used 16 8 hb.2
    exact ⟨c, by simp [hc], hf, by rw [hp, haddr], hwant.trans hsize⟩
  · have hne := h.heap.spread.addr_ne (by decide) (hused c hc hf)
    omega

lemma grow {k : Word} (h : s.Ordered bs) (hk : 8 ∣ k.toNat) (hwant : want.toNat ≤ k.toNat)
    (hsum : (s.heap.brk + (16 + k)).toNat = s.heap.brk.toNat + (16 + k).toNat) (hk' : (16 + k).toNat = 16 + k.toNat)
    (hfit : s.heap.brk.toNat + (16 + k).toNat ≤ 0x9f000) {m : Mem} {head : Word}
    (hheap : Spaced 16 0x90000 (s.heap.brk.toNat + 16 + k.toNat) m head (bs ++ [⟨s.heap.brk.toNat, k.toNat, false⟩])) :
    UserProgram.Ordered ⟨⟨m, head, s.heap.brk + (16 + k)⟩, (s.heap.brk + 16, want) :: s.live⟩
      (bs ++ [⟨s.heap.brk.toNat, k.toNat, false⟩]) := by
  have hp : (s.heap.brk + 16).toNat = s.heap.brk.toNat + 16 := by bv_omega
  have hend : (s.heap.brk + (16 + k)).toNat = s.heap.brk.toNat + 16 + k.toNat := by omega
  refine h.add (hend ▸ hheap) (by simp only; omega) (fun c hc => ?_) (fun c hc _ => List.mem_append_left _ hc)
    ⟨_, List.mem_append_right _ (List.mem_singleton_self _), rfl, hp, hwant⟩ fun c hc _ => ?_
  · rcases List.mem_append.mp hc with hc | hc
    · exact h.sizes c hc
    · rw [List.mem_singleton.mp hc]
      exact hk
  · have hc' := (h.heap.spread.bounds hc).2
    omega

lemma umalloc_list (h : s.Ordered bs) (hwant : want ≤ 0xFFFFFFE8) (hpos : want ≠ 0) :
    ∃ heap p, PyroOS.umalloc s.heap want = some (heap, p) ∧
      ((p = 0 ∧ heap = s.heap ∧ ∀ b ∈ bs, ¬ fits ((want + 7) &&& ~~~7).toNat b) ∨
        (p ≠ 0 ∧ heap.brk = s.heap.brk ∧ heap.head = s.heap.head ∧ ∃ pre b post, bs = pre ++ ([b] ++ post) ∧
          fits ((want + 7) &&& ~~~7).toNat b ∧ p.toNat = b.addr + 16 ∧
          UserProgram.Ordered ⟨heap, (p, want) :: s.live⟩ (pre ++ (cut 16 8 ((want + 7) &&& ~~~7).toNat b ++ post))) ∨
        (p ≠ 0 ∧ p.toNat = s.heap.brk.toNat + 16 ∧
          heap.brk.toNat = s.heap.brk.toNat + 16 + ((want + 7) &&& ~~~7).toNat ∧
          (∀ b ∈ bs, ¬ fits ((want + 7) &&& ~~~7).toNat b) ∧
          UserProgram.Ordered ⟨heap, (p, want) :: s.live⟩
            (bs ++ [⟨s.heap.brk.toNat, ((want + 7) &&& ~~~7).toNat, false⟩]))) := by
  have hlow := h.brk_low
  have hhigh := h.brk
  obtain ⟨hge, hle, hdvd⟩ := round_want hwant
  rw [PyroOS.umalloc, umallocWith, if_neg hpos]
  dsimp only
  generalize (want + 7) &&& ~~~7 = k at hge hle hdvd ⊢
  rcases h.heap.seek_cases h.length_lt k with ⟨hs, hnone⟩ | ⟨pre, b, post, y, rfl, -, hb, hs, hy⟩
  · rw [hs]
    have h₁₆ : (16 : Word).toNat = 16 := rfl
    have hk : (16 + k).toNat = 16 + k.toNat := by
      rw [BitVec.toNat_add, h₁₆]
      omega
    have hk₀ : 16 + k ≠ 0 := ne_zero_of_pos (by omega)
    rcases sbrk_cases hlow hhigh hk₀ with ⟨hfail, -⟩ | ⟨hok, hsum, hfit⟩
    · refine ⟨s.heap, 0, ?_, .inl ⟨rfl, rfl, hnone⟩⟩
      simp only [ne_eq, not_true_eq_false, if_false, if_true, hfail]
    · have hp : (s.heap.brk + 16).toNat = s.heap.brk.toNat + 16 := by bv_omega
      have hp₀ : s.heap.brk + 16 ≠ 0 := by bv_omega
      have hend : (s.heap.brk + (16 + k)).toNat = s.heap.brk.toNat + 16 + k.toNat := by omega
      simp only [ne_eq, not_true_eq_false, if_false, hok, h.brk_ne]
      by_cases hhead : s.heap.head = 0
      · have hnil : bs = [] := h.heap.empty_iff.mpr hhead
        subst hnil
        rw [if_pos hhead]
        exact ⟨_, _, rfl, .inr
          (.inr ⟨hp₀, hp, hend, hnone, h.grow hdvd hge hsum hk hfit (h.heap.first rfl (by omega))⟩)⟩
      · have hcons : bs ≠ [] := fun hnil => hhead (h.heap.empty_iff.mp hnil)
        obtain ⟨pre, b, rfl⟩ : ∃ pre b, bs = pre ++ [b] := ⟨_, _, (List.dropLast_append_getLast hcons).symm⟩
        have hlen := h.length_lt
        have hbehind := h.heap.behind (z := s.heap.brk) rfl (by omega) k
        obtain ⟨y, hlast, hy⟩ := hbehind.lastBlock_spec (n := userHeapSteps)
          (by rw [List.length_append] at hlen; omega)
        rw [if_neg hhead, hlast]
        exact ⟨_, _, rfl, .inr
          (.inr ⟨hp₀, hp, hend, hnone, h.grow hdvd hge hsum hk hfit (h.heap.extend hy rfl (by omega))⟩)⟩
  · rw [hs]
    have hbounds := h.heap.spread.bounds (b := b) (by simp)
    have hy₀ : y ≠ 0 := ne_zero_of_pos (by omega)
    have hp : (y + 16).toNat = b.addr + 16 := by bv_omega
    have hp₀ : y + 16 ≠ 0 := by bv_omega
    exact ⟨_, _, if_pos hy₀, .inr (.inl ⟨hp₀, rfl, rfl, pre, b, post, rfl, hb, hp, h.allot hdvd hge hb hy⟩)⟩

lemma block (h : s.Ordered bs) (hx : x ∈ s.live) : ∃ pre b post, bs = pre ++ ([b] ++ post) ∧ b.free = false ∧
    x.1.toNat = b.addr + 16 ∧ (x.1 - 16).toNat = b.addr ∧ x.2.toNat ≤ b.size := by
  obtain ⟨b, hb, hf, haddr, hsize⟩ := h.live x hx
  obtain ⟨pre, post, rfl⟩ := List.append_of_mem hb
  refine ⟨pre, b, post, rfl, hf, haddr, ?_, hsize⟩
  bv_omega

lemma ufree_list (h : s.Ordered (pre ++ ([b] ++ post))) (hx : x ∈ s.live) (haddr : x.1.toNat = b.addr + 16) :
    ∃ m, PyroOS.ufree s.heap x.1 = some { s.heap with mem := m } ∧
      UserProgram.Ordered ⟨{ s.heap with mem := m }, s.live.erase x⟩
        (joined 16 (pre ++ ([{ b with free := true }] ++ post))) := by
  have hb : (x.1 - 16).toNat = b.addr := by bv_omega
  have hp₀ : x.1 ≠ 0 := ne_zero_of_pos (by omega)
  have hmark := h.heap.mark hb true
  have hlen := h.length_lt
  have hjoin : ∃ m, coalesce 16 userHeapSteps (writeWord s.heap.mem (x.1 - 16 + 4) 1) s.heap.head = some m ∧
      Spaced 16 0x90000 s.heap.brk.toNat m s.heap.head (joined 16 (pre ++ ([{ b with free := true }] ++ post))) :=
    hmark.coalesce_all rfl (by simpa using hlen)
  obtain ⟨m, hm, hheap⟩ := hjoin
  refine ⟨m, by simp only [PyroOS.ufree, if_neg hp₀, hm, Option.map_some], hheap, h.brk, ?_, fun y hy => ?_,
    h.nodup.sublist (List.Sublist.map _ List.erase_sublist)⟩
  · refine dvd_joined (by decide) fun c hc => ?_
    simp only [List.mem_append, List.mem_singleton] at hc
    rcases hc with hc | rfl | hc
    · exact h.sizes c (by simp [hc])
    · exact h.sizes b (by simp)
    · exact h.sizes c (by simp [hc])
  · -- another allocation has another pointer, so its block is not the one that was freed
    have hy' := List.mem_of_mem_erase hy
    obtain ⟨c, hc, hcf, hcaddr, hsize⟩ := h.live y hy'
    refine ⟨c, (mem_joined hcf).mpr ?_, hcf, hcaddr, hsize⟩
    have hcb : c ≠ b := by
      rintro rfl
      have hfst : y.1 = x.1 := BitVec.eq_of_toNat_eq (hcaddr.trans haddr.symm)
      have hxy : y = x := List.inj_on_of_nodup_map h.nodup hy' hx hfst
      rw [hxy, (List.Nodup.of_map _ h.nodup).mem_erase_iff] at hy
      exact hy.1 rfl
    simp only [List.mem_append, List.mem_singleton] at hc ⊢
    tauto

lemma use (h : s.Ordered bs) (hx : x ∈ s.live)
    (hm : ∀ a, m a ≠ s.heap.mem a → x.1.toNat ≤ a.toNat ∧ a.toNat < x.1.toNat + x.2.toNat) :
    UserProgram.Ordered ⟨{ s.heap with mem := m }, s.live⟩ bs := by
  obtain ⟨pre, b, post, rfl, -, haddr, -, hsize⟩ := h.block hx
  refine ⟨h.heap.payload (b := b) (by simp) fun a ha => ?_, h.brk, h.sizes, h.live, h.nodup⟩
  have ha' := hm a ha
  omega

end UserProgram.Ordered

namespace UserProgram.Lists

lemma umalloc_list (h : s.Lists bs) (hwant : want ≤ 0xFFFFFFE8) (hpos : want ≠ 0) :
    ∃ heap p, PyroOS.umalloc s.heap want = some (heap, p) ∧
      ((p = 0 ∧ heap = s.heap ∧ ∀ b ∈ bs, ¬ fits ((want + 7) &&& ~~~7).toNat b) ∨
        (p ≠ 0 ∧ heap.brk = s.heap.brk ∧ heap.head = s.heap.head ∧ ∃ pre b post, bs = pre ++ ([b] ++ post) ∧
          fits ((want + 7) &&& ~~~7).toNat b ∧ p.toNat = b.addr + 16 ∧
          UserProgram.Lists ⟨heap, (p, want) :: s.live⟩ (pre ++ (cut 16 8 ((want + 7) &&& ~~~7).toNat b ++ post))) ∨
        (p ≠ 0 ∧ p.toNat = s.heap.brk.toNat + 16 ∧ (∀ b ∈ bs, ¬ fits ((want + 7) &&& ~~~7).toNat b) ∧
          UserProgram.Lists ⟨heap, (p, want) :: s.live⟩
            (bs ++ [⟨s.heap.brk.toNat, ((want + 7) &&& ~~~7).toNat, false⟩]))) := by
  obtain ⟨heap, p, hm, hcases⟩ := h.toOrdered.umalloc_list hwant hpos
  refine ⟨heap, p, hm, ?_⟩
  rcases hcases with hfail | ⟨hp₀, hbrk, hhead, pre, b, post, rfl, hb, hp, ho⟩ | ⟨hp₀, hp, hbrk, hnone, ho⟩
  · exact .inl hfail
  · refine .inr (.inl ⟨hp₀, hbrk, hhead, pre, b, post, rfl, hb, hp, ⟨ho, ?_⟩⟩)
    simp only [hbrk]
    exact h.tiles.replace fun _ _ ht => ht.cut
  · refine .inr (.inr ⟨hp₀, hp, hnone, ⟨ho, ?_⟩⟩)
    simp only [hbrk]
    exact h.tiles.concat

lemma umalloc_cases (h : s.Lists bs) (hwant : want ≤ 0xFFFFFFE8) : ∃ heap p,
    PyroOS.umalloc s.heap want = some (heap, p) ∧ ((p = 0 ∧ heap = s.heap) ∨
      (p ≠ 0 ∧ want.toNat ≤ 0xf000 ∧ ∃ bs', UserProgram.Lists ⟨heap, (p, want) :: s.live⟩ bs')) := by
  by_cases hpos : want = 0
  · exact ⟨s.heap, 0, if_pos hpos, .inl ⟨rfl, rfl⟩⟩
  -- what has been allocated lies below the end of the window
  have hsmall : ∀ {heap p bs'}, UserProgram.Lists ⟨heap, (p, want) :: s.live⟩ bs' → want.toNat ≤ 0xf000 := by
    intro heap p bs' hl
    obtain ⟨b, hb, -, -, hsize⟩ := hl.live _ List.mem_cons_self
    have hbounds := hl.tiles.bounds hb
    have hbrk := hl.brk
    dsimp only at hsize hbrk hbounds
    omega
  obtain ⟨heap, p, hm, hcases⟩ := h.umalloc_list hwant hpos
  refine ⟨heap, p, hm, ?_⟩
  rcases hcases with ⟨hp, hheap, -⟩ | ⟨hp, -, -, pre, b, post, -, -, -, hl⟩ | ⟨hp, -, -, hl⟩
  · exact .inl ⟨hp, hheap⟩
  · exact .inr ⟨hp, hsmall hl, _, hl⟩
  · exact .inr ⟨hp, hsmall hl, _, hl⟩

lemma ufree_list (h : s.Lists (pre ++ ([b] ++ post))) (hx : x ∈ s.live) (haddr : x.1.toNat = b.addr + 16) :
    ∃ m, PyroOS.ufree s.heap x.1 = some { s.heap with mem := m } ∧
      UserProgram.Lists ⟨{ s.heap with mem := m }, s.live.erase x⟩
        (joined 16 (pre ++ ([{ b with free := true }] ++ post))) := by
  obtain ⟨m, hf, ho⟩ := h.toOrdered.ufree_list hx haddr
  have ht : Tiles 16 0x90000 s.heap.brk.toNat (pre ++ ([{ b with free := true }] ++ post)) :=
    h.tiles.replace fun _ _ ht => ht
  exact ⟨m, hf, ho, ht.joined⟩

lemma ufree (h : s.Lists bs) (hx : x ∈ s.live) :
    ∃ heap bs', PyroOS.ufree s.heap x.1 = some heap ∧ UserProgram.Lists ⟨heap, s.live.erase x⟩ bs' := by
  obtain ⟨pre, b, post, rfl, -, haddr, -⟩ := h.block hx
  obtain ⟨m, hf, hl⟩ := h.ufree_list hx haddr
  exact ⟨_, _, hf, hl⟩

lemma use (h : s.Lists bs) (hx : x ∈ s.live)
    (hm : ∀ a, m a ≠ s.heap.mem a → x.1.toNat ≤ a.toNat ∧ a.toNat < x.1.toNat + x.2.toNat) :
    UserProgram.Lists ⟨{ s.heap with mem := m }, s.live⟩ bs := ⟨h.toOrdered.use hx hm, h.tiles⟩

end UserProgram.Lists

lemma UserProgram.Run.lists (h : UserProgram.Run (· ≤ 0xFFFFFFE8) s) : ∃ bs, s.Lists bs := by
  induction h with
  | start m =>
    have hbase : userHeapBase.toNat = 0x90000 := rfl
    have hspaced : Spaced 16 0x90000 userHeapBase.toNat m 0 [] := ⟨rfl, hbase.ge, by decide, by decide, by omega⟩
    exact ⟨[], ⟨hspaced, by simp only; omega, fun b hb => (by cases hb), fun x hx => (by cases hx), .nil⟩, hbase.symm⟩
  | @umalloc s want h p _ hwant hm ih =>
    obtain ⟨bs, hbs⟩ := ih
    obtain ⟨h', p', hm', hcases⟩ := hbs.umalloc_cases hwant
    obtain ⟨rfl, rfl⟩ : h = h' ∧ p = p' := by simpa using hm.symm.trans hm'
    rcases hcases with ⟨rfl, rfl⟩ | ⟨hp₀, -, bs', hl⟩
    · exact ⟨bs, hbs⟩
    · rw [if_neg hp₀]
      exact ⟨bs', hl⟩
  | @ufree s x h _ hx hf ih =>
    obtain ⟨bs, hbs⟩ := ih
    obtain ⟨h', bs', hf', hl⟩ := hbs.ufree hx
    obtain rfl : h = h' := by simpa using hf.symm.trans hf'
    exact ⟨bs', hl⟩
  | use m _ hx hm ih =>
    obtain ⟨bs, hbs⟩ := ih
    exact ⟨bs, hbs.use hx hm⟩

/-- As long as no request exceeds 0xFFFFFFE8 bytes, what `umalloc` gives out lies in the granted heap, apart from other
allocations and from all headers, and a request beyond the window changes nothing. -/
theorem user_heap_safe (h : UserProgram.Run (· ≤ 0xFFFFFFE8) s) :
    (s.live.map Prod.fst).Nodup ∧
    (∀ x ∈ s.live, 8 ∣ x.1.toNat ∧ userHeapBase.toNat ≤ x.1.toNat ∧ x.1.toNat + x.2.toNat ≤ s.heap.brk.toNat ∧
      (∀ y ∈ s.live, y ≠ x → x.1.toNat + x.2.toNat ≤ y.1.toNat ∨ y.1.toNat + y.2.toNat ≤ x.1.toNat) ∧
      ∃ bs, headers userHeapSteps s.heap.mem s.heap.head = some bs ∧
        ∀ b ∈ bs, x.1.toNat + x.2.toNat ≤ b.addr ∨ b.addr + 16 ≤ x.1.toNat) ∧
    (∀ x ∈ s.live, (ufree s.heap x.1).isSome) ∧
    ∀ want ≤ 0xFFFFFFE8, (umalloc s.heap want).isSome ∧
      ((userHeapEnd - userHeapBase).toNat < want.toNat → umalloc s.heap want = some (s.heap, 0)) := by
  obtain ⟨bs, hbs⟩ := h.lists
  refine ⟨hbs.nodup, fun x hx => ?_, fun x hx => ?_, fun want hwant => ?_⟩
  · obtain ⟨b, hb, hf, haddr, hsize⟩ := hbs.live x hx
    have hbounds := hbs.tiles.bounds hb
    have hbase : userHeapBase.toNat = 0x90000 := rfl
    refine ⟨?_, by omega, by omega, fun y hy hne => ?_, bs, hbs.heap.headers_eq hbs.length_lt, fun c hc => ?_⟩
    · rw [haddr]
      exact Nat.dvd_add (hbs.tiles.dvd_addr (by decide) (by decide) hbs.sizes b hb) (by decide)
    · obtain ⟨c, hc, -, hcaddr, hcsize⟩ := hbs.live y hy
      rcases hbs.tiles.apart hb hc with rfl | happart | happart
      · have hfst : y.1 = x.1 := BitVec.eq_of_toNat_eq (hcaddr.trans haddr.symm)
        exact absurd (List.inj_on_of_nodup_map hbs.nodup hy hx hfst) hne
      · exact .inl (by omega)
      · exact .inr (by omega)
    · rcases hbs.tiles.apart hb hc with rfl | happart | happart
      · exact .inr (by omega)
      · exact .inl (by omega)
      · exact .inr (by omega)
  · obtain ⟨heap, bs', hf, -⟩ := hbs.ufree hx
    rw [hf]
    rfl
  · obtain ⟨heap, p, hm, hcases⟩ := hbs.umalloc_cases hwant
    refine ⟨by rw [hm]; rfl, fun hbig => ?_⟩
    rcases hcases with ⟨rfl, rfl⟩ | ⟨-, hsmall, -⟩
    · exact hm
    · have hwindow : (userHeapEnd - userHeapBase).toNat = 0xf000 := rfl
      omega

def sampleUserHeap : UserHeap := ⟨fun _ => 0, 0, userHeapBase⟩

def sampleAlloc (h : UserHeap) (want : Word) : UserHeap := ((umalloc h want).getD (h, 0)).1

def sampleFree (h : UserHeap) (p : Word) : UserHeap := (ufree h p).getD h

lemma sample_alloc {h : UserHeap} (hp : (umalloc h want).map Prod.snd = some p) :
    umalloc h want = some (sampleAlloc h want, p) := by
  obtain ⟨x, hx, rfl⟩ := Option.map_eq_some_iff.mp hp
  rw [sampleAlloc, hx]
  rfl

lemma sample_free {h : UserHeap} (hf : (ufree h p).isSome) : ufree h p = some (sampleFree h p) := by
  obtain ⟨h', hf⟩ := Option.isSome_iff_exists.mp hf
  rw [sampleFree, hf]
  rfl

-- two blocks, of which the first is freed and used again
theorem user_heap_safe_reuse : ∃ s, UserProgram.Run (· ≤ 0xFFFFFFE8) s ∧ s.live = [(0x90010, 20), (0x90038, 24)] ∧
    (s.live.map Prod.fst).Nodup ∧ 0x90038 + 24 ≤ s.heap.brk.toNat := by
  have h₁ := (UserProgram.Run.start (P := (· ≤ 0xFFFFFFE8)) fun _ => 0).umalloc 24 (by decide)
    (sample_alloc (p := 0x90010) (by decide +kernel))
  have h₂ := h₁.umalloc 24 (by decide) (sample_alloc (p := 0x90038) (by decide +kernel))
  have h₃ := h₂.ufree (x := (0x90010, 24)) (by decide +kernel) (sample_free (by decide +kernel))
  have h := h₃.umalloc 20 (by decide) (sample_alloc (p := 0x90010) (by decide +kernel))
  obtain ⟨hnodup, hlive, -⟩ := user_heap_safe h
  exact ⟨_, h, by decide +kernel, hnodup, (hlive (0x90038, 24) (by decide +kernel)).2.2.1⟩

/-- A request of 0xFFFFFFFF bytes is rounded to 0: it gets a pointer to the end of the granted heap. -/
theorem umalloc_wraps : ∃ s, UserProgram.Run (fun _ => True) s ∧ (0x90010, 0xFFFFFFFF) ∈ s.live ∧
    s.heap.brk = 0x90010 := by
  have h : UserProgram.Run (fun _ => True) _ := .umalloc 0xFFFFFFFF (.start fun _ => 0) trivial
    (Option.some_get (x := umalloc sampleUserHeap 0xFFFFFFFF) (by decide +kernel)).symm
  exact ⟨_, h, by decide +kernel, by decide +kernel⟩

end PyroOS
