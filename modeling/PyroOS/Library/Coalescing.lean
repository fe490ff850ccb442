import Mathlib.Data.List.Chain
import PyroOS.Library.FreeList

/-! Lists of blocks without free neighbours. -/

namespace FreeList

variable {hdr lo hi room n : ℕ} {b c : Block} {bs pre post : List Block}

def Separate (bs : List Block) : Prop := bs.IsChain fun b c => ¬ (b.free = true ∧ c.free = true)

namespace Separate

lemma used_cons (hb : b.free = false) (h : Separate bs) : Separate (b :: bs) := by
  refine List.IsChain.cons h fun c _ hh => ?_
  rw [hb] at hh
  cases hh.1

lemma concat (h : Separate bs) (hb : b.free = false) : Separate (bs ++ [b]) := by
  refine List.isChain_append.mpr ⟨h, .singleton b, fun c _ d hd hh => ?_⟩
  obtain rfl : b = d := by simpa using hd
  rw [hb] at hh
  cases hh.2

lemma around (h : Separate (pre ++ ([b] ++ post))) (hb : b.free = true) :
    Separate pre ∧ (∀ c ∈ pre.getLast?, c.free = false) ∧ Separate post ∧ ∀ c ∈ post.head?, c.free = false := by
  obtain ⟨hpre, hrest, hlast⟩ := List.isChain_append.mp h
  obtain ⟨hhead, hpost⟩ := List.isChain_cons.mp hrest
  refine ⟨hpre, fun c hc => ?_, hpost, fun c hc => ?_⟩
  · simpa [hb] using hlast c hc b (by simp)
  · simpa [hb] using hhead c hc

lemma of_around (hpre : Separate pre) (hlast : ∀ c ∈ pre.getLast?, c.free = false) (h : Separate bs) :
    Separate (pre ++ bs) := by
  refine List.isChain_append.mpr ⟨hpre, h, fun c hc d _ hh => ?_⟩
  rw [hlast c hc] at hh
  cases hh.1

lemma cut (h : Separate (pre ++ ([b] ++ post))) (hb : b.free = true) : Separate (pre ++ (cut hdr room n b ++ post)) := by
  obtain ⟨hpre, hlast, hpost, hhead⟩ := h.around hb
  refine of_around hpre hlast ?_
  rw [FreeList.cut]
  split
  · refine used_cons rfl (List.IsChain.cons hpost fun c hc hh => ?_)
    rw [hhead c hc] at hh
    cases hh.2
  · exact used_cons rfl hpost

lemma join (h : Separate (pre ++ ([b] ++ post))) (hlast : ∀ c ∈ pre.getLast?, c.free = false) :
    Separate (pre ++ join hdr { b with free := true } post) := by
  obtain ⟨hpre, hrest, -⟩ := List.isChain_append.mp h
  refine of_around hpre hlast ?_
  have hpost : Separate post := (List.isChain_cons.mp hrest).2
  cases post with
  | nil => exact .singleton _
  | cons c post =>
    obtain ⟨hhead, hpost'⟩ := List.isChain_cons.mp hpost
    rw [FreeList.join]
    split
    · rename_i hc
      refine List.IsChain.cons hpost' fun d hd hh => hhead d hd ⟨hc.2, hh.2⟩
    · rename_i hc
      refine List.IsChain.cons hpost fun d hd hh => hc ?_
      obtain rfl : c = d := by simpa using hd
      exact hh

lemma single (h : Separate bs) (hfree : ∀ b ∈ bs, b.free = true) : bs = [] ∨ ∃ b, bs = [b] := by
  match bs, h with
  | [], _ => exact .inl rfl
  | [b], _ => exact .inr ⟨b, rfl⟩
  | b :: c :: bs, h =>
    have hne := (List.isChain_cons_cons.mp h).1
    exact (hne ⟨hfree b (by simp), hfree c (by simp)⟩).elim

end Separate

/-! ### Joining all neighbours -/

lemma separate_joined (hdr : ℕ) (bs : List Block) : Separate (joined hdr bs) := by
  induction bs with
  | nil => exact .nil
  | cons b bs ih =>
    rw [joined]
    cases hj : joined hdr bs with
    | nil => exact .singleton b
    | cons d ds =>
      rw [hj] at ih
      obtain ⟨hhead, hds⟩ := List.isChain_cons.mp ih
      rw [FreeList.join]
      split
      · rename_i hfree
        exact List.IsChain.cons hds fun c hc hh => hhead c hc ⟨hfree.2, hh.2⟩
      · rename_i hne
        refine List.IsChain.cons ih fun c hc hh => hne ?_
        obtain rfl : d = c := by simpa using hc
        exact hh

lemma Separate.joined_eq (h : Separate bs) : joined hdr bs = bs := by
  induction bs with
  | nil => rfl
  | cons b bs ih =>
    obtain ⟨hhead, hbs⟩ := List.isChain_cons.mp h
    rw [joined, ih hbs]
    cases bs with
    | nil => rfl
    | cons c bs => exact if_neg (hhead c rfl)

lemma joined_merge (hb : b.free = true) (hc : c.free = true) :
    joined hdr (pre ++ (⟨b.addr, b.size + (hdr + c.size), b.free⟩ :: post)) = joined hdr (pre ++ (b :: c :: post)) := by
  induction pre with
  | nil => exact joined_cons_cons hb hc
  | cons d pre ih => rw [List.cons_append, List.cons_append, joined, joined, ih]

lemma joined_cut (hdr room n : ℕ) (h : Separate (pre ++ ([b] ++ post))) (hb : b.free = true) :
    ∃ c rest, cut hdr room n b = c :: rest ∧ c.free = false ∧ c.addr = b.addr ∧
      joined hdr (pre ++ ([{ c with free := true }] ++ (rest ++ post))) = pre ++ ([b] ++ post) := by
  rw [cut]
  split
  · rename_i hroom
    refine ⟨_, _, rfl, rfl, rfl, ?_⟩
    have hmerge : joined hdr (pre ++ (⟨b.addr, n + (hdr + (b.size - n - hdr)), true⟩ :: post)) =
        joined hdr (pre ++ (⟨b.addr, n, true⟩ :: ⟨b.addr + hdr + n, b.size - n - hdr, true⟩ :: post)) :=
      joined_merge (b := ⟨b.addr, n, true⟩) (c := ⟨b.addr + hdr + n, b.size - n - hdr, true⟩) rfl rfl
    have hwhole : (⟨b.addr, n + (hdr + (b.size - n - hdr)), true⟩ : Block) = b := by
      rw [show n + (hdr + (b.size - n - hdr)) = b.size by omega, ← hb]
    simp only [hwhole] at hmerge
    exact hmerge.symm.trans h.joined_eq
  · refine ⟨_, _, rfl, rfl, rfl, ?_⟩
    have hwhole : ({ b with free := true } : Block) = b := by rw [← hb]
    simp only [hwhole]
    exact h.joined_eq

end FreeList
