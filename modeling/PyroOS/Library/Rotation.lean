import Mathlib.Data.List.Basic
import Mathlib.Data.List.Chain
import Mathlib.Data.List.Nodup
import Mathlib.Tactic.SplitIfs
import Mathlib.Order.WellFounded

/-! Rotation among `N` places: the search for the next one that is alive, and the turns this gives. -/

namespace Rotation

variable {N a b p w c v : ℕ} {P : ℕ → Bool}

def dist (N a b : ℕ) : ℕ := if a ≤ b then b - a else b + N - a

def search (N p : ℕ) (P : ℕ → Bool) : Option ℕ :=
  ((List.range' 1 (N - 1)).map fun off => (p + off) % N).find? P

/-- Iterations come to an end when every step lowers the rank. -/
theorem iterate_reaches {α β : Type*} [Preorder β] [WellFoundedLT β] {f : α → α} {Q : α → Prop} {R : α → β → Prop}
    (hstep : ∀ x r, R x r → Q x ∨ ∃ r' < r, R (f x) r') {x : α} {r : β} (h : R x r) : ∃ n, Q (f^[n] x) := by
  induction r using WellFoundedLT.induction generalizing x with
  | ind r ih =>
    rcases hstep x r h with hq | ⟨r', hlt, hr⟩
    · exact ⟨0, hq⟩
    · obtain ⟨n, hn⟩ := ih r' hlt hr
      exact ⟨n + 1, hn⟩

lemma dist_self : dist N a a = 0 := by simp [dist]

lemma dist_pos (ha : a < N) (h : a ≠ b) : 0 < dist N a b := by
  rw [dist]
  split <;> omega

lemma dist_lt (hb : b < N) : dist N a b < N := by
  rw [dist]
  split <;> omega

lemma dist_add (hp : p < N) (hw : w < N) (hc : c < N) (h : p = w ∨ dist N p c < dist N p w) :
    dist N w c = dist N w p + dist N p c := by
  rcases h with rfl | h
  · rw [dist_self, Nat.zero_add]
  · simp only [dist] at *
    split_ifs at * <;> omega

lemma dist_lt_of_further (hp : p < N) (hw : w < N) (hv : v < N) (h : dist N w p < dist N w v) :
    p = w ∨ dist N p v < dist N p w := by
  simp only [dist] at *
  split_ifs at * <;> omega

lemma dist_lt_dist (hp : p < N) (hc : c < N) (hv : v < N) (hne : c ≠ p) (h : dist N p c ≤ dist N p v) :
    dist N c v < dist N p v := by
  simp only [dist] at *
  split_ifs at * <;> omega

lemma dist_inj (ha : a < N) (hb : b < N) (hc : c < N) (h : dist N a b = dist N a c) : b = c := by
  simp only [dist] at h
  split_ifs at h <;> omega

lemma add_mod (ha : a < N) {off : ℕ} (ho : off < N) : (a + off) % N = if a + off < N then a + off else a + off - N := by
  split
  · exact Nat.mod_eq_of_lt ‹_›
  · rw [Nat.mod_eq_sub_mod (by omega), Nat.mod_eq_of_lt (by omega)]

lemma dist_add_mod (ha : a < N) {off : ℕ} (ho : off < N) : dist N a ((a + off) % N) = off := by
  rw [add_mod ha ho, dist]
  split_ifs <;> omega

lemma add_dist_mod (ha : a < N) (hb : b < N) : (a + dist N a b) % N = b := by
  rw [add_mod ha (dist_lt hb), dist]
  split_ifs <;> omega

/-! ### The search -/

lemma find_range {f : ℕ → ℕ} {n s : ℕ} :
    match ((List.range' s n).map f).find? P with
    | some c => ∃ off, s ≤ off ∧ off < s + n ∧ f off = c ∧ P c = true ∧ ∀ j, s ≤ j → j < off → P (f j) = false
    | none => ∀ j, s ≤ j → j < s + n → P (f j) = false := by
  induction n generalizing s with
  | zero => exact fun j h₁ h₂ => by omega
  | succ n ih =>
    rw [List.range'_succ, List.map_cons, List.find?_cons]
    cases hs : P (f s) with
    | true => exact ⟨s, le_rfl, by omega, rfl, hs, fun j h₁ h₂ => by omega⟩
    | false =>
      have hh := @ih (s + 1)
      have hfirst : ∀ j, s ≤ j → ¬ s + 1 ≤ j → P (f j) = false := fun j h₁ h₂ => by
        obtain rfl : j = s := by omega
        exact hs
      cases hf : ((List.range' (s + 1) n).map f).find? P with
      | none =>
        rw [hf] at hh
        exact fun j h₁ h₂ => (em (s + 1 ≤ j)).elim (fun h => hh j h (by omega)) (hfirst j h₁)
      | some c =>
        rw [hf] at hh
        obtain ⟨off, h₁, h₂, hc, hp, hmin⟩ := hh
        exact ⟨off, by omega, by omega, hc, hp,
          fun j hj₁ hj₂ => (em (s + 1 ≤ j)).elim (fun h => hmin j h hj₂) (hfirst j hj₁)⟩

lemma search_some (hp : p < N) (h : search N p P = some c) : c < N ∧ c ≠ p ∧ P c = true ∧
    ∀ v < N, v ≠ p → P v = true → dist N p c ≤ dist N p v := by
  have hh := find_range (P := P) (f := fun off => (p + off) % N) (n := N - 1) (s := 1)
  rw [← search, h] at hh
  obtain ⟨off, h₁, h₂, rfl, hP, hmin⟩ := hh
  have hd : dist N p ((p + off) % N) = off := dist_add_mod hp (by omega)
  refine ⟨Nat.mod_lt _ (by omega), fun he => ?_, hP, fun v hv hne hPv => ?_⟩
  · rw [he, dist_self] at hd
    omega
  · rw [hd]
    by_contra hlt
    have hpos := dist_pos hp (Ne.symm hne)
    have hfalse := hmin (dist N p v) (by omega) (by omega)
    rw [add_dist_mod hp hv, hPv] at hfalse
    cases hfalse

lemma search_none (hp : p < N) (h : search N p P = none) (hv : v < N) (hne : v ≠ p) : P v = false := by
  have hh := find_range (P := P) (f := fun off => (p + off) % N) (n := N - 1) (s := 1)
  rw [← search, h] at hh
  have hpos := dist_pos hp (Ne.symm hne)
  have hlt := dist_lt (a := p) hv
  have hfalse := hh (dist N p v) (by omega) (by omega)
  rwa [add_dist_mod hp hv] at hfalse

/-! ### Turns -/

structure Turn where
  target : ℕ
  alive : ℕ → Bool

def Fewer (x y : Turn) : Prop := ∀ v, y.alive v = true → x.alive v = true

instance : Trans Fewer Fewer Fewer := ⟨fun h h' v hv => h v (h' v hv)⟩

def Next (N : ℕ) (x y : Turn) : Prop := search N x.target y.alive = some y.target ∧ Fewer x y

structure Round (N : ℕ) (a x : Turn) (l : List Turn) : Prop where
  bound : x.target < N
  order : (l.map fun y => dist N a.target y.target).Pairwise (· < ·)
  last : ∀ y ∈ l, dist N a.target y.target ≤ dist N a.target x.target
  served : ∀ v < N, v ≠ a.target → x.alive v = true → dist N a.target v ≤ dist N a.target x.target →
    v ∈ l.map (·.target)

lemma Round.next {a x y : Turn} {l : List Turn} (h : Round N a x l) (ha : a.target < N) (hn : Next N x y)
    (hy : y.target ≠ a.target) (hw : y.alive a.target = true) : Round N a y (l ++ [y]) := by
  obtain ⟨hs, hdown⟩ := hn
  obtain ⟨hc, hne, hP, hmin⟩ := search_some h.bound hs
  have hadd : dist N a.target y.target = dist N a.target x.target + dist N x.target y.target := by
    apply dist_add h.bound ha hc
    by_cases hx : x.target = a.target
    · exact .inl hx
    · have hle := hmin a.target ha (Ne.symm hx) hw
      exact .inr (lt_of_le_of_ne hle fun he => hy (dist_inj h.bound hc ha he))
  have hpos := dist_pos h.bound (Ne.symm hne)
  refine ⟨hc, ?_, fun z hz => ?_, fun v hv hva halive hle => ?_⟩
  · rw [List.map_append, List.pairwise_append]
    refine ⟨h.order, List.pairwise_singleton _ _, fun d hd e he => ?_⟩
    obtain ⟨z, hz, rfl⟩ := List.mem_map.mp hd
    obtain rfl := List.mem_singleton.mp he
    have hlast := h.last z hz
    dsimp only
    omega
  · rcases List.mem_append.mp hz with hz | hz
    · have hlast := h.last z hz
      omega
    · rw [List.mem_singleton.mp hz]
  · rw [List.map_append, List.mem_append]
    by_cases hold : dist N a.target v ≤ dist N a.target x.target
    · exact .inl (h.served v hv hva (hdown v halive) hold)
    · -- nobody alive is passed over between the two turns
      refine .inr (List.mem_singleton.mpr (dist_inj ha hv hc ?_))
      have hvx : v ≠ x.target := by
        rintro rfl
        exact hold le_rfl
      have hfar := dist_add h.bound ha hv (dist_lt_of_further h.bound ha hv (not_le.mp hold))
      have hnear := hmin v hv hvx halive
      dsimp only
      omega

lemma round_of_chain {a : Turn} {l : List Turn} (h : List.IsChain (Next N) (a :: l)) (ha : a.target < N)
    (hl : ∀ y ∈ l, y.target ≠ a.target) (hw : ∀ y ∈ l, y.alive a.target = true) : Round N a (l.getLastD a) l := by
  induction l using List.reverseRecOn with
  | nil =>
    refine ⟨ha, List.Pairwise.nil, (fun y hy => absurd hy List.not_mem_nil), fun v hv hne _ hle => ?_⟩
    have hpos := dist_pos ha (Ne.symm hne)
    rw [List.getLastD_nil, dist_self] at hle
    omega
  | append_singleton l y ih =>
    rw [← List.cons_append, List.isChain_append] at h
    obtain ⟨hchain, _, hlink⟩ := h
    have hround := ih hchain (fun z hz => hl z (List.mem_append_left _ hz)) fun z hz => hw z (List.mem_append_left _ hz)
    have hnext := hlink (l.getLastD a) (by rw [List.getLast?_cons, List.getLastD_eq_getLast?]; rfl) y rfl
    rw [List.getLastD_concat]
    have hmem : y ∈ l ++ [y] := List.mem_append_right _ List.mem_cons_self
    exact hround.next ha hnext (hl y hmem) (hw y hmem)

lemma alive_of_chain {a b : Turn} {l : List Turn} (h : List.IsChain (Next N) (a :: (l ++ [b]))) (y : Turn) (hy : y ∈ l)
    (v : ℕ) (hv : b.alive v = true) : y.alive v = true := by
  have hpair : List.Pairwise Fewer (a :: (l ++ [b])) := List.isChain_iff_pairwise.mp (h.imp fun _ _ hn => hn.2)
  exact (List.pairwise_append.mp (List.pairwise_cons.mp hpair).2).2.2 y hy b List.mem_cons_self v hv

/-- Between two turns of one place, everyone alive to the end has exactly one, in order. -/
theorem turns {a b : Turn} {l : List Turn} (h : List.IsChain (Next N) (a :: (l ++ [b]))) (ha : a.target < N)
    (hb : b.target = a.target) (hl : ∀ y ∈ l, y.target ≠ a.target) :
    (l.map fun y => dist N a.target y.target).Pairwise (· < ·) ∧
      ∀ v < N, v ≠ a.target → b.alive v = true → (l.map (·.target)).count v = 1 := by
  have hdown := alive_of_chain h
  rw [← List.cons_append, List.isChain_append] at h
  obtain ⟨hchain, _, hlink⟩ := h
  have hnext := hlink (l.getLastD a) (by rw [List.getLast?_cons, List.getLastD_eq_getLast?]; rfl) b rfl
  -- `a` is alive when its next turn comes, so it was all along
  have hw : ∀ y ∈ l, y.alive a.target = true := by
    intro y hy
    have halive := List.find?_some hnext.1
    rw [hb] at halive
    exact hdown y hy _ halive
  have hround := round_of_chain hchain ha hl hw
  obtain ⟨hc, hne, hP, hmin⟩ := search_some hround.bound hnext.1
  refine ⟨hround.order, fun v hv hva halive => ?_⟩
  have hnodup : (l.map (·.target)).Nodup := by
    refine List.pairwise_map.mpr ((List.pairwise_map.mp hround.order).imp fun hlt he => ?_)
    rw [he] at hlt
    exact lt_irrefl _ hlt
  refine List.count_eq_one_of_mem hnodup (hround.served v hv hva (hnext.2 v halive) ?_)
  by_contra hfar
  have hvx : v ≠ (l.getLastD a).target := by
    rintro rfl
    exact hfar le_rfl
  have hnear := hmin v hv hvx halive
  rw [hb] at hne hnear
  rcases dist_lt_of_further hround.bound ha hv (not_le.mp hfar) with heq | hlt
  · exact hne heq.symm
  · omega

/-! ### The order of the places from 1 to `n` -/

def order (n i : ℕ) : List ℕ := List.range' (i + 1) (n - i) ++ List.range' 1 i

def others (n p : ℕ) : List ℕ := List.range' (p + 1) (n - p) ++ List.range' 1 (p - 1)

lemma order_cons {n i : ℕ} (h : i < n) : order n i = (i + 1) :: others n (i + 1) := by
  obtain ⟨k, rfl⟩ := Nat.exists_eq_add_of_lt h
  rw [order, others, show i + k + 1 - i = k + 1 by omega, show i + k + 1 - (i + 1) = k by omega, List.range'_succ]
  rfl

lemma order_concat (n i : ℕ) : order n (i + 1) = others n (i + 1) ++ [i + 1] := by
  rw [order, others, List.range'_1_concat, List.append_assoc, Nat.add_sub_cancel, Nat.add_comm 1 i]

lemma order_last (n : ℕ) : order n n = order n 0 := by
  simp only [order, Nat.sub_self, List.range'_zero, List.nil_append, Nat.zero_add, Nat.sub_zero, List.append_nil]

lemma find_order (n p : ℕ) (P : ℕ → Bool) :
    (order n p).find? P = ((others n p).find? P).or (if p ≠ 0 ∧ P p = true then some p else none) := by
  cases p with
  | zero => exact (Option.or_none).symm
  | succ p =>
    rw [order_concat, List.find?_append, List.find?_singleton]
    simp only [ne_eq, Nat.succ_ne_zero, not_false_eq_true, true_and]

lemma search_eq {n : ℕ} (hp : p ≤ n) (h₀ : P 0 = false) : search (n + 1) p P = (others n p).find? P := by
  have hlist : (List.range' 1 n).map (fun off => (p + off) % (n + 1)) = List.range' (p + 1) (n - p) ++
    List.range' 0 p := by
    have hsplit : List.range' 1 n = List.range' 1 (n - p) ++ List.range' (n - p + 1) p := by
      rw [Nat.add_comm, List.range'_append_1, Nat.sub_add_cancel hp]
    rw [hsplit, List.map_append]
    congr 1
    · refine List.ext_getElem (by simp) fun i hi _ => ?_
      rw [List.length_map, List.length_range'] at hi
      simp only [List.getElem_map, List.getElem_range', Nat.one_mul]
      rw [Nat.mod_eq_of_lt (by omega), Nat.add_assoc]
    · refine List.ext_getElem (by simp) fun i hi _ => ?_
      rw [List.length_map, List.length_range'] at hi
      simp only [List.getElem_map, List.getElem_range', Nat.one_mul]
      rw [show p + (n - p + 1 + i) = n + 1 + i by omega, Nat.add_mod_left, Nat.mod_eq_of_lt (by omega), Nat.zero_add]
  rw [search, Nat.add_sub_cancel, hlist, others, List.find?_append, List.find?_append]
  cases p with
  | zero => rfl
  | succ p => rw [List.range'_succ, List.find?_cons, h₀, Nat.add_sub_cancel]

end Rotation
