import Mathlib.Data.List.Basic
import Mathlib.Tactic.Ring

/-! Text on a page: lines end at separators, and a line that is longer than a row goes on in the next row. -/

namespace TextLayout

variable {α : Type*} (W : ℕ) (nl : α → Bool)

def wrap (run : List α) : List (List α) :=
  (List.range (run.length / W + 1)).map fun j => (run.drop (W * j)).take W

def layout (text : List α) : List (List α) := (text.splitOnP nl).flatMap (wrap W)

def spot (rows : List (List α)) (i : ℕ) : Option α := rows[i / W]?.bind (·[i % W]?)

def next (rows : List (List α)) : ℕ := W * (rows.length - 1) + (rows.getLast?.getD []).length

variable {W nl} {text run : List α} {rows rows' : List (List α)} {g : α} {i : ℕ}

lemma wrap_length (run : List α) : (wrap W run).length = run.length / W + 1 := by
  rw [wrap, List.length_map, List.length_range]

lemma spot_wrap (hW : 0 < W) (run : List α) (i : ℕ) : spot W (wrap W run) i = run[i]? := by
  have hi : W * (i / W) + i % W = i := Nat.div_add_mod i W
  have hmod := Nat.mod_lt i hW
  by_cases hrow : i / W < run.length / W + 1
  · rw [spot, wrap, List.getElem?_map, List.getElem?_range hrow, Option.map_some, Option.bind_some,
      List.getElem?_take_of_lt hmod, List.getElem?_drop, hi]
  · have hlt : run.length ≤ i := by
      by_contra h
      exact hrow (Nat.lt_succ_of_le (Nat.div_le_div_right (by omega)))
    rw [spot, List.getElem?_eq_none (by rw [wrap_length]; omega), List.getElem?_eq_none hlt]
    rfl

lemma spot_append (hW : 0 < W) (rows rows' : List (List α)) (i : ℕ) :
    spot W (rows ++ rows') i = if i < W * rows.length then spot W rows i else spot W rows' (i - W * rows.length) := by
  split
  · rename_i hi
    have hrow : i / W < rows.length := Nat.div_lt_of_lt_mul hi
    rw [spot, spot, List.getElem?_append_left hrow]
  · rename_i hi
    have hrow : rows.length ≤ i / W := (Nat.le_div_iff_mul_le hW).mpr (by rw [Nat.mul_comm]; omega)
    rw [spot, spot, List.getElem?_append_right hrow, Nat.sub_mul_mod (by omega), Nat.sub_mul_div]

lemma spot_empty_row (rows : List (List α)) (i : ℕ) : spot W (rows ++ [[]]) i = spot W rows i := by
  rw [spot, spot, List.getElem?_append]
  split
  · rfl
  · rename_i h
    rw [List.getElem?_eq_none (by omega : rows.length ≤ i / W)]
    cases i / W - rows.length <;> simp

lemma splitOnP_snoc (nl : α → Bool) (text : List α) (g : α) : ∃ ls l, text.splitOnP nl = ls ++ [l] ∧
    (text ++ [g]).splitOnP nl = if nl g then ls ++ [l] ++ [[]] else ls ++ [l ++ [g]] := by
  induction text with
  | nil =>
    refine ⟨[], [], rfl, ?_⟩
    rw [List.nil_append, List.splitOnP_cons_eq_if_modifyHead]
    split <;> rfl
  | cons a text ih =>
    obtain ⟨ls, l, h₁, h₂⟩ := ih
    rw [List.cons_append, List.splitOnP_cons_eq_if_modifyHead, List.splitOnP_cons_eq_if_modifyHead, h₁, h₂]
    by_cases ha : nl a = true
    · refine ⟨[] :: ls, l, by rw [if_pos ha]; rfl, ?_⟩
      rw [if_pos ha]
      split <;> rfl
    · rw [if_neg ha, if_neg ha]
      cases ls with
      | nil =>
        refine ⟨[], a :: l, rfl, ?_⟩
        split <;> rfl
      | cons l' ls =>
        refine ⟨(a :: l') :: ls, l, rfl, ?_⟩
        split <;> rfl

lemma layout_snoc (W : ℕ) (nl : α → Bool) (text : List α) (g : α) : ∃ above l, layout W nl text = above ++ wrap W l ∧
    layout W nl (text ++ [g]) = if nl g then layout W nl text ++ [[]] else above ++ wrap W (l ++ [g]) := by
  obtain ⟨ls, l, h₁, h₂⟩ := splitOnP_snoc nl text g
  have hnil : wrap W ([] : List α) = [[]] := by simp [wrap]
  refine ⟨ls.flatMap (wrap W), l, ?_, ?_⟩
  · rw [layout, h₁, List.flatMap_append, List.flatMap_singleton]
  · rw [layout, h₂]
    split
    · rw [List.flatMap_append, List.flatMap_singleton, hnil, layout, h₁]
    · rw [List.flatMap_append, List.flatMap_singleton]

lemma next_wrap (hW : 0 < W) (above : List (List α)) (l : List α) :
    next W (above ++ wrap W l) = W * above.length + l.length := by
  have hlast : (above ++ wrap W l).getLast? = some ((l.drop (W * (l.length / W))).take W) := by
    rw [wrap, List.range_succ, List.map_append, ← List.append_assoc]
    exact List.getLast?_concat
  have hdiv := Nat.div_add_mod l.length W
  have hmod := Nat.mod_lt l.length hW
  rw [next, hlast, List.length_append, wrap_length, Option.getD_some, List.length_take, List.length_drop,
    Nat.min_eq_right (by omega), ← Nat.add_assoc, Nat.add_sub_cancel, Nat.mul_add]
  omega

lemma spot_above (hW : 0 < W) (above : List (List α)) (l : List α) (i : ℕ) : spot W (above ++ wrap W l) i =
    if i < W * above.length then spot W above i else l[i - W * above.length]? := by
  rw [spot_append hW, spot_wrap hW]

lemma next_plain (hW : 0 < W) (hg : nl g = false) (text : List α) :
    next W (layout W nl (text ++ [g])) = next W (layout W nl text) + 1 := by
  obtain ⟨above, l, h₁, h₂⟩ := layout_snoc W nl text g
  rw [h₁, h₂, if_neg (by simp [hg]), next_wrap hW, next_wrap hW, List.length_append, List.length_singleton,
    Nat.add_assoc]

lemma spot_plain (hW : 0 < W) (hg : nl g = false) (text : List α) (i : ℕ) :
    spot W (layout W nl (text ++ [g])) i =
      if i = next W (layout W nl text) then some g else spot W (layout W nl text) i := by
  obtain ⟨above, l, h₁, h₂⟩ := layout_snoc W nl text g
  rw [h₁, h₂, if_neg (by simp [hg]), next_wrap hW, spot_above hW, spot_above hW, List.getElem?_append]
  by_cases hi : i < W * above.length
  · rw [if_pos hi, if_pos hi, if_neg (by omega)]
  · rw [if_neg hi, if_neg hi]
    by_cases hl : i - W * above.length < l.length
    · rw [if_pos hl, if_neg (by omega)]
    · rw [if_neg hl, List.getElem?_eq_none (by omega : l.length ≤ i - W * above.length)]
      by_cases hn : i = W * above.length + l.length
      · rw [if_pos hn, hn, Nat.add_sub_cancel_left, Nat.sub_self, List.getElem?_cons_zero]
      · rw [if_neg hn]
        exact List.getElem?_eq_none (by rw [List.length_singleton]; omega)

lemma next_newline (hW : 0 < W) (hg : nl g = true) (text : List α) :
    next W (layout W nl (text ++ [g])) = (next W (layout W nl text) / W + 1) * W := by
  obtain ⟨above, l, h₁, h₂⟩ := layout_snoc W nl text g
  rw [h₂, if_pos hg, h₁, next_wrap hW, Nat.mul_add_div hW, next, List.getLast?_concat, Option.getD_some,
    List.length_nil,
    List.length_append, List.length_append, wrap_length, List.length_singleton, Nat.add_sub_cancel, Nat.add_zero,
      Nat.mul_comm, Nat.add_assoc]

lemma spot_newline (hg : nl g = true) (text : List α) (i : ℕ) :
    spot W (layout W nl (text ++ [g])) i = spot W (layout W nl text) i := by
  obtain ⟨above, l, h₁, h₂⟩ := layout_snoc W nl text g
  rw [h₂, if_pos hg, spot_empty_row]

lemma layout_last (W : ℕ) (nl : α → Bool) (text : List α) : ∃ above l, layout W nl text = above ++ wrap W l := by
  obtain ⟨ls, l, h⟩ := (List.eq_nil_or_concat (text.splitOnP nl)).resolve_left (List.splitOnP_ne_nil _ _)
  exact ⟨ls.flatMap (wrap W), l, by rw [layout, h, List.concat_eq_append, List.flatMap_append, List.flatMap_singleton]⟩

lemma spot_none (hW : 0 < W) (text : List α) (hi : next W (layout W nl text) ≤ i) :
    spot W (layout W nl text) i = none := by
  obtain ⟨above, l, h⟩ := layout_last W nl text
  rw [h, next_wrap hW] at hi
  rw [h, spot_above hW, if_neg (by omega)]
  exact List.getElem?_eq_none (by omega)

lemma layout_length (hW : 0 < W) (text : List α) : (layout W nl text).length = next W (layout W nl text) / W + 1 := by
  obtain ⟨above, l, h⟩ := layout_last W nl text
  rw [h, next_wrap hW, Nat.mul_add_div hW, List.length_append, wrap_length, Nat.add_assoc]

lemma layout_length_le (W : ℕ) (nl : α → Bool) (text : List α) (g : α) :
    (layout W nl text).length ≤ (layout W nl (text ++ [g])).length := by
  obtain ⟨above, l, h₁, h₂⟩ := layout_snoc W nl text g
  rw [h₂]
  split
  · exact (List.sublist_append_left _ _).length_le
  · rw [h₁, List.length_append, List.length_append, wrap_length, wrap_length, List.length_append]
    have hdiv : l.length / W ≤ (l.length + [g].length) / W := Nat.div_le_div_right (Nat.le_add_right _ _)
    omega

end TextLayout
