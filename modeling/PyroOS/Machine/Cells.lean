import PyroOS.Library.TextBuffer
import PyroOS.Machine.Screen

/-! What the screen shows before the cursor. -/

namespace PyroOS

open Interaction TextBuffer

def cell (w : World) (i : ℕ) : Byte := w.mem (addr videoMemory (i * 2))

def VideoReq : Req → Prop
  | .peek a | .poke a _ => InVideo a
  | _ => False

def Spelled (w : World) (scr : Screen) (text : List Byte) : Prop :=
  ∃ start, start + text.length = scr.cursor ∧ upTo (fun i => cell w (start + i)) text.length = text

variable {may : Req → Prop} {w t : World} {scr : Screen} {text : List Byte} {c color b : Byte} {i j : ℕ}

lemma video_inj (hi : i < 2 * screenCells) (hj : j < 2 * screenCells) :
    addr videoMemory i = addr videoMemory j ↔ i = j := by
  have hv : videoMemory.toNat = 0xB8000 := rfl
  have hc : 2 * screenCells = 4000 := rfl
  exact ⟨addr_inj (by omega) (by omega), fun h => by rw [h]⟩

lemma cell_setMem_char (hi : i < screenCells) (hj : j < screenCells) :
    cell (w.setMem (addr videoMemory (j * 2)) b) i = if i = j then b else cell w i := by
  rw [cell, World.setMem_mem, Function.update_apply, cell]
  refine if_congr ?_ rfl rfl
  rw [video_inj (by omega) (by omega)]
  omega

lemma cell_setMem_color (hi : i < screenCells) (hj : j < screenCells) :
    cell (w.setMem (addr videoMemory (j * 2 + 1)) b) i = cell w i := by
  rw [cell, World.setMem_mem, Function.update_apply, cell, if_neg]
  rw [video_inj (by omega) (by omega)]
  omega

section

variable {post : Unit → World → Prop}

lemma meets_putCell_cells (hj : j < screenCells)
    (hp : ∀ t, (∀ i < screenCells, cell t i = if i = j then c else cell w i) → post () t) :
    (Kernel.putCell j c color).Meets (Transfer may) VideoReq (fun _ => True) post w := by
  have h₀ := inVideo_addr (show j * 2 < 2 * screenCells by omega)
  have h₁ := inVideo_addr (show j * 2 + 1 < 2 * screenCells by omega)
  refine Prog.Meets.bind (meets_poke trivial h₀ trivial (meets_poke trivial h₁ trivial (hp _ fun i hi => ?_)))
  rw [cell_setMem_color hi hj, cell_setMem_char hi hj]

lemma meets_shiftCell_cells (hj : j + screenCols < screenCells)
    (hp : ∀ t, (∀ i < screenCells, cell t i = if i = j then cell w (j + screenCols) else cell w i) → post () t) :
    (Kernel.shiftCell j).Meets (Transfer may) VideoReq (fun _ => True) post w := by
  have h₀ := inVideo_addr (show j * 2 < 2 * screenCells by omega)
  have h₁ := inVideo_addr (show j * 2 + 1 < 2 * screenCells by omega)
  have h₂ := inVideo_addr (show (j + screenCols) * 2 < 2 * screenCells by omega)
  have h₃ := inVideo_addr (show (j + screenCols) * 2 + 1 < 2 * screenCells by omega)
  refine Prog.Meets.bind (meets_peek trivial h₂ (Prog.Meets.bind (meets_poke trivial h₀ trivial ?_)))
  refine Prog.Meets.bind (meets_peek trivial h₃ (meets_poke trivial h₁ trivial (hp _ fun i hi => ?_)))
  rw [cell_setMem_color hi (by omega), cell_setMem_char hi (by omega)]
  rfl

end

lemma meets_scroll {cursor : ℕ} (hcursor : screenCells ≤ cursor) {post : Screen → World → Prop}
    (hp : ∀ scr t, scr.cursor = 1920 → (∀ i < 1920, cell t i = cell w (i + 80)) → post scr t) :
    (Kernel.scrollIfNeeded cursor color).Meets (Transfer may) VideoReq (fun _ => True) post w := by
  have hcells : screenCells = 2000 := rfl
  have hcols : screenCols = 80 := rfl
  have hlast : screenCols * (screenRows - 1) = 1920 := rfl
  rw [Kernel.scrollIfNeeded, dif_neg (by omega)]
  refine Prog.Meets.bind (Prog.meets_iterate (fun n i t => n + i = 1920 ∧
    ∀ j < screenCells, cell t j = if j < i then cell w (j + 80) else cell w j) ?_ ?_ _ _ _ ⟨rfl, fun j _ => ?_⟩)
  · rintro n i t ⟨hn, ht⟩
    refine Prog.Meets.bind (meets_shiftCell_cells (by omega) fun u hu => ⟨trivial, by omega, fun j hj => ?_⟩)
    rw [hu j hj]
    by_cases hji : j = i
    · -- the row below has not been overwritten yet
      rw [if_pos hji, if_pos (by omega), ht _ (by omega), if_neg (by omega), hji, hcols]
    · rw [if_neg hji, ht j hj]
      exact if_congr (by omega) rfl rfl
  · rintro i t ⟨hi, ht⟩
    refine ⟨trivial, Prog.Meets.bind (Prog.meets_iterate (fun n i u => n + i = 2000 ∧ 1920 ≤ i ∧
      ∀ j < 1920, cell u j = cell w (j + 80)) ?_ ?_ _ _ _ ⟨rfl, le_rfl, fun j hj => ?_⟩)⟩
    · rintro n i u ⟨hn, hi, hu⟩
      refine Prog.Meets.bind (meets_putCell_cells (by omega) fun v hv => ⟨trivial, by omega, by omega, fun j hj => ?_⟩)
      rw [hv j (by omega), if_neg (by omega), hu j hj]
    · rintro i u ⟨_, _, hu⟩
      exact ⟨trivial, trivial, hp _ _ rfl hu⟩
    · rw [ht j (by omega), if_pos (by omega)]
  · rw [if_neg (Nat.not_lt_zero _)]

lemma meets_stay {cursor : ℕ} (hcursor : cursor < screenCells) {post : Screen → World → Prop}
    (hp : ∀ scr, scr.cursor = cursor → post scr w) :
    (Kernel.scrollIfNeeded cursor color).Meets (Transfer may) VideoReq (fun _ => True) post w := by
  rw [Kernel.scrollIfNeeded, dif_pos hcursor]
  exact ⟨trivial, hp _ rfl⟩

/-! ### Characters -/

lemma meets_kprintChar_plain (h : Spelled w scr text) (hnl : c ≠ 0x0A) (hback : c ≠ 0x08) (hlen : text.length < 1920) :
    (Kernel.kprintChar scr c).Meets (Transfer may) VideoReq (fun _ => True)
      (fun scr' t => Spelled t scr' (text ++ [c])) w := by
  obtain ⟨start, hstart, htext⟩ := h
  have hlt : scr.cursor < 2000 := scr.cursor_lt
  have hcells : screenCells = 2000 := rfl
  have hsize : (text ++ [c]).length = text.length + 1 := by simp
  rw [Kernel.kprintChar, if_neg hnl, if_neg hback]
  refine Prog.Meets.bind (meets_putCell_cells scr.cursor_lt fun t ht => ?_)
  have hold : ∀ i < text.length, cell t (start + i) = cell w (start + i) := fun i hi => by
    rw [ht _ (by omega), if_neg (by omega)]
  have hnew : cell t (start + text.length) = c := by
    rw [ht _ (by omega), if_pos (by omega)]
  have hall : upTo (fun i => cell t (start + i)) (text.length + 1) = text ++ [c] := by
    rw [upTo_succ, hnew, upTo_congr hold, htext]
  by_cases hend : scr.cursor + 1 < screenCells
  · refine meets_stay hend fun scr' hcur => ⟨start, by omega, ?_⟩
    rw [hsize]
    exact hall
  · refine meets_scroll (by omega) fun scr' u hcur hu => ⟨start - 80, by omega, ?_⟩
    rw [hsize, ← hall]
    refine upTo_congr fun i hi => ?_
    rw [hu _ (by omega)]
    exact congrArg (cell t) (by omega)

lemma meets_kprintChar_back (h : Spelled w scr (text ++ [b])) :
    (Kernel.kprintChar scr 0x08).Meets (Transfer may) VideoReq (fun _ => True) (fun scr' t => Spelled t scr' text) w := by
  obtain ⟨start, hstart, htext⟩ := h
  have hlt := scr.cursor_lt
  have hsize : (text ++ [b]).length = text.length + 1 := by simp
  rw [hsize] at hstart htext
  rw [Kernel.kprintChar, if_neg (by decide), if_pos rfl, if_pos (by omega)]
  refine Prog.Meets.bind
    (meets_putCell_cells (by omega) fun t ht => meets_stay (by omega) fun scr' hcur => ⟨start, by omega, ?_⟩)
  have hinit : upTo (fun i => cell w (start + i)) text.length = text := by
    rw [upTo_succ] at htext
    exact List.append_inj_left htext (by simp)
  rw [← hinit, upTo_length]
  refine upTo_congr fun i hi => ?_
  rw [ht _ (by omega), if_neg (by omega)]

lemma meets_kprintChar_newline :
    (Kernel.kprintChar scr 0x0A).Meets (Transfer may) VideoReq (fun _ => True) (fun _ _ => True) w := by
  have hv : VideoInv (fun _ => True) (fun _ => True) := ⟨trivial, fun _ _ _ _ => trivial, fun _ _ _ _ _ _ => trivial⟩
  exact (meets_kprintChar hv (fun _ _ => trivial) (fun _ h => h) (fun _ _ h => h) trivial trivial trivial).mono
    fun _ _ _ _ => trivial

end PyroOS
