import PyroOS.Library.TextLayout
import PyroOS.Launch.Exec
import PyroOS.Machine.Cells

/-! The screen is a window on a page: what has been printed, in rows of 80, of which the last 25 can be seen. -/

namespace PyroOS

open Interaction Kernel TextLayout

abbrev Glyph := Byte × Byte

def colorWhite : Byte := 0x0F

def clearScreen (scr : Screen) : Kernel Screen := do
  Prog.iterate (fun _ => pure ())
    (fun i => do
      putCell i 0x20 colorWhite
      pure (.inl (i + 1)))
    screenCells 0
  pure ⟨0, scr.color, by decide⟩

inductive ScreenCall where
  | kprint (text : List Byte)
  | kprintColor (text : List Byte) (color : Byte)
  | clearScreen

def ScreenCall.run (scr : Screen) : ScreenCall → Kernel Screen
  | .kprint text => kprintText text scr
  | .kprintColor text color => Kernel.kprintColor text color scr
  | .clearScreen => PyroOS.clearScreen scr

def runCalls : List ScreenCall → Screen → Kernel Screen
  | [], scr => pure scr
  | x :: calls, scr => do
    let scr ← x.run scr
    runCalls calls scr

/-! ### The page -/

structure Page where
  text : List Glyph
  top : ℕ

namespace Page

def newline (g : Glyph) : Bool := g.1 = 0x0A

def blank : Page := ⟨[], 0⟩

def rows (p : Page) : List (List Glyph) := layout 80 newline p.text

def cursor (p : Page) : ℕ := next 80 p.rows

/-- A backspace takes back the last character, if it can still be seen; there is no page for one after a line end. -/
def press (p : Page) (g : Glyph) : Option Page :=
  if g.1 = 0x08 then
    if p.cursor = 80 * p.top then some p
    else if p.text.getLast?.any newline then none
    else some { p with text := p.text.dropLast }
  else some ⟨p.text ++ [g], max p.top ((layout 80 newline (p.text ++ [g])).length - 25)⟩

def print (p : Page) (text : List Byte) (color : Byte) : Option Page := (text.map (·, color)).foldlM press p

end Page

def ScreenCall.page (color : Byte) (p : Page) : ScreenCall → Option Page
  | .kprint text => p.print text color
  | .kprintColor text c => p.print text c
  | .clearScreen => some .blank

def glyph (w : World) (i : ℕ) : Glyph := (w.mem (addr videoMemory (i * 2)), w.mem (addr videoMemory (i * 2 + 1)))

structure Drawn (w : World) (p : Page) : Prop where
  written : ∀ i < 2000, ∀ g, spot 80 p.rows (80 * p.top + i) = some g → glyph w i = g
  blank : ∀ i < 2000, spot 80 p.rows (80 * p.top + i) = none → (glyph w i).1 = 0x20

structure Shows (w : World) (scr : Screen) (p : Page) : Prop where
  cursor : p.cursor = 80 * p.top + scr.cursor
  drawn : Drawn w p

variable {may : Req → Prop} {w t : World} {scr : Screen} {p p' : Page} {c color b : Byte} {i j k : ℕ}

lemma video_setMem (hi : i < 4000) (hj : j < 4000) :
    (w.setMem (addr videoMemory j) b).mem (addr videoMemory i) = if i = j then b else w.mem (addr videoMemory i) := by
  rw [World.setMem_mem, Function.update_apply]
  exact if_congr (video_inj hi hj) rfl rfl

lemma glyph_setMem (hi : i < 2000) (hj : j < 2000) :
    glyph ((w.setMem (addr videoMemory (j * 2)) c).setMem (addr videoMemory (j * 2 + 1)) color) i =
      if i = j then (c, color) else glyph w i := by
  rw [glyph, video_setMem (by omega) (by omega), video_setMem (by omega) (by omega), video_setMem (by omega) (by omega),
    video_setMem (by omega) (by omega), if_neg (by omega : ¬ i * 2 = j * 2 + 1),
      if_neg (by omega : ¬ i * 2 + 1 = j * 2)]
  by_cases hij : i = j
  · rw [if_pos (by omega), if_pos (by omega), if_pos hij]
  · rw [if_neg (by omega), if_neg (by omega), if_neg hij]
    rfl

section

variable {post : Unit → World → Prop}

lemma meets_putCell_glyphs (hj : j < 2000)
    (hp : ∀ t, (∀ i < 2000, glyph t i = if i = j then (c, color) else glyph w i) → post () t) :
    (putCell j c color).Meets (Transfer may) VideoReq (fun _ => True) post w := by
  have hcells : screenCells = 2000 := rfl
  have h₀ := inVideo_addr (show j * 2 < 2 * screenCells by omega)
  have h₁ := inVideo_addr (show j * 2 + 1 < 2 * screenCells by omega)
  exact Prog.Meets.bind
    (meets_poke trivial h₀ trivial (meets_poke trivial h₁ trivial (hp _ fun i hi => glyph_setMem hi hj)))

lemma meets_shiftCell_glyphs (hj : j + 80 < 2000)
    (hp : ∀ t, (∀ i < 2000, glyph t i = if i = j then glyph w (j + 80) else glyph w i) → post () t) :
    (shiftCell j).Meets (Transfer may) VideoReq (fun _ => True) post w := by
  have hcells : screenCells = 2000 := rfl
  have hcols : screenCols = 80 := rfl
  have h₀ := inVideo_addr (show j * 2 < 2 * screenCells by omega)
  have h₁ := inVideo_addr (show j * 2 + 1 < 2 * screenCells by omega)
  have h₂ := inVideo_addr (show (j + screenCols) * 2 < 2 * screenCells by omega)
  have h₃ := inVideo_addr (show (j + screenCols) * 2 + 1 < 2 * screenCells by omega)
  refine Prog.Meets.bind (meets_peek trivial h₂ (Prog.Meets.bind (meets_poke trivial h₀ trivial ?_)))
  refine Prog.Meets.bind (meets_peek trivial h₃ (meets_poke trivial h₁ trivial (hp _ fun i hi => ?_)))
  rw [glyph_setMem hi (by omega), video_setMem (by omega) (by omega),
    if_neg (by omega : ¬ (j + screenCols) * 2 + 1 = j * 2)]
  rfl

end

lemma meets_scroll_glyphs (hk : 2000 ≤ k) {post : Screen → World → Prop}
    (hp : ∀ scr t, scr.cursor = 1920 → scr.color = color →
      (∀ i < 2000, glyph t i = if i < 1920 then glyph w (i + 80) else (0x20, color)) → post scr t) :
    (scrollIfNeeded k color).Meets (Transfer may) VideoReq (fun _ => True) post w := by
  have hcells : screenCells = 2000 := rfl
  rw [scrollIfNeeded, dif_neg (by omega)]
  refine Prog.Meets.bind (Prog.meets_iterate (fun n i t => n + i = 1920 ∧
    ∀ j < 2000, glyph t j = if j < i then glyph w (j + 80) else glyph w j) ?_ ?_ _ _ _ ⟨rfl, fun j _ => ?_⟩)
  · rintro n i t ⟨hn, ht⟩
    refine Prog.Meets.bind (meets_shiftCell_glyphs (by omega) fun u hu => ⟨trivial, by omega, fun j hj => ?_⟩)
    rw [hu j hj]
    by_cases hji : j = i
    · rw [if_pos hji, if_pos (by omega), ht _ (by omega), if_neg (by omega), hji]
    · rw [if_neg hji, ht j hj]
      exact if_congr (by omega) rfl rfl
  · rintro i t ⟨hi, ht⟩
    refine ⟨trivial, Prog.Meets.bind (Prog.meets_iterate (fun n i u => n + i = 2000 ∧ 1920 ≤ i ∧
      ∀ j < i, glyph u j = if j < 1920 then glyph w (j + 80) else (0x20, color)) ?_ ?_ _ _ _
        ⟨rfl, le_rfl, fun j hj => ?_⟩)⟩
    · rintro n i u ⟨hn, hi, hu⟩
      refine Prog.Meets.bind (meets_putCell_glyphs (by omega) fun v hv => ⟨trivial, by omega, by omega, fun j hj => ?_⟩)
      rw [hv j (by omega)]
      by_cases hji : j = i
      · rw [if_pos hji, if_neg (by omega)]
      · rw [if_neg hji, hu j (by omega)]
    · rintro i u ⟨hn, _, hu⟩
      exact ⟨trivial, trivial, hp _ _ rfl rfl fun j hj => hu j (by omega)⟩
    · have hj' : j < 1920 := hj
      rw [ht j (by omega), if_pos (by omega), if_pos hj']
  · rw [if_neg (Nat.not_lt_zero _)]

/-! ### Characters -/

lemma Page.rows_length (p : Page) : p.rows.length = p.cursor / 80 + 1 := layout_length (by decide) p.text

lemma meets_scroll_shows (hcursor : p.cursor = 80 * p.top + k) (hk : k ≤ 2000) (hp : Drawn w p) :
    (scrollIfNeeded k color).Meets (Transfer may) VideoReq (fun _ => True)
      (fun scr t => Shows t scr { p with top := max p.top (p.rows.length - 25) } ∧ scr.color = color) w := by
  have hcells : screenCells = 2000 := rfl
  have hrows := p.rows_length
  by_cases hlt : k < 2000
  · rw [scrollIfNeeded, dif_pos (by omega), Nat.max_eq_left (by omega)]
    exact ⟨trivial, ⟨hcursor, hp⟩, rfl⟩
  · rw [show max p.top (p.rows.length - 25) = p.top + 1 by omega]
    refine meets_scroll_glyphs (by omega) fun scr t hscr hcol ht => ⟨⟨?_, ?_, ?_⟩, hcol⟩
    · change p.cursor = _
      dsimp only
      omega
    all_goals
      intro i hi
      dsimp only
      rw [ht i hi, show 80 * (p.top + 1) + i = 80 * p.top + (i + 80) by omega]
    · intro g hg
      have hin : i < 1920 := by
        by_contra hout
        have hnone : spot 80 p.rows (80 * p.top + (i + 80)) = none :=
          spot_none (by decide) p.text (show p.cursor ≤ _ by omega)
        cases hnone.symm.trans hg
      rw [if_pos hin]
      exact hp.written (i + 80) (by omega) g hg
    · intro hnone
      split
      · exact hp.blank (i + 80) (by omega) hnone
      · rfl

lemma meets_newline_shows (hs : Shows w scr p) :
    (kprintChar scr 0x0A).Meets (Transfer may) VideoReq (fun _ => True) (fun scr' t =>
      Shows t scr' ⟨p.text ++ [(0x0A, scr.color)],
        max p.top ((layout 80 Page.newline (p.text ++ [(0x0A, scr.color)])).length - 25)⟩ ∧
        scr'.color = scr.color) w := by
  have hlt : scr.cursor < 2000 := scr.cursor_lt
  have hcols : screenCols = 80 := rfl
  have hg : Page.newline (0x0A, scr.color) = true := decide_eq_true rfl
  have hplace : ∀ i, spot 80 (layout 80 Page.newline (p.text ++ [(0x0A, scr.color)])) i = spot 80 p.rows i :=
    spot_newline hg p.text
  have hcur : next 80 (layout 80 Page.newline p.text) = 80 * p.top + scr.cursor := hs.cursor
  rw [kprintChar, if_pos rfl, hcols]
  refine meets_scroll_shows (p := ⟨p.text ++ [(0x0A, scr.color)], p.top⟩) ?_ (by omega)
    ⟨fun i hi g => ?_, fun i hi => ?_⟩
  · rw [Page.cursor, Page.rows, next_newline (by decide) hg, hcur]
    dsimp only
    omega
  · rw [Page.rows, hplace]
    exact hs.drawn.written i hi g
  · rw [Page.rows, hplace]
    exact hs.drawn.blank i hi

lemma meets_plain_shows (hs : Shows w scr p) (hnl : c ≠ 0x0A) (hback : c ≠ 0x08) :
    (kprintChar scr c).Meets (Transfer may) VideoReq (fun _ => True) (fun scr' t =>
      Shows t scr' ⟨p.text ++ [(c, scr.color)],
        max p.top ((layout 80 Page.newline (p.text ++ [(c, scr.color)])).length - 25)⟩ ∧
        scr'.color = scr.color) w := by
  have hlt : scr.cursor < 2000 := scr.cursor_lt
  have hg : Page.newline (c, scr.color) = false := decide_eq_false hnl
  have hcur : next 80 (layout 80 Page.newline p.text) = 80 * p.top + scr.cursor := hs.cursor
  have hplace : ∀ i, spot 80 (layout 80 Page.newline (p.text ++ [(c, scr.color)])) (80 * p.top + i) =
      if i = scr.cursor then some (c, scr.color) else spot 80 p.rows (80 * p.top + i) := by
    intro i
    rw [spot_plain (by decide) hg, hcur]
    exact if_congr (by omega) rfl rfl
  rw [kprintChar, if_neg hnl, if_neg hback]
  refine Prog.Meets.bind (meets_putCell_glyphs hlt fun t ht => ?_)
  refine meets_scroll_shows (p := ⟨p.text ++ [(c, scr.color)], p.top⟩) ?_ (by omega) ⟨fun i hi g => ?_, fun i hi => ?_⟩
  · rw [Page.cursor, Page.rows, next_plain (by decide) hg, hcur, Nat.add_assoc]
  all_goals
    rw [Page.rows, hplace, ht i hi]
    split
  · exact Option.some.inj
  · exact hs.drawn.written i hi g
  · exact fun h => by cases h
  · exact hs.drawn.blank i hi

lemma meets_back_shows (hs : Shows w scr p) (hcur : scr.cursor ≠ 0) (hlast : p.text.getLast?.any Page.newline = false) :
    (kprintChar scr 0x08).Meets (Transfer may) VideoReq (fun _ => True)
      (fun scr' t => Shows t scr' { p with text := p.text.dropLast } ∧ scr'.color = scr.color) w := by
  have hlt : scr.cursor < 2000 := scr.cursor_lt
  have hcells : screenCells = 2000 := rfl
  obtain ⟨text, top⟩ := p
  have hcursor : next 80 (layout 80 Page.newline text) = 80 * top + scr.cursor := hs.cursor
  obtain rfl | ⟨text, h, rfl⟩ := text.eq_nil_or_concat
  · have hzero : next 80 (layout 80 Page.newline []) = 0 := by decide
    omega
  · rw [List.concat_eq_append] at *
    have hg : Page.newline h = false := by simpa using hlast
    rw [next_plain (by decide) hg] at hcursor
    have hplace : ∀ i, spot 80 (layout 80 Page.newline (text ++ [h])) (80 * top + i) =
        if i = scr.cursor - 1 then some h else spot 80 (layout 80 Page.newline text) (80 * top + i) := by
      intro i
      rw [spot_plain (by decide) hg]
      exact if_congr (by omega) rfl rfl
    rw [kprintChar, if_neg (by decide), if_pos rfl, if_pos (by omega), List.dropLast_concat]
    refine Prog.Meets.bind (meets_putCell_glyphs (by omega) fun t ht => ?_)
    rw [scrollIfNeeded, dif_pos (by omega)]
    refine ⟨trivial, ⟨?_, fun i hi g hg => ?_, fun i hi hnone => ?_⟩, rfl⟩
    · change next 80 (layout 80 Page.newline text) = 80 * top + (scr.cursor - 1)
      omega
    · have hne : i ≠ scr.cursor - 1 := fun heq => by
        have hend : spot 80 (layout 80 Page.newline text) (80 * top + i) = none := spot_none (by decide) text (by omega)
        cases hend.symm.trans hg
      rw [ht i hi, if_neg hne]
      refine hs.drawn.written i hi g ?_
      rw [Page.rows, hplace, if_neg hne]
      exact hg
    · rw [ht i hi]
      split
      · rfl
      · rename_i hne
        refine hs.drawn.blank i hi ?_
        rw [Page.rows, hplace, if_neg hne]
        exact hnone

lemma meets_kprintChar_shows (hs : Shows w scr p) (hp : p.press (c, scr.color) = some p') :
    (kprintChar scr c).Meets (Transfer may) VideoReq (fun _ => True)
      (fun scr' t => Shows t scr' p' ∧ scr'.color = scr.color) w := by
  have hcells : screenCells = 2000 := rfl
  have hlt : scr.cursor < 2000 := scr.cursor_lt
  have hcur := hs.cursor
  rw [Page.press] at hp
  dsimp only at hp
  split at hp
  · rename_i hback
    rw [hback]
    split at hp
    · rename_i hhome
      obtain rfl := Option.some.inj hp
      rw [kprintChar, if_neg (by decide), if_pos rfl, if_neg (by omega), scrollIfNeeded, dif_pos (by omega)]
      exact ⟨trivial, hs, rfl⟩
    · split at hp
      · cases hp
      · rename_i hne hlast
        obtain rfl := Option.some.inj hp
        exact meets_back_shows hs (by omega) (by simpa using hlast)
  · rename_i hback
    obtain rfl := Option.some.inj hp
    by_cases hnl : c = 0x0A
    · rw [hnl]
      exact meets_newline_shows hs
    · exact meets_plain_shows hs hnl hback

/-! ### Texts and calls -/

lemma meets_kprintText_shows {text : List Byte} (hs : Shows w scr p) (hp : p.print text scr.color = some p') :
    (kprintText text scr).Meets (Transfer may) VideoReq (fun _ => True)
      (fun scr' t => Shows t scr' p' ∧ scr'.color = scr.color) w := by
  induction text generalizing w scr p with
  | nil =>
    obtain rfl := Option.some.inj hp
    exact ⟨trivial, hs, rfl⟩
  | cons c text ih =>
    rw [Page.print, List.map_cons, List.foldlM_cons] at hp
    obtain ⟨q, hq, hp⟩ := Option.bind_eq_some_iff.mp hp
    refine Prog.Meets.bind ((meets_kprintChar_shows hs hq).mono fun scr' t _ ht => ?_)
    exact (ih ht.1 (by rw [ht.2]; exact hp)).mono fun scr'' u _ hu => ⟨hu.1, hu.2.trans ht.2⟩

lemma meets_clearScreen_shows : (clearScreen scr).Meets (Transfer may) VideoReq (fun _ => True)
    (fun scr' t => Shows t scr' .blank ∧ scr'.color = scr.color) w := by
  have hcells : screenCells = 2000 := rfl
  refine Prog.Meets.bind (Prog.meets_iterate (fun n i t => n + i = 2000 ∧ ∀ j < i, (glyph t j).1 = 0x20) ?_ ?_ _ _ _
    ⟨rfl, fun j hj => absurd hj (Nat.not_lt_zero j)⟩)
  · rintro n i t ⟨hn, ht⟩
    refine Prog.Meets.bind (meets_putCell_glyphs (by omega) fun u hu => ⟨trivial, by omega, fun j hj => ?_⟩)
    rw [hu j (by omega)]
    split
    · rfl
    · exact ht j (by omega)
  · rintro i t ⟨hi, ht⟩
    have hempty : ∀ i, spot 80 Page.blank.rows i = none := fun i => spot_none (by decide) [] (Nat.zero_le i)
    refine ⟨trivial, trivial, ⟨(by decide : Page.blank.cursor = 0), fun i _ g hg => ?_, fun i hi _ => ht i (by omega)⟩,
      rfl⟩
    rw [hempty] at hg
    cases hg

lemma meets_call_shows {x : ScreenCall} (hs : Shows w scr p) (hp : x.page scr.color p = some p') :
    (x.run scr).Meets (Transfer may) VideoReq (fun _ => True)
      (fun scr' t => Shows t scr' p' ∧ scr'.color = scr.color) w := by
  cases x with
  | kprint text => exact meets_kprintText_shows hs hp
  | kprintColor text color =>
    have hs' : Shows w { scr with color := color } p := ⟨hs.cursor, hs.drawn⟩
    refine Prog.Meets.bind ((meets_kprintText_shows hs' hp).mono fun scr' t _ ht => ?_)
    exact ⟨trivial, ⟨ht.1.cursor, ht.1.drawn⟩, rfl⟩
  | clearScreen =>
    obtain rfl := Option.some.inj hp
    exact meets_clearScreen_shows

lemma meets_runCalls_shows {calls : List ScreenCall} (hs : Shows w scr p)
    (hp : calls.foldlM (ScreenCall.page scr.color) p = some p') :
    (runCalls calls scr).Meets (Transfer may) VideoReq (fun _ => True)
      (fun scr' t => Shows t scr' p' ∧ scr'.color = scr.color) w := by
  induction calls generalizing scr w p with
  | nil =>
    obtain rfl := Option.some.inj hp
    exact ⟨trivial, hs, rfl⟩
  | cons x calls ih =>
    rw [List.foldlM_cons] at hp
    obtain ⟨q, hq, hp⟩ := Option.bind_eq_some_iff.mp hp
    refine Prog.Meets.bind ((meets_call_shows hs hq).mono fun scr' t _ ht => ?_)
    exact (ih ht.1 (by rw [ht.2]; exact hp)).mono fun scr'' u _ hu => ⟨hu.1, hu.2.trans ht.2⟩

/-! ### Texts without backspaces -/

def ScreenCall.text : ScreenCall → List Byte
  | .kprint text | .kprintColor text _ => text
  | .clearScreen => []

def ScreenCall.printed (color : Byte) (gs : List Glyph) : ScreenCall → List Glyph
  | .kprint text => gs ++ text.map (·, color)
  | .kprintColor text c => gs ++ text.map (·, c)
  | .clearScreen => []

def Page.whole (text : List Glyph) : Page := ⟨text, (layout 80 newline text).length - 25⟩

lemma Page.press_whole {g : Glyph} (hg : g.1 ≠ 0x08) (text : List Glyph) :
    (Page.whole text).press g = some (.whole (text ++ [g])) := by
  rw [press, if_neg hg, whole, whole, Nat.max_eq_right (Nat.sub_le_sub_right (layout_length_le 80 newline text g) 25)]

lemma Page.print_whole {text : List Byte} (h : 0x08 ∉ text) (gs : List Glyph) (color : Byte) :
    (Page.whole gs).print text color = some (.whole (gs ++ text.map (·, color))) := by
  induction text generalizing gs with
  | nil =>
    rw [List.map_nil, List.append_nil]
    rfl
  | cons c text ih =>
    rw [List.mem_cons, not_or] at h
    rw [print, List.map_cons, List.foldlM_cons, press_whole (Ne.symm h.1)]
    have hrest := ih h.2 (gs ++ [(c, color)])
    rwa [List.append_assoc] at hrest

lemma ScreenCall.page_whole {x : ScreenCall} (h : 0x08 ∉ x.text) (gs : List Glyph) (color : Byte) :
    x.page color (.whole gs) = some (.whole (x.printed color gs)) := by
  cases x with
  | kprint text => exact Page.print_whole h gs color
  | kprintColor text c => exact Page.print_whole h gs c
  | clearScreen => rfl

/-- Whatever is printed after `clear_screen`, in whatever colours, the screen shows 25 rows of the page that the texts
make up, each glyph in its place, blanks elsewhere, and the cursor where the page ends. Only video memory is touched, and
the colour in force before is in force again. Without backspaces these are the last 25 rows of all that has been printed. -/
theorem screen_shows_page (calls : List ScreenCall) (scr : Screen) (w : World) :
    (∀ p, calls.foldlM (ScreenCall.page scr.color) .blank = some p →
      (runCalls (.clearScreen :: calls) scr).Meets (Transfer may) VideoReq (fun _ => True)
        (fun scr' t => Shows t scr' p ∧ scr'.color = scr.color) w) ∧
    ((∀ x ∈ calls, 0x08 ∉ x.text) →
      calls.foldlM (ScreenCall.page scr.color) .blank = some
        (.whole (calls.foldl (ScreenCall.printed scr.color) []))) := by
  constructor
  · intro p hp
    refine Prog.Meets.bind (meets_clearScreen_shows.mono fun scr' t _ ht => ?_)
    refine (meets_runCalls_shows ht.1 (by rw [ht.2]; exact hp)).mono fun scr'' u _ hu => ?_
    exact ⟨hu.1, hu.2.trans ht.2⟩
  · intro h
    change calls.foldlM _ (Page.whole []) = _
    generalize ([] : List Glyph) = gs
    induction calls generalizing gs with
    | nil => rfl
    | cons x calls ih =>
      rw [List.foldlM_cons, ScreenCall.page_whole (h x List.mem_cons_self)]
      exact ih (fun y hy => h y (List.mem_cons_of_mem x hy)) _

end PyroOS
