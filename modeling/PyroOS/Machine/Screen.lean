import PyroOS.Machine.Strings

/-! The text screen. Its memory lies inside the zone that programs use. -/

namespace PyroOS

open Interaction

def videoMemory : Word := 0xB8000
def screenCols : ℕ := 80
def screenRows : ℕ := 25
def screenCells : ℕ := screenCols * screenRows

def InVideo (a : Word) : Prop := 0xB8000 ≤ a.toNat ∧ a.toNat < 0xB8000 + 2 * screenCells

instance (a : Word) : Decidable (InVideo a) := inferInstanceAs (Decidable (_ ∧ _))

structure Screen where
  cursor : ℕ
  color : Byte
  cursor_lt : cursor < screenCells

namespace Kernel

def putCell (index : ℕ) (c color : Byte) : Kernel Unit := do
  poke (addr videoMemory (index * 2)) c
  poke (addr videoMemory (index * 2 + 1)) color

def shiftCell (i : ℕ) : Kernel Unit := do
  let c ← peek (addr videoMemory ((i + screenCols) * 2))
  poke (addr videoMemory (i * 2)) c
  let a ← peek (addr videoMemory ((i + screenCols) * 2 + 1))
  poke (addr videoMemory (i * 2 + 1)) a

def scrollIfNeeded (cursor : ℕ) (color : Byte) : Kernel Screen :=
  if h : cursor < screenCells then pure ⟨cursor, color, h⟩
  else do
    Prog.iterate (fun _ => pure ())
      (fun i => do
        shiftCell i
        pure (.inl (i + 1)))
      (screenCols * (screenRows - 1)) 0
    Prog.iterate (fun _ => pure ())
      (fun i => do
        putCell i 0x20 color
        pure (.inl (i + 1)))
      screenCols (screenCols * (screenRows - 1))
    pure ⟨screenCols * (screenRows - 1), color, by decide⟩

def kprintChar (scr : Screen) (c : Byte) : Kernel Screen :=
  if c = 0x0A then scrollIfNeeded ((scr.cursor / screenCols + 1) * screenCols) scr.color
  else if c = 0x08 then
    if 0 < scr.cursor then do
      putCell (scr.cursor - 1) 0x20 scr.color
      scrollIfNeeded (scr.cursor - 1) scr.color
    else scrollIfNeeded scr.cursor scr.color
  else do
    putCell scr.cursor c scr.color
    scrollIfNeeded (scr.cursor + 1) scr.color

def kprintRound (s : Word) (x : ℕ × Screen) : Kernel ((ℕ × Screen) ⊕ Screen) := do
  let c ← load (addr s x.1)
  if c = 0 then pure (.inr x.2)
  else do
    let c ← load (addr s x.1)
    let scr ← kprintChar x.2 c
    pure (.inl (x.1 + 1, scr))

def kprint (s : Word) (scr : Screen) : Kernel Screen :=
  Prog.iterate (fun _ => hang) (kprintRound s) (2 ^ 32) (0, scr)

end Kernel

/-! ### Rules -/

lemma inVideo_addr {j : ℕ} (hj : j < 2 * screenCells) : InVideo (addr videoMemory j) := by
  have hv : videoMemory.toNat = 0xB8000 := rfl
  have hc : 2 * screenCells = 4000 := rfl
  rw [InVideo, addr, BitVec.toNat_add, BitVec.toNat_ofNat]
  omega

structure VideoInv (P : Byte → Prop) (inv : World → Prop) : Prop where
  space : P 0x20
  read : ∀ t a, inv t → InVideo a → P (t.mem a)
  write : ∀ t a b, inv t → InVideo a → P b → inv (t.setMem a b)

section

variable {may allowed : Req → Prop} {good : World → Prop} {P : Byte → Prop} {inv : World → Prop} {w : World}

lemma meets_putCell {post : Unit → World → Prop} {index : ℕ} {c color : Byte} (hv : VideoInv P inv)
    (hg : ∀ t, inv t → good t) (ha : ∀ a b, InVideo a → allowed (.poke a b)) (hi : index < screenCells)
    (hc : P c) (hcol : P color) (h : inv w) (hp : ∀ t, inv t → post () t) :
    (Kernel.putCell index c color).Meets (Transfer may) allowed good post w := by
  have h₀ := inVideo_addr (show index * 2 < 2 * screenCells by omega)
  have h₁ := inVideo_addr (show index * 2 + 1 < 2 * screenCells by omega)
  have hw := hv.write w _ c h h₀ hc
  have hw' := hv.write _ _ color hw h₁ hcol
  exact Prog.Meets.bind (meets_poke (hg _ h) (ha _ _ h₀) (hg _ hw)
    (meets_poke (hg _ hw) (ha _ _ h₁) (hg _ hw') (hp _ hw')))

lemma meets_shiftCell {post : Unit → World → Prop} {i : ℕ} (hv : VideoInv P inv) (hg : ∀ t, inv t → good t)
    (hr : ∀ a, InVideo a → allowed (.peek a)) (ha : ∀ a b, InVideo a → allowed (.poke a b))
    (hi : i + screenCols < screenCells) (h : inv w) (hp : ∀ t, inv t → post () t) :
    (Kernel.shiftCell i).Meets (Transfer may) allowed good post w := by
  have h₀ := inVideo_addr (show i * 2 < 2 * screenCells by omega)
  have h₁ := inVideo_addr (show i * 2 + 1 < 2 * screenCells by omega)
  have h₂ := inVideo_addr (show (i + screenCols) * 2 < 2 * screenCells by omega)
  have h₃ := inVideo_addr (show (i + screenCols) * 2 + 1 < 2 * screenCells by omega)
  have hw := hv.write w _ _ h h₀ (hv.read w _ h h₂)
  have hw' := hv.write _ _ _ hw h₁ (hv.read _ _ hw h₃)
  refine Prog.Meets.bind (meets_peek (hg _ h) (hr _ h₂) ?_)
  refine Prog.Meets.bind (meets_poke (hg _ h) (ha _ _ h₀) (hg _ hw) ?_)
  refine Prog.Meets.bind (meets_peek (hg _ hw) (hr _ h₃) ?_)
  exact meets_poke (hg _ hw) (ha _ _ h₁) (hg _ hw') (hp _ hw')

lemma meets_scrollIfNeeded {cursor : ℕ} {color : Byte} (hv : VideoInv P inv) (hg : ∀ t, inv t → good t)
    (hr : ∀ a, InVideo a → allowed (.peek a)) (ha : ∀ a b, InVideo a → allowed (.poke a b)) (hcol : P color)
    (h : inv w) :
    (Kernel.scrollIfNeeded cursor color).Meets (Transfer may) allowed good
      (fun scr t => inv t ∧ scr.color = color) w := by
  rw [Kernel.scrollIfNeeded]
  split
  · exact ⟨hg _ h, h, rfl⟩
  · refine Prog.Meets.bind (Prog.meets_iterate
      (fun n i t => n + i = screenCols * (screenRows - 1) ∧ inv t) ?_ ?_ _ _ _ ⟨rfl, h⟩)
    · rintro n i t ⟨hn, ht⟩
      have hi : i + screenCols < screenCells := by
        simp only [screenCols, screenRows, screenCells] at hn ⊢
        omega
      exact Prog.Meets.bind (meets_shiftCell hv hg hr ha hi ht fun u hu => ⟨hg _ hu, by omega, hu⟩)
    · rintro _ t ⟨_, ht⟩
      refine ⟨hg _ ht, Prog.Meets.bind (Prog.meets_iterate
        (fun n i t => n + i = screenCells ∧ inv t) ?_ ?_ _ _ _ ⟨by decide, ht⟩)⟩
      · rintro n i t ⟨hn, ht⟩
        exact Prog.Meets.bind (meets_putCell hv hg ha (by omega) hv.space hcol ht
          fun u hu => ⟨hg _ hu, by omega, hu⟩)
      · rintro _ t ⟨_, ht⟩
        exact ⟨hg _ ht, hg _ ht, ht, rfl⟩

lemma meets_kprintChar {scr : Screen} {c : Byte} (hv : VideoInv P inv) (hg : ∀ t, inv t → good t)
    (hr : ∀ a, InVideo a → allowed (.peek a)) (ha : ∀ a b, InVideo a → allowed (.poke a b)) (hc : P c)
    (hcol : P scr.color) (h : inv w) :
    (Kernel.kprintChar scr c).Meets (Transfer may) allowed good
      (fun scr' t => inv t ∧ scr'.color = scr.color) w := by
  rw [Kernel.kprintChar]
  have hlt := scr.cursor_lt
  split
  · exact meets_scrollIfNeeded hv hg hr ha hcol h
  · split
    · split
      · exact Prog.Meets.bind (meets_putCell hv hg ha (by omega) hv.space hcol h
          fun t ht => meets_scrollIfNeeded hv hg hr ha hcol ht)
      · exact meets_scrollIfNeeded hv hg hr ha hcol h
    · exact Prog.Meets.bind (meets_putCell hv hg ha hlt hc hcol h
        fun t ht => meets_scrollIfNeeded hv hg hr ha hcol ht)

end

end PyroOS
