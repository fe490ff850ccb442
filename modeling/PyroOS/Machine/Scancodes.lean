import PyroOS.Machine.Keyboard

/-! The keyboard interrupt: scancodes become characters, under the Shift keys. -/

namespace PyroOS

def keyUp : Byte := 0x11
def keyDown : Byte := 0x12
def keyLeft : Byte := 0x13
def keyRight : Byte := 0x14
def lshift : Byte := 0x2A
def rshift : Byte := 0x36

def scancodeAscii : List Byte :=
  [0, 27] ++ ascii "1234567890-=" ++ [0x08, 0x09] ++ ascii "qwertyuiop[]" ++ [0x0A, 0] ++ ascii "asdfghjkl;" ++
    [0x27, 0x60, 0] ++ ascii "\\zxcvbnm,./" ++ [0, 0x2A, 0, 0x20]

def scancodeAsciiShift : List Byte :=
  [0, 27] ++ ascii "!@#$%^&*()_+" ++ [0x08, 0x09] ++ ascii "QWERTYUIOP" ++ [0x7B, 0x7D, 0x0A, 0] ++
    ascii "ASDFGHJKL:" ++
    [0x22, 0x7E, 0] ++ ascii "|ZXCVBNM<>?" ++ [0, 0x2A, 0, 0x20]

structure KeyDriver where
  keyboard : Keyboard
  shift : Bool
  extended : Bool

def translate (shift : Bool) (scancode : Byte) : Byte :=
  (if shift then scancodeAsciiShift else scancodeAscii).getD scancode.toNat 0

def extendedKey (scancode : Byte) : Option Byte :=
  if scancode = 0x48 then some keyUp
  else if scancode = 0x50 then some keyDown
  else if scancode = 0x4B then some keyLeft
  else if scancode = 0x4D then some keyRight
  else none

def keyboardCallback (k : KeyDriver) (scancode : Byte) : KeyDriver :=
  if scancode = 0xE0 then { k with extended := true }
  else if scancode &&& 0x80 ≠ 0 then
    let code := scancode &&& 0x7F
    { k with
      shift := if code = lshift ∨ code = rshift then false else k.shift
      extended := false }
  else if k.extended then
    match extendedKey scancode with
    | some c => { k with keyboard := (enqueue k.keyboard c).1, extended := false }
    | none => { k with extended := false }
  else if scancode = lshift ∨ scancode = rshift then { k with shift := true }
  else
    let c := translate k.shift scancode
    if c ≠ 0 then { k with keyboard := (enqueue k.keyboard c).1 } else k

inductive KeyDriver.Run : List Byte → KeyDriver → Prop
  | start (k : Keyboard) : Run [] ⟨k, false, false⟩
  | code {codes : List Byte} {k : KeyDriver} (c : Byte) : Run codes k → Run (codes ++ [c]) (keyboardCallback k c)
  | read {codes : List Byte} {k : KeyDriver} (b : Keyboard) : Run codes k → Run codes { k with keyboard := b }

/-- Which of the Shift keys are down, and whether the last code was the prefix 0xE0. -/
structure Held where
  left : Bool
  right : Bool
  pre : Bool

def Held.any (h : Held) : Bool := h.left || h.right

def Held.code (h : Held) (c : Byte) : Held where
  left := if h.pre then h.left else if c = 0x2A then true else if c = 0xAA then false else h.left
  right := if h.pre then h.right else if c = 0x36 then true else if c = 0xB6 then false else h.right
  pre := decide (c = 0xE0)

def heldShifts (codes : List Byte) : Held := codes.foldl Held.code ⟨false, false, false⟩

def Ordinary (codes : List Byte) (c : Byte) : Prop :=
  (heldShifts codes).pre = false ∧ c < 0x80 ∧ c ≠ lshift ∧ c ≠ rshift

def ShiftBreak (c : Byte) : Prop := c = 0xAA ∨ c = 0xB6

instance (c : Byte) : Decidable (ShiftBreak c) := inferInstanceAs (Decidable (_ ∨ _))

variable {codes : List Byte} {c : Byte} {k : KeyDriver}

lemma heldShifts_append (codes : List Byte) (c : Byte) : heldShifts (codes ++ [c]) = (heldShifts codes).code c := by
  rw [heldShifts, List.foldl_append]
  rfl

/-! ### The two flags -/

lemma shiftBreak_iff : ∀ c : Byte, ShiftBreak c ↔ c &&& 0x80 ≠ 0 ∧ (c &&& 0x7F = lshift ∨ c &&& 0x7F = rshift) := by
  decide +kernel

lemma lt_of_press : ∀ c : Byte, c &&& 0x80 = 0 ↔ c < 0x80 := by decide +kernel

lemma callback_extended (k : KeyDriver) (c : Byte) : (keyboardCallback k c).extended = decide (c = 0xE0) := by
  rw [keyboardCallback]
  split
  · simp [*]
  · rename_i hpre
    rw [decide_eq_false hpre]
    split
    · rfl
    · split
      · split <;> rfl
      · rename_i hext
        have hext : k.extended = false := by simpa using hext
        split
        · exact hext
        · dsimp only
          split <;> exact hext

lemma callback_shift (k : KeyDriver) (c : Byte) : (keyboardCallback k c).shift =
    if ShiftBreak c then false
    else if k.extended = false ∧ (c = lshift ∨ c = rshift) then true
    else k.shift := by
  rw [keyboardCallback]
  by_cases hpre : c = 0xE0
  · subst hpre
    rw [if_pos rfl, if_neg (by decide), if_neg (fun h => absurd h.2 (by decide))]
  rw [if_neg hpre]
  by_cases hrel : c &&& 0x80 ≠ 0
  · have hmake : ¬ (c = lshift ∨ c = rshift) := by
      rintro (rfl | rfl)
      · exact hrel (by decide)
      · exact hrel (by decide)
    have hiff : ShiftBreak c ↔ c &&& 0x7F = lshift ∨ c &&& 0x7F = rshift := by
      rw [shiftBreak_iff]
      exact and_iff_right hrel
    have hkeep : (if k.extended = false ∧ (c = lshift ∨ c = rshift) then true else k.shift) = k.shift :=
      if_neg fun h => hmake h.2
    rw [if_pos hrel, hkeep]
    exact (if_congr hiff rfl rfl).symm
  · rw [if_neg hrel, if_neg (fun h => hrel ((shiftBreak_iff c).mp h).1)]
    cases hext : k.extended with
    | true =>
      simp only [if_true, Bool.true_eq_false, false_and, if_false]
      split <;> rfl
    | false =>
      simp only [Bool.false_eq_true, if_false, true_and]
      split
      · rfl
      · split <;> rfl

lemma heldShifts_any {h : Held} (hc : ¬ ShiftBreak c) :
    (h.code c).any = if h.pre = false ∧ (c = lshift ∨ c = rshift) then true else h.any := by
  obtain ⟨left, right, pre⟩ := h
  have hl : c ≠ 0xAA := fun heq => hc (.inl heq)
  have hr : c ≠ 0xB6 := fun heq => hc (.inr heq)
  cases pre with
  | true => simp [Held.code, Held.any]
  | false =>
    simp only [Held.code, Held.any, hl, hr, lshift, rshift, if_false, Bool.false_eq_true, true_and]
    by_cases h₁ : c = 0x2A
    · rw [if_pos h₁, if_pos (Or.inl h₁), Bool.true_or]
    by_cases h₂ : c = 0x36
    · rw [if_pos h₂, if_pos (Or.inr h₂), Bool.or_true]
    · rw [if_neg h₁, if_neg h₂, if_neg (not_or.mpr ⟨h₁, h₂⟩)]

lemma KeyDriver.Run.extended (h : k.Run codes) : k.extended = (heldShifts codes).pre := by
  induction h with
  | start b => rfl
  | code c _ _ => rw [callback_extended, heldShifts_append, Held.code]
  | read b _ ih => exact ih

/-! ### Whole sequences -/

lemma KeyDriver.Run.exists_run (b : Keyboard) (codes : List Byte) : ∃ k, KeyDriver.Run codes k := by
  induction codes using List.reverseRecOn with
  | nil => exact ⟨_, .start b⟩
  | append_singleton codes c ih =>
    obtain ⟨k, hk⟩ := ih
    exact ⟨_, hk.code c⟩

def ShiftRight (codes : List Byte) : Prop := ∀ k, KeyDriver.Run codes k → k.shift = (heldShifts codes).any

lemma ShiftRight.code (h : ShiftRight codes) (hc : ShiftBreak c → (heldShifts (codes ++ [c])).any = false) :
    ShiftRight (codes ++ [c]) := by
  intro k hk
  generalize hl : codes ++ [c] = l at hk
  induction hk with
  | start b => simp at hl
  | read b _ ih => exact ih hl
  | @code codes' k d hk _ =>
    obtain ⟨rfl, rfl⟩ : codes = codes' ∧ c = d := by simpa using List.append_inj' hl rfl
    rw [callback_shift]
    by_cases hb : ShiftBreak c
    · rw [if_pos hb, hc hb]
    · rw [if_neg hb, heldShifts_append, heldShifts_any hb, hk.extended, h k hk]

lemma ShiftRight.break (h : ShiftRight (codes ++ [c])) (hc : ShiftBreak c) : (heldShifts (codes ++ [c])).any = false := by
  obtain ⟨k, hk⟩ := KeyDriver.Run.exists_run ⟨fun _ => 0, 0, 0⟩ codes
  rw [← h _ (hk.code c), callback_shift, if_pos hc]

lemma callback_ordinary (hk : k.Run codes) (hc : Ordinary codes c) : (keyboardCallback k c).keyboard =
    if translate k.shift c ≠ 0 then (enqueue k.keyboard (translate k.shift c)).1 else k.keyboard := by
  obtain ⟨hpre, hlt, hl, hr⟩ := hc
  have hE0 : c ≠ 0xE0 := by
    rintro rfl
    exact absurd hlt (by decide)
  rw [keyboardCallback, if_neg hE0, if_neg (not_not.mpr ((lt_of_press c).mpr hlt)), hk.extended, hpre,
    if_neg Bool.false_ne_true, if_neg (not_or.mpr ⟨hl, hr⟩)]
  dsimp only
  split <;> rfl

/-- The driver knows throughout whether a Shift key is down exactly if none is down after any release of a Shift key,
prefixed ones included. Where it knows, it translates the next key by the right table. -/
theorem shift_tracks_iff (codes : List Byte) :
    ((∀ p, p <+: codes → ∀ k, KeyDriver.Run p k → k.shift = (heldShifts p).any) ↔
      ∀ p c, p ++ [c] <+: codes → ShiftBreak c → (heldShifts (p ++ [c])).any = false) ∧
    ((∀ p c, p ++ [c] <+: codes → ShiftBreak c → (heldShifts (p ++ [c])).any = false) →
      ∀ p c, p <+: codes → Ordinary p c → ∀ k, KeyDriver.Run p k → (keyboardCallback k c).keyboard =
        if translate (heldShifts p).any c ≠ 0 then (enqueue k.keyboard (translate (heldShifts p).any c)).1
        else k.keyboard) := by
  have hback : (∀ p c, p ++ [c] <+: codes → ShiftBreak c → (heldShifts (p ++ [c])).any = false) →
      ∀ p, p <+: codes → ShiftRight p := by
    intro hc p
    induction p using List.reverseRecOn with
    | nil =>
      intro _ k hk
      generalize hl : [] = l at hk
      induction hk with
      | start b => rfl
      | read b _ ih => exact ih hl
      | code c _ _ => simp at hl
    | append_singleton p c ih =>
      intro hp
      exact (ih ((List.prefix_append p [c]).trans hp)).code (hc p c hp)
  refine ⟨⟨fun h p c hp => ShiftRight.break (h _ hp), hback⟩, fun hc p c hp ho k hk => ?_⟩
  rw [callback_ordinary hk ho, hback hc p hp k hk]

/-- Both Shift keys go down and the left one up; the left one goes down, then a prefixed release follows. -/
theorem shift_lost :
    (∀ k, KeyDriver.Run [0x2A, 0x36, 0xAA] k → k.shift = false) ∧ (heldShifts [0x2A, 0x36, 0xAA]).any = true ∧
    (∀ k, KeyDriver.Run [0x2A, 0xE0, 0xAA] k → k.shift = false) ∧ (heldShifts [0x2A, 0xE0, 0xAA]).any = true := by
  have hlost : ∀ (p l : List Byte), p ++ [0xAA] = l → ∀ k, KeyDriver.Run l k → k.shift = false := by
    intro p l hl k hk
    induction hk with
    | start b => simp at hl
    | read b _ ih => exact ih hl
    | @code p' k d hk _ =>
      obtain ⟨-, rfl⟩ : p = p' ∧ 0xAA = d := by simpa using List.append_inj' hl rfl
      rw [callback_shift, if_pos (.inl rfl)]
  exact ⟨hlost [0x2A, 0x36] _ rfl, by decide, hlost [0x2A, 0xE0] _ rfl, by decide⟩

end PyroOS
