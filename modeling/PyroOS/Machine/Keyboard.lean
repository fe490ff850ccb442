import PyroOS.Library.RingBuffer
import PyroOS.Memory.Word

/-! The keyboard buffer, between the interrupt that fills it and the reader that empties it. -/

namespace PyroOS

open RingBuffer

structure Keyboard where
  buffer : Word → Byte
  head : Word
  tail : Word

def enqueue (k : Keyboard) (c : Byte) : Keyboard × Bool :=
  let next := (k.head + 1) % 256
  if next ≠ k.tail then ({ k with buffer := Function.update k.buffer k.head c, head := next }, true) else (k, false)

/-- Where `keyboard_getchar` stands: before its test, before the load, before the store of `tail`. -/
inductive Getchar where
  | test
  | load
  | store (c : Byte)

/-- One statement of `keyboard_getchar`, with the value if it returns. -/
def keyboardGetchar (k : Keyboard) : Getchar → Keyboard × Getchar × Option ℤ
  | .test => if k.tail = k.head then (k, .test, some (-1)) else (k, .load, none)
  | .load => (k, .store (k.buffer k.tail), none)
  | .store c => ({ k with tail := (k.tail + 1) % 256 }, .test, some c.toNat)

def Keyboard.buffered (k : Keyboard) : List Byte :=
  (List.range ((k.head.toNat + 256 - k.tail.toNat) % 256)).map fun j => k.buffer
    (BitVec.ofNat 32 ((k.tail.toNat + j) % 256))

structure Typing where
  keyboard : Keyboard
  reader : Getchar
  accepted : List Byte
  returned : List ℤ

namespace Typing

def key (s : Typing) (c : Byte) : Typing :=
  let (k, ok) := enqueue s.keyboard c
  { s with keyboard := k, accepted := if ok then s.accepted ++ [c] else s.accepted }

def read (s : Typing) : Typing :=
  let (k, g, v) := keyboardGetchar s.keyboard s.reader
  { s with
    keyboard := k
    reader := g
    returned := s.returned ++ v.toList.filter (· ≠ -1) }

def keys (s : Typing) (cs : List Byte) : Typing := cs.foldl key s

end Typing

inductive Typing.Run : Typing → Prop
  | start (buffer : Word → Byte) : Run ⟨⟨buffer, 0, 0⟩, .test, [], []⟩
  | key {s : Typing} (c : Byte) : Run s → Run (s.key c)
  | read {s : Typing} : Run s → Run s.read

variable {s : Typing} {k : Keyboard} {c : Byte} {i j r : ℕ}

def place (i : ℕ) : Word := BitVec.ofNat 32 (i % 256)

lemma place_toNat (i : ℕ) : (place i).toNat = i % 256 := by
  rw [place, BitVec.toNat_ofNat]
  omega

lemma place_succ (i : ℕ) : (place i + 1) % 256 = place (i + 1) := by
  apply BitVec.eq_of_toNat_eq
  have h₁ : (1 : Word).toNat = 1 := rfl
  have h₂ : (256 : Word).toNat = 256 := rfl
  rw [BitVec.toNat_umod, BitVec.toNat_add, place_toNat, place_toNat, h₁, h₂]
  omega

lemma place_inj : place i = place j ↔ i % 256 = j % 256 := by
  rw [← BitVec.toNat_inj, place_toNat, place_toNat]

structure Keyboard.Holds (k : Keyboard) (items : List Byte) (r : ℕ) : Prop where
  head : k.head = place items.length
  tail : k.tail = place r
  window : Window 256 (fun i => k.buffer (BitVec.ofNat 32 i)) items r

lemma Keyboard.Holds.full_iff {items : List Byte} (h : k.Holds items r) :
    (k.head + 1) % 256 = k.tail ↔ items.length = r + 255 := by
  rw [h.head, h.tail, place_succ, place_inj, succ_mod_eq_iff h.window.le h.window.lt]
  omega

lemma Keyboard.Holds.empty_iff {items : List Byte} (h : k.Holds items r) : k.tail = k.head ↔ items.length = r := by
  rw [h.head, h.tail, eq_comm, place_inj, mod_eq_iff h.window.le h.window.lt]

lemma Keyboard.Holds.enqueue {items : List Byte} (h : k.Holds items r) (c : Byte) :
    (items.length ≠ r + 255 ∧ (enqueue k c).2 = true ∧ (enqueue k c).1.Holds (items ++ [c]) r) ∨
    (items.length = r + 255 ∧ PyroOS.enqueue k c = (k, false)) := by
  rw [PyroOS.enqueue]
  by_cases hroom : items.length = r + 255
  · exact .inr ⟨hroom, by rw [if_neg (not_not.mpr (h.full_iff.mpr hroom))]⟩
  · rw [if_pos (mt h.full_iff.mp hroom)]
    have hhead : k.head = BitVec.ofNat 32 (items.length % 256) := h.head
    refine .inl ⟨hroom, rfl, ?_, h.tail, h.window.push (by omega) ?_ fun i hi hne => ?_⟩
    · rw [h.head, place_succ]
      simp
    · rw [hhead]
      exact Function.update_self ..
    · refine Function.update_of_ne (fun heq => hne ?_) ..
      have hnat := congrArg BitVec.toNat (heq.trans hhead)
      rw [BitVec.toNat_ofNat, BitVec.toNat_ofNat] at hnat
      omega

lemma Keyboard.Holds.release {items : List Byte} (h : k.Holds items r) (hne : r < items.length) :
    ({ k with tail := (k.tail + 1) % 256 } : Keyboard).Holds items (r + 1) :=
  ⟨h.head, by rw [h.tail]; exact place_succ r, h.window.pop hne⟩

lemma Keyboard.Holds.first {items : List Byte} (h : k.Holds items r) (hne : r < items.length) :
    k.buffer k.tail = items[r] := by
  rw [h.tail]
  exact h.window.get r le_rfl hne

lemma Keyboard.Holds.buffered {items : List Byte} (h : k.Holds items r) : k.buffered = items.drop r := by
  have hle := h.window.le
  have hlt := h.window.lt
  have hcount : (k.head.toNat + 256 - k.tail.toNat) % 256 = items.length - r := by
    rw [h.head, h.tail, place_toNat, place_toNat]
    omega
  rw [Keyboard.buffered, hcount, ← h.window.contents]
  refine List.map_congr_left fun j hj => ?_
  rw [h.tail, place_toNat, Nat.mod_add_mod]

def Getchar.Reads (items : List Byte) (r : ℕ) : Getchar → Prop
  | .test => True
  | .load => r < items.length
  | .store c => items[r]? = some c

structure Typing.Fifo (s : Typing) : Prop where
  holds : s.keyboard.Holds s.accepted s.returned.length
  reader : s.reader.Reads s.accepted s.returned.length
  returned : s.returned = (s.accepted.take s.returned.length).map fun c => (c.toNat : ℤ)

lemma Typing.Fifo.key (h : s.Fifo) (c : Byte) : (s.key c).Fifo := by
  rcases h.holds.enqueue c with ⟨-, hok, hk⟩ | ⟨-, hk⟩
  · have hle := h.holds.window.le
    simp only [Typing.key, hok, if_true]
    refine ⟨hk, ?_, ?_⟩
    · have hr := h.reader
      cases hg : s.reader with rw [hg] at hr
      | test => trivial
      | load => exact lt_of_lt_of_le hr (by simp)
      | store c' =>
        have hlt : s.returned.length < s.accepted.length := (List.getElem?_eq_some_iff.mp hr).1
        exact (List.getElem?_append_left hlt).trans hr
    · rw [List.take_append_of_le_length hle]
      exact h.returned
  · simp only [Typing.key, hk, Bool.false_eq_true, if_false]
    exact h

lemma Typing.read_empty (hg : s.reader = .test) (hempty : s.keyboard.tail = s.keyboard.head) :
    s.read = { s with reader := .test } := by
  simp [Typing.read, keyboardGetchar, hg, hempty]

lemma Typing.read_found (hg : s.reader = .test) (hne : s.keyboard.tail ≠ s.keyboard.head) :
    s.read = { s with reader := .load } := by
  simp [Typing.read, keyboardGetchar, hg, hne]

lemma Typing.read_load (hg : s.reader = .load) :
    s.read = { s with reader := .store (s.keyboard.buffer s.keyboard.tail) } := by
  simp [Typing.read, keyboardGetchar, hg]

lemma Typing.read_store (hg : s.reader = .store c) :
    s.read = ⟨{ s.keyboard with tail := (s.keyboard.tail + 1) % 256 }, .test, s.accepted,
      s.returned ++ [(c.toNat : ℤ)]⟩ := by
  have hc : (c.toNat : ℤ) ≠ -1 := by omega
  simp [Typing.read, keyboardGetchar, hg, hc]

lemma Typing.Fifo.read (h : s.Fifo) : s.read.Fifo := by
  have hr := h.reader
  have hle := h.holds.window.le
  cases hg : s.reader with rw [hg] at hr
  | test =>
    by_cases hempty : s.keyboard.tail = s.keyboard.head
    · rw [Typing.read_empty hg hempty]
      exact ⟨h.holds, trivial, h.returned⟩
    · rw [Typing.read_found hg hempty]
      exact ⟨h.holds, lt_of_le_of_ne hle (Ne.symm (mt h.holds.empty_iff.mpr hempty)), h.returned⟩
  | load =>
    rw [Typing.read_load hg]
    refine ⟨h.holds, ?_, h.returned⟩
    rw [h.holds.first hr]
    exact List.getElem?_eq_getElem hr
  | store c =>
    have hlt : s.returned.length < s.accepted.length := (List.getElem?_eq_some_iff.mp hr).1
    rw [Typing.read_store hg]
    have hlen : (s.returned ++ [(c.toNat : ℤ)]).length = s.returned.length + 1 := by simp
    refine ⟨hlen ▸ h.holds.release hlt, trivial, ?_⟩
    dsimp only
    rw [hlen, List.take_add_one, List.map_append, ← h.returned, hr]
    rfl

lemma Typing.Run.fifo (h : s.Run) : s.Fifo := by
  induction h with
  | start buffer => exact ⟨⟨rfl, rfl, ⟨le_rfl, Nat.succ_pos 255, fun i _ hi => (by cases hi)⟩⟩, trivial, rfl⟩
  | key c _ ih => exact ih.key c
  | read _ ih => exact ih.read

lemma Typing.key_prefix (s : Typing) (c : Byte) : s.accepted <+: (s.key c).accepted := by
  simp only [Typing.key]
  split
  · exact List.prefix_append _ _
  · exact List.prefix_rfl

lemma Typing.keys_spec (s : Typing) (cs : List Byte) :
    (s.keys cs).reader = s.reader ∧ (s.keys cs).returned = s.returned ∧ s.accepted <+: (s.keys cs).accepted := by
  induction cs generalizing s with
  | nil => exact ⟨rfl, rfl, List.prefix_rfl⟩
  | cons c cs ih =>
    obtain ⟨h₁, h₂, h₃⟩ := ih (s.key c)
    exact ⟨h₁, h₂, (s.key_prefix c).trans h₃⟩

lemma Typing.Run.keys (h : s.Run) (cs : List Byte) : (s.keys cs).Run := by
  induction cs generalizing s with
  | nil => exact h
  | cons c cs ih => exact ih (h.key c)

lemma Typing.Run.returns (h : s.Run) (hg : s.reader = .test) (hne : s.keyboard.tail ≠ s.keyboard.head)
    (cs cs' : List Byte) :
    ∃ c, s.accepted[s.returned.length]? = some c ∧ ((s.read.keys cs).read.keys cs').read.reader = .test ∧
      ((s.read.keys cs).read.keys cs').read.returned = s.returned ++ [(c.toNat : ℤ)] := by
  have hlt : s.returned.length < s.accepted.length :=
    lt_of_le_of_ne h.fifo.holds.window.le (Ne.symm (mt h.fifo.holds.empty_iff.mpr hne))
  have hfound := Typing.read_found hg hne
  obtain ⟨hg₁, hret₁, hacc₁⟩ := s.read.keys_spec cs
  have hload := Typing.read_load (hg₁.trans (by rw [hfound]))
  obtain ⟨hg₂, hret₂, hacc₂⟩ := (s.read.keys cs).read.keys_spec cs'
  have hstore := hg₂.trans (congrArg Typing.reader hload)
  have hret : ((s.read.keys cs).read.keys cs').returned = s.returned := by
    rw [hret₂, congrArg Typing.returned hload, hret₁, hfound]
  have hacc : s.accepted <+: ((s.read.keys cs).read.keys cs').accepted := by
    rw [congrArg Typing.accepted hfound] at hacc₁
    rw [congrArg Typing.accepted hload] at hacc₂
    exact hacc₁.trans hacc₂
  -- the reader holds the character with the number of those returned, which was there before
  have hreads := ((h.read.keys cs).read.keys cs').fifo.reader
  rw [hstore, Getchar.Reads, hret, List.prefix_iff_getElem?.mp hacc _ hlt, ← List.getElem?_eq_getElem hlt] at hreads
  exact ⟨_, hreads, by rw [Typing.read_store hstore], by rw [Typing.read_store hstore, hret]⟩

/-- What was accepted is what was returned, followed by what the buffer holds; a character is rejected exactly if 255
accepted ones have not been released, a reader gets -1 exactly if all have been returned at its test, and otherwise it
gets the first of the others. -/
theorem keyboard_fifo (h : s.Run) :
    (s.accepted.map fun c => (c.toNat : ℤ)) = s.returned ++ s.keyboard.buffered.map (fun c => (c.toNat : ℤ)) ∧
    (∀ c, (enqueue s.keyboard c).2 = false ↔ s.accepted.length = s.returned.length + 255) ∧
    s.keyboard.head.toNat < 256 ∧ s.keyboard.tail.toNat < 256 ∧
    (s.reader = .test → ((keyboardGetchar s.keyboard s.reader).2.2 = some (-1) ↔
      s.returned = s.accepted.map fun c => (c.toNat : ℤ))) ∧
    (s.reader ≠ .test → (keyboardGetchar s.keyboard s.reader).2.2 ≠ some (-1)) ∧
    (s.reader = .test → s.keyboard.tail ≠ s.keyboard.head → ∀ cs cs', ∃ c, s.accepted[s.returned.length]? = some c ∧
      ((s.read.keys cs).read.keys cs').read.reader = .test ∧
      ((s.read.keys cs).read.keys cs').read.returned = s.returned ++ [(c.toNat : ℤ)]) := by
  obtain ⟨hholds, -, hreturned⟩ := h.fifo
  have hsplit : (s.accepted.map fun c => (c.toNat : ℤ)) = s.returned ++
    s.keyboard.buffered.map (fun c => (c.toNat : ℤ)) := by
    rw [hholds.buffered, hreturned, List.length_map, List.length_take, min_eq_left hholds.window.le, ← List.map_append,
      List.take_append_drop]
  refine ⟨hsplit, fun c => ?_, ?_, ?_, fun htest => ?_, fun hne => ?_, h.returns⟩
  · rcases hholds.enqueue c with ⟨hroom, hok, -⟩ | ⟨hroom, hk⟩
    · simp [hok, hroom]
    · simp [hk, hroom]
  · rw [hholds.head, place_toNat]
    exact Nat.mod_lt _ (by decide)
  · rw [hholds.tail, place_toNat]
    exact Nat.mod_lt _ (by decide)
  · have hlen : s.returned = (s.accepted.map fun c => (c.toNat : ℤ)) ↔ s.accepted.length = s.returned.length := by
      refine ⟨fun heq => by rw [heq, List.length_map], fun heq => ?_⟩
      rw [hreturned, ← heq, List.take_length]
    rw [htest, hlen, ← hholds.empty_iff, keyboardGetchar]
    split <;> simp [*]
  · cases hg : s.reader with
    | test => exact absurd hg hne
    | load => simp [keyboardGetchar]
    | store c =>
      simp only [keyboardGetchar, ne_eq, Option.some.injEq]
      omega

def sampleTyping : Typing := .key (.key ⟨⟨fun _ => 0, 0, 0⟩, .test, [], []⟩ 0x6c) 0x73

-- two keys, and a reader that is interrupted by a third one before it stores the new tail
theorem keyboard_fifo_sample :
    (sampleTyping.accepted.map fun c => (c.toNat : ℤ)) =
      sampleTyping.returned ++ sampleTyping.keyboard.buffered.map (fun c => (c.toNat : ℤ)) ∧
    ((sampleTyping.read.keys []).read.keys [0x0a]).read.returned = [0x6c] := by
  have hrun : sampleTyping.Run := .key _ (.key _ (.start _))
  obtain ⟨hsplit, -, -, -, -, -, hreturns⟩ := keyboard_fifo hrun
  obtain ⟨c, hc, -, hret⟩ := hreturns rfl (by decide) [] [0x0a]
  obtain rfl : c = 0x6c := by simpa [sampleTyping, Typing.key, enqueue] using hc.symm
  exact ⟨hsplit, hret⟩

end PyroOS
