import PyroOS.Machine.Ata

/-! Every trace of the driver's two calls, and what they have in common. -/

namespace PyroOS.Ata

open Interaction

section rules

variable {α : Type} {tr : List Access}

structure Block where
  polls : List Byte
  words : List Word16

namespace Block

def Full (b : Block) : Prop :=
  b.words.length = 256 ∧ b.polls.length ≤ timeout ∧ ∃ pre s, b.polls = pre ++ [s] ∧ Ready s

def trace (access : Word16 → Access) (b : Block) : List Access := statuses b.polls ++ b.words.map access

def allWords (bs : List Block) : List Word16 := bs.flatMap words

lemma polled_length {access : Word16 → Access} (ha : ∀ w, status? (access w) = none) {bs : List Block}
    (h : ∀ b ∈ bs, b.Full) : (polled (bs.flatMap (trace access))).length ≤ bs.length * timeout := by
  induction bs with
  | nil => exact Nat.zero_le _
  | cons b bs ih =>
    obtain ⟨hb, hbs⟩ := List.forall_mem_cons.mp h
    have hwords : polled (b.words.map access) = [] := by simp [polled, ha]
    have hrest := ih hbs
    have hpolls := hb.2.1
    rw [List.flatMap_cons, polled_append, trace, polled_append, polled_statuses, hwords, List.append_nil,
      List.length_append, List.length_cons, Nat.succ_mul]
    omega

lemma sectorRuns {access : Word16 → Access} (ha : ∀ w, IsData (access w)) {bs : List Block}
    (h : ∀ b ∈ bs, b.Full) : SectorRuns (bs.flatMap (trace access)) := by
  refine ⟨bs.map fun b => (statuses b.polls, b.words.map access), [], ?_, by simp, ?_⟩
  · rw [List.flatMap_map, List.append_nil]
    rfl
  · intro g hg
    obtain ⟨b, hb, rfl⟩ := List.mem_map.mp hg
    obtain ⟨hlen, -, pre, s, hpre, hs⟩ := h b hb
    refine ⟨not_isData_statuses _, ?_, by simpa using hlen, statuses pre, s, by simp [hpre, statuses], hs⟩
    intro a ha'
    obtain ⟨w, -, rfl⟩ := List.mem_map.mp ha'
    exact ha w

end Block

lemma yields_select (lba : Word) (sectors : Byte) (tr : List Access) :
    Yields (fun r t => ∃ ss, ss.length ≤ timeout + 1 ∧ (r = -1 ∧ t = tr ++ statuses ss ∨
      r = 0 ∧ (∃ pre s, ss = pre ++ [s] ∧ ¬ Busy s) ∧ t = tr ++ statuses ss ++
        [.out .drive (ataSelect lba).1, .out .seccnt sectors, .out .lbaLo (ataSelect lba).2.1,
          .out .lbaMid (ataSelect lba).2.2.1, .out .lbaHi (ataSelect lba).2.2.2]))
      (select lba sectors) tr := by
  refine Prog.Meets.bind ((yields_poll selectJudge (timeout + 1) tr).mono ?_)
  rintro r t - ⟨ss, rfl, hp⟩
  rcases hp.select with ⟨rfl, hs⟩ | rfl
  · refine Prog.Meets.bind (yields_ask (.outb .drive _) fun _ => ?_)
    refine Prog.Meets.bind (yields_ask (.outb .seccnt _) fun _ => ?_)
    refine Prog.Meets.bind (yields_ask (.outb .lbaLo _) fun _ => ?_)
    refine Prog.Meets.bind (yields_ask (.outb .lbaMid _) fun _ => ?_)
    refine Prog.Meets.bind (yields_ask (.outb .lbaHi _) fun _ => ?_)
    exact yields_pure ⟨ss, hp.1, .inr ⟨rfl, hs, by simp [record]⟩⟩
  · exact yields_pure ⟨ss, hp.1, .inl ⟨rfl, rfl⟩⟩

def Moved (access : Word16 → Access) (sectors : ℕ) (tr : List Access) (r : ℤ) (t : List Access)
    (bs : List Block) : Prop :=
  (∀ b ∈ bs, b.Full) ∧ ∃ last : List Byte, last.length ≤ timeout ∧
    t = tr ++ bs.flatMap (Block.trace access) ++ statuses last ∧
      (r = 0 ∧ bs.length = sectors ∧ last = [] ∨ r = -1 ∧ bs.length < sectors)

lemma yields_eachSector {τ : Type} {move : ℕ → τ → Driver τ} (access : Word16 → Access)
    (rel : ℕ → τ → List Word16 → Prop) (sectors : ℕ) {x : τ} (hx : rel 0 x [])
    (hmove : ∀ s y ws t, rel s y ws → Yields (fun z u => ∃ new : List Word16, new.length = 256 ∧
      u = t ++ new.map access ∧ rel (s + 1) z (ws ++ new)) (move s y) t) (tr : List Access) :
    Yields (fun r t => ∃ bs, Moved access sectors tr r.1 t bs ∧ rel bs.length r.2 (Block.allWords bs))
      (eachSector move sectors x) tr := by
  refine Prog.meets_iterate (fun n y t => ∃ bs : List Block, (∀ b ∈ bs, b.Full) ∧ y.1 = bs.length ∧
    bs.length + n = sectors ∧ t = tr ++ bs.flatMap (Block.trace access) ∧
      rel y.1 y.2 (Block.allWords bs)) ?_ ?_ sectors (0, x) tr ⟨[], by simp, rfl, by simp, by simp, hx⟩
  · rintro n ⟨s, y⟩ t ⟨bs, hfull, rfl, hlen, rfl, hrel⟩
    refine Prog.Meets.bind ((yields_poll waitJudge timeout _).mono ?_)
    rintro r t - ⟨ss, rfl, hp⟩
    rcases hp.wait with ⟨rfl, hready⟩ | rfl
    · refine Prog.Meets.bind ((hmove bs.length y (Block.allWords bs) _ hrel).mono ?_)
      rintro z u - ⟨new, hnew, rfl, hz⟩
      refine yields_pure ⟨bs ++ [⟨ss, new⟩], ?_, by simp, by simp; omega, ?_, ?_⟩
      · intro b hb
        rcases List.mem_append.mp hb with hb | hb
        · exact hfull b hb
        · rw [List.mem_singleton.mp hb]
          exact ⟨hnew, hp.1, hready⟩
      · simp [Block.trace]
      · simpa [Block.allWords] using hz
    · exact yields_pure ⟨bs, ⟨hfull, ss, hp.1, rfl, .inr ⟨rfl, by omega⟩⟩, hrel⟩
  · rintro ⟨s, y⟩ t ⟨bs, hfull, rfl, hlen, rfl, hrel⟩
    exact yields_pure ⟨bs, ⟨hfull, [], by simp, by simp [statuses], .inl ⟨rfl, by omega, rfl⟩⟩, hrel⟩

lemma getD_snoc {buf z : ℕ → Word16} {ws : List Word16} (hz : ∀ j, z j = ws.getD j (buf j)) (w : Word16) (j : ℕ) :
    Function.update z ws.length w j = (ws ++ [w]).getD j (buf j) := by
  rcases Nat.lt_trichotomy j ws.length with hj | rfl | hj
  · rw [Function.update_of_ne hj.ne, hz j, List.getD_append _ _ _ _ hj]
  · rw [Function.update_self]
    simp [List.getD_eq_getElem?_getD]
  · rw [Function.update_of_ne hj.ne', hz j, List.getD_eq_default _ _ hj.le, List.getD_eq_default]
    simpa using hj

lemma yields_readSector (buf : ℕ → Word16) (s : ℕ) (y : ℕ → Word16) (ws : List Word16) (tr : List Access)
    (hlen : ws.length = 256 * s) (hy : ∀ j, y j = ws.getD j (buf j)) :
    Yields (fun z t => ∃ new : List Word16, new.length = 256 ∧ t = tr ++ new.map .dataIn ∧
      (ws ++ new).length = 256 * (s + 1) ∧ ∀ j, z j = (ws ++ new).getD j (buf j)) (readSector s y) tr := by
  refine Prog.meets_iterate (fun n x t => ∃ new : List Word16, x.1 = new.length ∧ new.length + n = 256 ∧
    t = tr ++ new.map .dataIn ∧ ∀ j, x.2 j = (ws ++ new).getD j (buf j)) ?_ ?_ 256 (0, y) tr
    ⟨[], rfl, rfl, by simp, by simpa using hy⟩
  · rintro n ⟨i, z⟩ t ⟨new, rfl, hn, rfl, hz⟩
    refine Prog.Meets.bind (yields_ask .inw fun w => yields_pure ⟨new ++ [w], by simp, by simp; omega, ?_, ?_⟩)
    · simp [record]
    · rw [show 256 * s + new.length = (ws ++ new).length by rw [List.length_append, hlen], ← List.append_assoc]
      exact getD_snoc hz w
  · rintro ⟨i, z⟩ t ⟨new, rfl, hn, rfl, hz⟩
    exact yields_pure ⟨new, by omega, rfl, by rw [List.length_append]; omega, hz⟩

lemma yields_writeSector (buf : ℕ → Word16) (s : ℕ) (tr : List Access) :
    Yields (fun _ t => ∃ new : List Word16, new.length = 256 ∧ t = tr ++ new.map .dataOut ∧
      (List.range (256 * s)).map buf ++ new = (List.range (256 * (s + 1))).map buf) (writeSector buf s) tr := by
  refine Prog.meets_iterate (fun n i t => i + n = 256 ∧
    t = tr ++ ((List.range i).map fun j => buf (256 * s + j)).map .dataOut) ?_ ?_ 256 0 tr ⟨rfl, by simp⟩
  · rintro n i t ⟨hn, rfl⟩
    refine Prog.Meets.bind (yields_ask (.outw _) fun _ => yields_pure ⟨by omega, ?_⟩)
    simp [record, List.range_succ]
  · rintro i t ⟨hn, rfl⟩
    obtain rfl : i = 256 := hn
    refine yields_pure ⟨_, by simp, rfl, ?_⟩
    rw [Nat.mul_succ, List.range_add, List.map_append, List.map_map]
    rfl

def command (lba : Word) (sectors code : Byte) : List (Register × Byte) :=
  [(.drive, (ataSelect lba).1), (.seccnt, sectors), (.lbaLo, (ataSelect lba).2.1),
    (.lbaMid, (ataSelect lba).2.2.1), (.lbaHi, (ataSelect lba).2.2.2), (.cmd, code)]

def commandTrace (ss : List Byte) (lba : Word) (sectors code : Byte) : List Access :=
  statuses ss ++ (command lba sectors code).map fun o => .out o.1 o.2

lemma yields_command {lba : Word} {sectors code : Byte} {p : Driver α} {refused : α}
    {post : α → List Access → Prop}
    (hpost : ∀ ss : List Byte, ss.length ≤ timeout + 1 → post refused (statuses ss))
    (hp : ∀ pre s, (pre ++ [s]).length ≤ timeout + 1 → ¬ Busy s →
      Yields post p (commandTrace (pre ++ [s]) lba sectors code)) :
    Yields post (do
      let r ← select lba sectors
      if r ≠ 0 then pure refused else do
        outb .cmd code
        p) [] := by
  refine Prog.Meets.bind ((yields_select lba sectors []).mono ?_)
  rintro r t - ⟨ss, hlen, ⟨rfl, rfl⟩ | ⟨rfl, ⟨pre, s, rfl, hs⟩, rfl⟩⟩
  · exact yields_pure (hpost ss hlen)
  · refine Prog.Meets.bind (yields_ask (.outb .cmd code) fun _ => ?_)
    have htr : [] ++ statuses (pre ++ [s]) ++ [Access.out .drive (ataSelect lba).1, .out .seccnt sectors,
        .out .lbaLo (ataSelect lba).2.1, .out .lbaMid (ataSelect lba).2.2.1, .out .lbaHi (ataSelect lba).2.2.2] ++
          [record (.outb .cmd code) ()] = commandTrace (pre ++ [s]) lba sectors code := by
      simp [commandTrace, command, record]
    rw [htr]
    exact hp pre s hlen hs

lemma IsData.ne {a : Access} (h : IsData a) : status? a = none ∧ ∀ reg v, a ≠ .out reg v := by
  cases a <;> simp [IsData, in?, out?, status?] at h ⊢

section moved

variable {access : Word16 → Access} {pre ss : List Byte} {s code sectors : Byte} {lba : Word} {n : ℕ} {r : ℤ}
  {t : List Access} {bs : List Block}

lemma Moved.length_le (h : Moved access n tr r t bs) : bs.length ≤ n := by
  obtain ⟨-, last, -, -, ⟨-, h, -⟩ | ⟨-, h⟩⟩ := h <;> omega

lemma Moved.result (h : Moved access n tr r t bs) : (r = 0 ∨ r = -1) ∧ (r = 0 ↔ bs.length = n) := by
  obtain ⟨-, last, -, -, ⟨rfl, h, -⟩ | ⟨rfl, h⟩⟩ := h
  · exact ⟨.inl rfl, by simp [h]⟩
  · exact ⟨.inr rfl, by simp; omega⟩

lemma idleCommands_commandTrace (hs : ¬ Busy s) : IdleCommands (commandTrace (pre ++ [s]) lba sectors code) :=
  (idleCommands_of_none (by simp [statuses])).outs _ (by simp [polled_statuses]) hs

lemma Moved.idleCommands (ha : ∀ w, IsData (access w)) (hs : ¬ Busy s)
    (h : Moved access n (commandTrace (pre ++ [s]) lba sectors code) r t bs) : IdleCommands t := by
  obtain ⟨-, last, -, rfl, -⟩ := h
  refine ((idleCommands_commandTrace hs).append (idleCommands_of_none ?_)).append (idleCommands_of_none ?_)
  · intro reg v hm
    obtain ⟨b, -, hm⟩ := List.mem_flatMap.mp hm
    rcases List.mem_append.mp hm with hm | hm
    · simp [statuses] at hm
    · obtain ⟨w, -, he⟩ := List.mem_map.mp hm
      exact (ha w).ne.2 reg v he
  · simp [statuses]

lemma Moved.sectorRuns (ha : ∀ w, IsData (access w))
    (h : Moved access n (commandTrace ss lba sectors code) r t bs) : SectorRuns t := by
  obtain ⟨hfull, last, -, rfl, -⟩ := h
  refine SectorRuns.append_quiet ?_ (not_isData_statuses last)
  refine (Block.sectorRuns ha hfull).quiet_append ?_
  intro a hm
  rcases List.mem_append.mp hm with hm | hm
  · exact not_isData_statuses ss a hm
  · exact not_isData_outs _ a hm

lemma polled_commandTrace : polled (commandTrace ss lba sectors code) = ss := by
  rw [commandTrace, polled_append, polled_statuses]
  simp [polled, command, status?]

lemma Moved.polled_length (ha : ∀ w, IsData (access w))
    (h : Moved access n (commandTrace ss lba sectors code) r t bs) :
    (polled t).length ≤ ss.length + n * timeout := by
  obtain ⟨hfull, last, hlast, rfl, hr⟩ := h
  have hbs := Block.polled_length (fun w => (ha w).ne.1) hfull
  rw [polled_append, polled_append, polled_statuses, polled_commandTrace, List.length_append, List.length_append]
  rcases hr with ⟨-, rfl, rfl⟩ | ⟨-, hlt⟩
  · simpa using hbs
  · have hstep : bs.length * timeout + timeout ≤ n * timeout := by
      rw [← Nat.succ_mul]
      exact Nat.mul_le_mul_right _ hlt
    omega

lemma Moved.filterMap {f : Access → Option Word16} (hstatus : ∀ s, f (.status s) = none)
    (hout : ∀ reg v, f (.out reg v) = none) (h : Moved access n (commandTrace ss lba sectors code) r t bs) :
    t.filterMap f = (Block.allWords bs).filterMap fun w => f (access w) := by
  obtain ⟨-, last, -, rfl, -⟩ := h
  have hst : ∀ ss : List Byte, (statuses ss).filterMap f = [] := by simp [statuses, hstatus]
  have hbs : (bs.flatMap (Block.trace access)).filterMap f =
      (Block.allWords bs).filterMap fun w => f (access w) := by
    induction bs with
    | nil => rfl
    | cons b bs ih =>
      rw [List.flatMap_cons, List.filterMap_append, ih, Block.trace, List.filterMap_append, hst, List.nil_append,
        List.filterMap_map, Block.allWords, Block.allWords, List.flatMap_cons, List.filterMap_append]
      rfl
  rw [List.filterMap_append, List.filterMap_append, hst, hbs, commandTrace, List.filterMap_append, hst]
  simp [command, hout]

end moved

lemma yields_read (lba : Word) (sectors : Byte) (buf : ℕ → Word16) :
    Yields (fun r t =>
      (∃ ss : List Byte, ss.length ≤ timeout + 1 ∧ r = (-1, buf) ∧ t = statuses ss) ∨
      ∃ pre s bs, (pre ++ [s]).length ≤ timeout + 1 ∧ ¬ Busy s ∧
        Moved .dataIn sectors.toNat (commandTrace (pre ++ [s]) lba sectors 0x20) r.1 t bs ∧
          (Block.allWords bs).length = 256 * bs.length ∧ ∀ j, r.2 j = (Block.allWords bs).getD j (buf j))
      (read lba sectors buf) [] := by
  refine yields_command (fun ss hss => .inl ⟨ss, hss, rfl, rfl⟩) fun pre s hlen hs => ?_
  refine (yields_eachSector .dataIn (fun k y ws => ws.length = 256 * k ∧ ∀ j, y j = ws.getD j (buf j))
    sectors.toNat ⟨rfl, by simp⟩ (fun k y ws u hrel => yields_readSector buf k y ws u hrel.1 hrel.2) _).mono ?_
  rintro r t - ⟨bs, hm, hwords⟩
  exact .inr ⟨pre, s, bs, hlen, hs, hm, hwords⟩

lemma yields_write (lba : Word) (sectors : Byte) (buf : ℕ → Word16) :
    Yields (fun r t =>
      (∃ ss : List Byte, ss.length ≤ timeout + 1 ∧ r = -1 ∧ t = statuses ss) ∨
      ∃ pre s bs r' u, (pre ++ [s]).length ≤ timeout + 1 ∧ ¬ Busy s ∧
        Moved .dataOut sectors.toNat (commandTrace (pre ++ [s]) lba sectors 0x30) r' u bs ∧
          Block.allWords bs = (List.range (256 * bs.length)).map buf ∧
          (r' = -1 ∧ r = -1 ∧ t = u ∨ r' = 0 ∧ ∃ commit : List Byte, commit.length ≤ timeout ∧
            (¬ IdleSeen commit ∧ r = -1 ∧ t = u ++ statuses commit ∨ IdleSeen commit ∧
              ∃ flush : List Byte, flush.length ≤ timeout ∧ (r = 0 ∧ IdleSeen flush ∨ r = -1 ∧ ¬ IdleSeen flush) ∧
                t = (u ++ statuses commit) ++ .out .cmd 0xE7 :: statuses flush)))
      (write lba sectors buf) [] := by
  refine yields_command (fun ss hss => .inl ⟨ss, hss, rfl, rfl⟩) fun pre s hlen hs => ?_
  refine Prog.Meets.bind ((yields_eachSector .dataOut (fun k _ ws => ws = (List.range (256 * k)).map buf)
    sectors.toNat rfl ?_ _).mono ?_)
  · rintro k - ws u rfl
    exact (yields_writeSector buf k u).mono fun _ _ _ h => h
  · rintro ⟨r', ⟨⟩⟩ u - ⟨bs, hm, hwords⟩
    rcases hm.result.1 with rfl | rfl
    · refine Prog.Meets.bind ((yields_poll idleJudge timeout u).mono ?_)
      rintro r t - ⟨commit, rfl, hcommit⟩
      rcases hcommit.idle with ⟨rfl, hidle⟩ | ⟨rfl, hidle⟩
      · refine Prog.Meets.bind (yields_ask (.outb .cmd 0xE7) fun _ => ?_)
        refine (yields_poll idleJudge timeout _).mono ?_
        rintro r t - ⟨flush, rfl, hflush⟩
        exact .inr ⟨pre, s, bs, 0, u, hlen, hs, hm, hwords, .inr ⟨rfl, commit, hcommit.1, .inr ⟨hidle, flush,
          hflush.1, hflush.idle, by simp [record]⟩⟩⟩
      · exact yields_pure (.inr ⟨pre, s, bs, 0, u, hlen, hs, hm, hwords, .inr ⟨rfl, commit, hcommit.1,
          .inl ⟨hidle, rfl, rfl⟩⟩⟩)
    · exact yields_pure (.inr ⟨pre, s, bs, -1, u, hlen, hs, hm, hwords, .inl ⟨rfl, rfl, rfl⟩⟩)

end rules

/-! ### The protocol -/

def ReadDone (sectors : Byte) (tr : List Access) : Prop :=
  Access.out .cmd 0x20 ∈ tr ∧ (received tr).length = 256 * sectors.toNat

def WriteDone (sectors : Byte) (tr : List Access) : Prop :=
  ∃ front commit flush, tr = (front ++ statuses commit) ++ .out .cmd 0xE7 :: statuses flush ∧
    (sent front).length = 256 * sectors.toNat ∧ IdleSeen commit ∧ IdleSeen flush

section protocol

variable {lba : Word} {sectors : Byte} {buf buf' : ℕ → Word16} {rc : ℤ} {tr : List Access}

lemma out_notMem_statuses (ss : List Byte) (reg : Register) (v : Byte) : Access.out reg v ∉ statuses ss := by
  simp [statuses]

lemma quiet_statuses (ss : List Byte) : IdleCommands (statuses ss) ∧ SectorRuns (statuses ss) :=
  ⟨idleCommands_of_none fun reg v => out_notMem_statuses ss reg v, [], statuses ss, rfl, not_isData_statuses ss,
    by simp⟩

lemma isData_in (w : Word16) : IsData (.dataIn w) := .inl rfl
lemma isData_out (w : Word16) : IsData (.dataOut w) := .inr rfl

lemma read_protocol (h : (read lba sectors buf).Reaches Recorded [] (pure (rc, buf')) tr) :
    IdleCommands tr ∧ SectorRuns tr ∧
      (∃ n ≤ sectors.toNat, (received tr).length = 256 * n ∧ sent tr = [] ∧
        ∀ j, buf' j = (received tr).getD j (buf j)) ∧
      (rc = 0 ∨ rc = -1) ∧ (rc = 0 ↔ ReadDone sectors tr) ∧
      (polled tr).length ≤ timeout + 1 + sectors.toNat * timeout := by
  obtain ⟨ss, hlen, he, rfl⟩ | ⟨pre, s, bs, hlen, hs, hm, hwords, hbuf⟩ := (yields_read lba sectors buf).result h
  · obtain ⟨rfl, rfl⟩ := Prod.mk.inj he
    refine ⟨(quiet_statuses ss).1, (quiet_statuses ss).2, ⟨0, Nat.zero_le _, ?_⟩, .inr rfl, ?_, ?_⟩
    · simp [received_statuses, sent_statuses]
    · exact ⟨nofun, fun hd => (out_notMem_statuses ss _ _ hd.1).elim⟩
    · rw [polled_statuses]
      omega
  · have hin : received tr = Block.allWords bs := by
      rw [received, hm.filterMap (fun _ => rfl) fun _ _ => rfl]
      exact List.filterMap_some
    have hout : sent tr = [] := by
      rw [sent, hm.filterMap (fun _ => rfl) fun _ _ => rfl]
      simp [out?]
    refine ⟨hm.idleCommands isData_in hs, hm.sectorRuns isData_in, ⟨bs.length, hm.length_le, ?_, hout, ?_⟩,
      hm.result.1, hm.result.2.trans ?_, (hm.polled_length isData_in).trans (by omega)⟩
    · rw [hin, hwords]
    · rw [hin]
      exact hbuf
    · have hcmd : Access.out .cmd 0x20 ∈ tr := by
        obtain ⟨-, last, -, rfl, -⟩ := hm
        simp [commandTrace, command]
      rw [ReadDone, hin, hwords]
      exact ⟨fun hn => ⟨hcmd, by rw [hn]⟩, fun hd => by have := hd.2; omega⟩

lemma flush_notMem {pre : List Byte} {n : ℕ} {r : ℤ} {bs : List Block}
    (h : Moved .dataOut n (commandTrace pre lba sectors 0x30) r tr bs) (ss : List Byte) :
    Access.out .cmd 0xE7 ∉ tr ++ statuses ss := by
  obtain ⟨-, last, -, rfl, -⟩ := h
  simp [commandTrace, command, Block.trace, out_notMem_statuses]

lemma writeDone_sent (h : WriteDone sectors tr) : (sent tr).length = 256 * sectors.toNat := by
  obtain ⟨front, commit, flush, rfl, hlen, -, -⟩ := h
  have hflush : sent (.out .cmd 0xE7 :: statuses flush) = [] := by
    rw [← List.singleton_append, sent_append, sent_statuses]
    rfl
  rw [sent_append, sent_append, sent_statuses, hflush, List.append_nil, List.append_nil, hlen]

lemma writeDone_mem (h : WriteDone sectors tr) : Access.out .cmd 0xE7 ∈ tr := by
  obtain ⟨front, commit, flush, rfl, -⟩ := h
  simp

lemma WriteDone.flush {front : List Access} {flush : List Byte} (hf : Access.out .cmd 0xE7 ∉ front)
    (h : WriteDone sectors (front ++ .out .cmd 0xE7 :: statuses flush)) : IdleSeen flush := by
  obtain ⟨front', commit, flush', he, -, -, hidle⟩ := h
  obtain ⟨-, -, hst⟩ := (List.append_cons_inj_of_notMem hf (out_notMem_statuses flush _ _)).mp he
  have hinj : Function.Injective Access.status := fun _ _ h => Access.status.inj h
  rwa [List.map_injective_iff.mpr hinj hst]

lemma write_protocol (h : (write lba sectors buf).Reaches Recorded [] (pure rc) tr) :
    IdleCommands tr ∧ SectorRuns tr ∧
      (∃ n ≤ sectors.toNat, sent tr = (List.range (256 * n)).map buf ∧ received tr = []) ∧
      (rc = 0 ∨ rc = -1) ∧ (rc = 0 ↔ WriteDone sectors tr) ∧
      (polled tr).length ≤ timeout + 1 + sectors.toNat * timeout + 2 * timeout := by
  obtain ⟨ss, hlen, rfl, rfl⟩ | ⟨pre, s, bs, r', u, hlen, hs, hm, hwords, hend⟩ :=
    (yields_write lba sectors buf).result h
  · refine ⟨(quiet_statuses ss).1, (quiet_statuses ss).2, ⟨0, Nat.zero_le _, ?_⟩, .inr rfl, ?_, ?_⟩
    · simp [received_statuses, sent_statuses]
    · exact ⟨nofun, fun hd => (out_notMem_statuses ss _ _ (writeDone_mem hd)).elim⟩
    · rw [polled_statuses]
      omega
  · have hout : sent u = (List.range (256 * bs.length)).map buf := by
      rw [sent, hm.filterMap (fun _ => rfl) fun _ _ => rfl, ← hwords]
      exact List.filterMap_some
    have hin : received u = [] := by
      rw [received, hm.filterMap (fun _ => rfl) fun _ _ => rfl]
      simp [in?]
    have hcmds := hm.idleCommands isData_out hs
    have hruns := hm.sectorRuns isData_out
    have hpolls := (hm.polled_length isData_out).trans (Nat.add_le_add_right hlen _)
    have hle := hm.length_le
    rcases hend with ⟨rfl, rfl, rfl⟩ | ⟨rfl, commit, hcommit, hend⟩
    · refine ⟨hcmds, hruns, ⟨bs.length, hle, hout, hin⟩, .inr rfl, ⟨nofun, fun hd => ?_⟩, by omega⟩
      have hall := writeDone_sent hd
      rw [hout, List.length_map, List.length_range] at hall
      exact absurd (hm.result.2.mpr (by omega)) (by decide)
    · rcases hend with ⟨hidle, rfl, rfl⟩ | ⟨hidle, flush, hflush, hrc, rfl⟩
      · refine ⟨hcmds.append (quiet_statuses commit).1, hruns.append_quiet (not_isData_statuses commit),
          ⟨bs.length, hle, ?_, ?_⟩, .inr rfl, ⟨nofun, fun hd => ?_⟩, ?_⟩
        · rw [sent_append, sent_statuses, List.append_nil, hout]
        · rw [received_append, received_statuses, hin, List.append_nil]
        · exact (flush_notMem hm commit (writeDone_mem hd)).elim
        · rw [polled_append, polled_statuses, List.length_append]
          omega
      · -- the flush command follows the commit poll, which saw the drive idle
        have hflushCmds : IdleCommands (statuses commit ++ [.out .cmd 0xE7]) := by
          obtain ⟨before, s', rfl, -, hs', -⟩ := hidle
          exact (quiet_statuses _).1.out (by simp [polled_statuses]) hs' _ _
        have htail : u ++ statuses commit ++ .out .cmd 0xE7 :: statuses flush =
            u ++ (statuses commit ++ [.out .cmd 0xE7] ++ statuses flush) := by simp
        refine ⟨?_, ?_, ⟨bs.length, hle, ?_, ?_⟩, hrc.imp And.left And.left, ⟨fun hz => ?_, fun hd => ?_⟩, ?_⟩
        · rw [htail]
          exact hcmds.append (hflushCmds.append (quiet_statuses flush).1)
        · rw [htail]
          refine hruns.append_quiet ?_
          intro a ha
          rcases List.mem_append.mp ha with ha | ha
          · rcases List.mem_append.mp ha with ha | ha
            · exact not_isData_statuses commit a ha
            · exact not_isData_outs [(.cmd, 0xE7)] a ha
          · exact not_isData_statuses flush a ha
        · rw [htail, sent_append, sent_append, sent_append, sent_statuses, sent_statuses, hout]
          simp [sent, out?]
        · rw [htail, received_append, received_append, received_append, received_statuses, received_statuses, hin]
          rfl
        · have hall : bs.length = sectors.toNat := hm.result.2.mp rfl
          refine ⟨u, commit, flush, rfl, by rw [hout, List.length_map, List.length_range, hall], hidle, ?_⟩
          exact hrc.elim And.right fun hr => absurd (hr.1.symm.trans hz) (by decide)
        · rcases hrc with ⟨hr, -⟩ | ⟨-, hno⟩
          · exact hr
          · exact (hno (hd.flush (flush_notMem hm commit))).elim
        · rw [htail, polled_append, polled_append, polled_append, polled_statuses, polled_statuses]
          simp only [List.length_append, polled, status?, List.filterMap_cons, List.filterMap_nil, List.length_nil]
          have hp : (List.filterMap status? u).length ≤ timeout + 1 + sectors.toNat * timeout := hpolls
          omega

/-- Against any drive: every call ends, follows the protocol, moves whole leading sectors of the buffer,
and says truly whether it has moved them all. -/
theorem ata_protocol (lba : Word) (sectors : Byte) (buf : ℕ → Word16) :
    ((read lba sectors buf).Terminates Recorded [] ∧
      ∀ rc buf' tr, (read lba sectors buf).Reaches Recorded [] (pure (rc, buf')) tr →
        IdleCommands tr ∧ SectorRuns tr ∧
        (∃ n ≤ sectors.toNat, (received tr).length = 256 * n ∧ sent tr = [] ∧
          ∀ j, buf' j = (received tr).getD j (buf j)) ∧
        (rc = 0 ∨ rc = -1) ∧ (rc = 0 ↔ ReadDone sectors tr) ∧
        (polled tr).length ≤ timeout + 1 + sectors.toNat * timeout) ∧
    ((write lba sectors buf).Terminates Recorded [] ∧
      ∀ rc tr, (write lba sectors buf).Reaches Recorded [] (pure rc) tr →
        IdleCommands tr ∧ SectorRuns tr ∧
        (∃ n ≤ sectors.toNat, sent tr = (List.range (256 * n)).map buf ∧ received tr = []) ∧
        (rc = 0 ∨ rc = -1) ∧ (rc = 0 ↔ WriteDone sectors tr) ∧
        (polled tr).length ≤ timeout + 1 + sectors.toNat * timeout + 2 * timeout) :=
  ⟨⟨(yields_read lba sectors buf).terminates, fun _ _ _ h => read_protocol h⟩,
    (yields_write lba sectors buf).terminates, fun _ _ h => write_protocol h⟩

lemma poll_undecided {judge : Byte → Option ℤ} {s : Byte} (hs : judge s = none) (rounds : ℕ) (tr : List Access) :
    (poll judge rounds).Reaches Recorded tr (pure (-1)) (tr ++ statuses (List.replicate rounds s)) := by
  induction rounds generalizing tr with
  | zero =>
    rw [show tr ++ statuses (List.replicate 0 s) = tr by simp [statuses]]
    exact .here
  | succ rounds ih =>
    have hinb : inb.Reaches Recorded tr (pure s) (tr ++ [.status s]) :=
      Prog.Reaches.ask (show Recorded tr .inb s (tr ++ [.status s]) from rfl) .here
    have hrest := ih (tr ++ [.status s])
    rw [List.append_assoc] at hrest
    rw [poll, Prog.iterate]
    refine Prog.Reaches.bind (a := Sum.inl ()) (hinb.bind ?_) hrest
    rw [hs]
    exact .here

/-- To read no sectors from a drive that stays busy: all of them have come in, yet the call fails. -/
theorem read_zero_busy : ∃ tr, (read 0 0 fun _ => 0).Reaches Recorded [] (pure (-1, fun _ => 0)) tr ∧
    (received tr).length = 256 * (0 : Byte).toNat := by
  have hbusy : selectJudge 0x80 = none := rfl
  have hselect : (select 0 0).Reaches Recorded [] (pure (-1)) (statuses (List.replicate (timeout + 1) 0x80)) :=
    (poll_undecided hbusy (timeout + 1) []).bind .here
  refine ⟨_, hselect.bind .here, ?_⟩
  rw [received_statuses]
  rfl

end protocol

end PyroOS.Ata
