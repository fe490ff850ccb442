import PyroOS.Library.ByteMemory
import PyroOS.Task.Scheduler

/-! The context switch: the assembly routine, the frames it leaves on the stacks, and what tasks find when they
come back. -/

namespace PyroOS

open ByteMemory

inductive Reg where
  | eax | ebx | esi | edi | ebp | esp

structure Cpu where
  eax : Word
  ebx : Word
  esi : Word
  edi : Word
  ebp : Word
  esp : Word
  eip : Word
  mem : Mem

namespace Cpu

def get (c : Cpu) : Reg → Word
  | .eax => c.eax
  | .ebx => c.ebx
  | .esi => c.esi
  | .edi => c.edi
  | .ebp => c.ebp
  | .esp => c.esp

def set (c : Cpu) (r : Reg) (w : Word) : Cpu :=
  match r with
  | .eax => { c with eax := w }
  | .ebx => { c with ebx := w }
  | .esi => { c with esi := w }
  | .edi => { c with edi := w }
  | .ebp => { c with ebp := w }
  | .esp => { c with esp := w }

def push (c : Cpu) (w : Word) : Cpu := { c with esp := c.esp - 4, mem := writeWord c.mem (c.esp - 4) w }

end Cpu

inductive Instr where
  | push (r : Reg)
  | pop (r : Reg)
  | fetch (r base : Reg) (offset : Word) -- `mov r, [base + offset]`
  | put (base r : Reg) -- `mov [base], r`
  | ret

def Instr.exec (c : Cpu) : Instr → Cpu
  | .push r => c.push (c.get r)
  | .pop r => { c with esp := c.esp + 4 }.set r (readWord c.mem c.esp)
  | .fetch r base offset => c.set r (readWord c.mem (c.get base + offset))
  | .put base r => { c with mem := writeWord c.mem (c.get base) (c.get r) }
  | .ret => { c with eip := readWord c.mem c.esp, esp := c.esp + 4 }

def contextSwitch : List Instr :=
  [.push .ebp, .push .ebx, .push .esi, .push .edi, .fetch .eax .esp 20, .put .eax .esp, .fetch .esp .esp 24,
    .pop .edi, .pop .esi, .pop .ebx, .pop .ebp, .ret]

def Cpu.run (c : Cpu) (code : List Instr) : Cpu := code.foldl Instr.exec c

/-- Where the linker has put the task table, the stacks, and the stack that task 0 runs on. -/
structure TaskMemory where
  tasks : Word
  stackBase : Word
  bootLow : ℕ
  bootHigh : ℕ
  fits : tasks.toNat + 64 < 2 ^ 32 ∧ stackBase.toNat + 8 * 4096 < 2 ^ 32 ∧ bootHigh < 2 ^ 32
  tasksApart : tasks.toNat + 64 ≤ stackBase.toNat ∨ stackBase.toNat + 8 * 4096 ≤ tasks.toNat
  bootApart : (bootHigh ≤ stackBase.toNat ∨ stackBase.toNat + 8 * 4096 ≤ bootLow) ∧
    (bootHigh ≤ tasks.toNat ∨ tasks.toNat + 64 ≤ bootLow)

namespace TaskMemory

/-- `&tasks[i].esp` -/
def slot (L : TaskMemory) (i : ℕ) : Word := L.tasks + BitVec.ofNat 32 (8 * i)

def low (L : TaskMemory) (i : ℕ) : ℕ := if i = 0 then L.bootLow else L.stackBase.toNat + i * 4096

def high (L : TaskMemory) (i : ℕ) : ℕ := if i = 0 then L.bootHigh else L.stackBase.toNat + (i + 1) * 4096

end TaskMemory

structure Resume where
  esp : Word
  ebx : Word
  esi : Word
  edi : Word
  ebp : Word
  ret : Word

structure Threads where
  cpu : Cpu
  numTasks : ℕ
  running : ℕ
  frames : ℕ → Resume

section

variable (L : TaskMemory)

def Threads.taskCreate (s : Threads) (entry : Word) : Threads :=
  let id := s.numTasks
  let top := L.stackBase + BitVec.ofNat 32 ((id + 1) * stackSize)
  let m := writeWord s.cpu.mem (top - 4) entry
  let m := writeWord m (top - 8) 0
  let m := writeWord m (top - 12) 0
  let m := writeWord m (top - 16) 0
  let m := writeWord m (top - 20) 0
  let m := writeWord m (L.slot id) (top - 20)
  let m := writeWord m (L.slot id + 4) 1
  { s with
    cpu := { s.cpu with mem := m }
    numTasks := id + 1
    frames := Function.update s.frames id ⟨top, 0, 0, 0, 0, entry⟩ }

/-- `context_switch(&tasks[prev].esp, tasks[cand].esp)`, called by the running task so that it returns to `ret`. -/
def Threads.callSwitch (s : Threads) (cand : ℕ) (ret : Word) : Threads :=
  let c := (s.cpu.push (readWord s.cpu.mem (L.slot cand))).push (L.slot s.running)
  { s with
    cpu := (c.push ret).run contextSwitch
    running := cand
    frames := Function.update s.frames s.running ⟨c.esp, c.ebx, c.esi, c.edi, c.ebp, ret⟩ }

structure OwnWork (s : Threads) (c : Cpu) : Prop where
  esp : L.low s.running ≤ c.esp.toNat ∧ c.esp.toNat ≤ L.high s.running
  others : ∀ i < s.numTasks, i ≠ s.running → Same (L.low i) (L.high i) s.cpu.mem c.mem
  table : Same L.tasks.toNat (L.tasks.toNat + 64) s.cpu.mem c.mem

def Threads.Room (s : Threads) : Prop :=
  L.low s.running + 28 ≤ s.cpu.esp.toNat ∧ s.cpu.esp.toNat ≤ L.high s.running

inductive Threads.Step (s : Threads) : Threads → Prop
  | create (entry : Word) : s.numTasks < 8 → Step s (s.taskCreate L entry)
  | work (c : Cpu) : OwnWork L s c → Step s { s with cpu := c }
  | switch (cand : ℕ) (ret : Word) : cand < s.numTasks → cand ≠ s.running → s.Room L → Step s (s.callSwitch L cand ret)

inductive Threads.Run : Threads → Prop
  | boot (c : Cpu) (frames : ℕ → Resume) : L.low 0 ≤ c.esp.toNat → c.esp.toNat ≤ L.high 0 → Run ⟨c, 1, 0, frames⟩
  | step {s s' : Threads} : Run s → s.Step L s' → Run s'

def Away (i : ℕ) : Threads → Threads → Prop := Relation.ReflTransGen fun s s' => s.Step L s' ∧ s'.running ≠ i

end

variable {L : TaskMemory} {s : Threads} {i cand : ℕ} {ret entry : Word} {c : Cpu}

/-! ### Places in memory -/

namespace TaskMemory

lemma slot_toNat (L : TaskMemory) (hi : i < 8) : (L.slot i).toNat = L.tasks.toNat + 8 * i := by
  have hf := L.fits.1
  rw [slot, BitVec.toNat_add, BitVec.toNat_ofNat]
  omega

lemma high_lt (L : TaskMemory) (hi : i < 8) : L.high i < 2 ^ 32 := by
  have hf := L.fits
  rw [high]
  split <;> omega

lemma stacks_apart (L : TaskMemory) {j : ℕ} (hi : i < 8) (hj : j < 8) (hne : i ≠ j) :
    L.high i ≤ L.low j ∨ L.high j ≤ L.low i := by
  have hb := L.bootApart.1
  simp only [high, low]
  split_ifs <;> omega

lemma table_apart (L : TaskMemory) (hi : i < 8) :
    L.tasks.toNat + 64 ≤ L.low i ∨ L.high i ≤ L.tasks.toNat := by
  have hb := L.bootApart.2
  have ht := L.tasksApart
  simp only [high, low]
  split_ifs <;> omega

end TaskMemory

/-! ### Frames of suspended tasks -/

structure Suspended (L : TaskMemory) (m : Mem) (i : ℕ) (f : Resume) : Prop where
  low : L.low i ≤ (readWord m (L.slot i)).toNat
  high : (readWord m (L.slot i)).toNat + 20 ≤ L.high i
  esp : f.esp = readWord m (L.slot i) + 20
  edi : readWord m (readWord m (L.slot i)) = f.edi
  esi : readWord m (readWord m (L.slot i) + 4) = f.esi
  ebx : readWord m (readWord m (L.slot i) + 8) = f.ebx
  ebp : readWord m (readWord m (L.slot i) + 12) = f.ebp
  ret : readWord m (readWord m (L.slot i) + 16) = f.ret

lemma Suspended.same {m m' : Mem} {f : Resume} (h : Suspended L m i f) (hi : i < 8)
    (hs : Same (L.low i) (L.high i) m m') (ht : Same (L.slot i).toNat ((L.slot i).toNat + 4) m m') :
    Suspended L m' i f := by
  have hhigh := L.high_lt hi
  have hslot : readWord m' (L.slot i) = readWord m (L.slot i) := by
    have hf := L.fits.1
    have hn := L.slot_toNat hi
    exact ht.read le_rfl le_rfl (by omega)
  obtain ⟨h₁, h₂, h₃, h₄, h₅, h₆, h₇, h₈⟩ := h
  generalize readWord m (L.slot i) = sp at *
  have hread : ∀ a : Word, sp.toNat ≤ a.toNat → a.toNat + 4 ≤ sp.toNat + 20 → readWord m' a = readWord m a :=
    fun a ha ha' => hs.read (by omega) (by omega) (by omega)
  refine ⟨by rwa [hslot], by rwa [hslot], by rwa [hslot], ?_, ?_, ?_, ?_, ?_⟩
  · rw [hslot, hread _ (by bv_omega) (by bv_omega), h₄]
  · rw [hslot, hread _ (by bv_omega) (by bv_omega), h₅]
  · rw [hslot, hread _ (by bv_omega) (by bv_omega), h₆]
  · rw [hslot, hread _ (by bv_omega) (by bv_omega), h₇]
  · rw [hslot, hread _ (by bv_omega) (by bv_omega), h₈]

structure Threads.Ok (L : TaskMemory) (s : Threads) : Prop where
  count : s.running < s.numTasks ∧ s.numTasks ≤ 8
  esp : L.low s.running ≤ s.cpu.esp.toNat ∧ s.cpu.esp.toNat ≤ L.high s.running
  suspended : ∀ i < s.numTasks, i ≠ s.running → Suspended L s.cpu.mem i (s.frames i)

/-! ### The routine -/

lemma run_contextSwitch (c : Cpu) : c.run contextSwitch =
    let m := push c.mem c.esp [c.ebp, c.ebx, c.esi, c.edi]
    let e := c.esp - 4 - 4 - 4 - 4
    let old := readWord m (e + 20)
    let m' := writeWord m old e
    let new := readWord m' (e + 24)
    { eax := old
      edi := readWord m' new
      esi := readWord m' (new + 4)
      ebx := readWord m' (new + 4 + 4)
      ebp := readWord m' (new + 4 + 4 + 4)
      eip := readWord m' (new + 4 + 4 + 4 + 4)
      esp := new + 4 + 4 + 4 + 4 + 4
      mem := m' } := by
  simp only [Cpu.run, contextSwitch, List.foldl_cons, List.foldl_nil, Instr.exec, Cpu.push, Cpu.get, Cpu.set, push]

lemma push_sums (e : Word) : e - 4 - 4 - 4 - 4 = e - 16 ∧ e - 16 + 20 = e + 4 ∧ e - 16 + 24 = e + 8 := by
  refine ⟨?_, ?_, ?_⟩ <;> bv_omega

lemma pop_sums (a : Word) : a + 4 + 4 = a + 8 ∧ a + 8 + 4 = a + 12 ∧ a + 12 + 4 = a + 16 ∧ a + 16 + 4 = a + 20 := by
  refine ⟨?_, ?_, ?_, ?_⟩ <;> bv_omega

lemma contextSwitch_spec {c : Cpu} {m : Mem} {old new : Word} (hm : push c.mem c.esp [c.ebp, c.ebx, c.esi, c.edi] = m)
    (hold : readWord m (c.esp + 4) = old) (hnew : readWord (writeWord m old (c.esp - 16)) (c.esp + 8) = new) :
    c.run contextSwitch =
      let m := writeWord m old (c.esp - 16)
      { eax := old
        edi := readWord m new
        esi := readWord m (new + 4)
        ebx := readWord m (new + 8)
        ebp := readWord m (new + 12)
        eip := readWord m (new + 16)
        esp := new + 20
        mem := m } := by
  obtain ⟨h₁, h₂, h₃⟩ := push_sums c.esp
  obtain ⟨h₄, h₅, h₆, h₇⟩ := pop_sums new
  rw [run_contextSwitch]
  simp only [hm, h₁, h₂, h₃, hold, hnew, h₄, h₅, h₆, h₇]

def Threads.pushed (L : TaskMemory) (s : Threads) (cand : ℕ) (ret : Word) : List Word :=
  [readWord s.cpu.mem (L.slot cand), L.slot s.running, ret, s.cpu.ebp, s.cpu.ebx, s.cpu.esi, s.cpu.edi]

def Threads.swapped (L : TaskMemory) (s : Threads) (cand : ℕ) (ret : Word) : Mem :=
  writeWord (push s.cpu.mem s.cpu.esp (s.pushed L cand ret)) (L.slot s.running) (s.cpu.esp - 28)

lemma Threads.pushed_length (L : TaskMemory) (s : Threads) (cand : ℕ) (ret : Word) :
    (s.pushed L cand ret).length = 7 := rfl

def Threads.atSwitch (L : TaskMemory) (s : Threads) (cand : ℕ) (ret : Word) : Cpu :=
  ((s.cpu.push (readWord s.cpu.mem (L.slot cand))).push (L.slot s.running)).push ret

lemma Threads.atSwitch_esp (L : TaskMemory) (s : Threads) (cand : ℕ) (ret : Word) :
    (s.atSwitch L cand ret).esp = s.cpu.esp - 4 - 4 - 4 := rfl

lemma call_sums (e : Word) : e - 4 - 4 - 4 + 4 = e - 8 ∧ e - 4 - 4 - 4 + 8 = e - 4 ∧ e - 4 - 4 - 4 - 16 = e - 28 := by
  refine ⟨?_, ?_, ?_⟩ <;> bv_omega

lemma Threads.Ok.slot_apart (h : s.Ok L) (hroom : s.Room L) : (L.slot s.running).toNat + 4 ≤ s.cpu.esp.toNat - 28 ∨
    s.cpu.esp.toNat ≤ (L.slot s.running).toNat := by
  have hi : s.running < 8 := h.count.1.trans_le h.count.2
  have ht := L.table_apart hi
  have hn := L.slot_toNat hi
  have hr : L.low s.running + 28 ≤ s.cpu.esp.toNat ∧ s.cpu.esp.toNat ≤ L.high s.running := hroom
  omega

lemma Threads.Ok.swapped_read (h : s.Ok L) (hroom : s.Room L) (cand : ℕ) (ret : Word) {j : ℕ} (hj : j < 7) :
    readWord (s.swapped L cand ret) (s.cpu.esp - BitVec.ofNat 32 (4 * (j + 1))) = (s.pushed L cand ret)[j] := by
  have hs := h.slot_apart hroom
  have hn := L.slot_toNat (h.count.1.trans_le h.count.2)
  have hf := L.fits.1
  have hr : L.low s.running + 28 ≤ s.cpu.esp.toNat ∧ s.cpu.esp.toNat ≤ L.high s.running := hroom
  have hlt := s.cpu.esp.isLt
  have hrun := h.count
  have haddr : (s.cpu.esp - BitVec.ofNat 32 (4 * (j + 1))).toNat = s.cpu.esp.toNat - 4 * (j + 1) := by
    rw [BitVec.toNat_sub_of_le, BitVec.toNat_ofNat]
    · omega
    · rw [BitVec.le_def, BitVec.toNat_ofNat]
      omega
  rw [Threads.swapped, read_write_other _ (by omega) (by omega) (by omega)]
  exact push_read (by simp only [Threads.pushed, List.length_cons, List.length_nil]; omega) hj

lemma Threads.Ok.callSwitch_cpu (h : s.Ok L) (hroom : s.Room L) (cand : ℕ) (ret : Word) :
    (s.callSwitch L cand ret).cpu =
      let m := s.swapped L cand ret
      let sp := readWord s.cpu.mem (L.slot cand)
      { eax := L.slot s.running
        edi := readWord m sp
        esi := readWord m (sp + 4)
        ebx := readWord m (sp + 8)
        ebp := readWord m (sp + 12)
        eip := readWord m (sp + 16)
        esp := sp + 20
        mem := m } := by
  have hr : L.low s.running + 28 ≤ s.cpu.esp.toNat ∧ s.cpu.esp.toNat ≤ L.high s.running := hroom
  have hlen : 4 * (s.pushed L cand ret).length ≤ s.cpu.esp.toNat := by
    rw [Threads.pushed_length]
    omega
  have hslot : readWord (push s.cpu.mem s.cpu.esp (s.pushed L cand ret)) (s.cpu.esp - 8) = L.slot s.running :=
    push_read hlen (i := 1) (by rw [Threads.pushed_length]; decide)
  have hnew : readWord (s.swapped L cand ret) (s.cpu.esp - 4) = readWord s.cpu.mem (L.slot cand) :=
    h.swapped_read hroom cand ret (j := 0) (by decide)
  obtain ⟨h₁, h₂, h₃⟩ := call_sums s.cpu.esp
  have hmem : push (s.atSwitch L cand ret).mem
    (s.atSwitch L cand ret).esp [s.cpu.ebp, s.cpu.ebx, s.cpu.esi, s.cpu.edi] =
      push s.cpu.mem s.cpu.esp (s.pushed L cand ret) := by
    simp only [Threads.atSwitch, Cpu.push, push, Threads.pushed]
  have hold : readWord (push s.cpu.mem s.cpu.esp (s.pushed L cand ret)) ((s.atSwitch L cand ret).esp + 4) =
      L.slot s.running := by
    rw [Threads.atSwitch_esp, h₁]
    exact hslot
  have hstack : readWord (writeWord (push s.cpu.mem s.cpu.esp (s.pushed L cand ret)) (L.slot s.running)
      ((s.atSwitch L cand ret).esp - 16)) ((s.atSwitch L cand ret).esp + 8) = readWord s.cpu.mem (L.slot cand) := by
    rw [Threads.atSwitch_esp, h₂, h₃]
    exact hnew
  have hspec := contextSwitch_spec hmem hold hstack
  rw [Threads.atSwitch_esp, h₃] at hspec
  exact hspec

lemma Threads.Ok.swapped_same (h : s.Ok L) (hroom : s.Room L) (cand : ℕ) (ret : Word) {lo hi : ℕ}
    (h₁ : s.cpu.esp.toNat ≤ lo ∨ hi ≤ s.cpu.esp.toNat - 28)
    (h₂ : (L.slot s.running).toNat + 4 ≤ lo ∨ hi ≤ (L.slot s.running).toNat) :
    Same lo hi s.cpu.mem (s.swapped L cand ret) := by
  have hr : L.low s.running + 28 ≤ s.cpu.esp.toNat ∧ s.cpu.esp.toNat ≤ L.high s.running := hroom
  have hn := L.slot_toNat (h.count.1.trans_le h.count.2)
  have hf := L.fits.1
  have hcount := h.count
  have hlen := Threads.pushed_length L s cand ret
  have hpush : Same lo hi s.cpu.mem (push s.cpu.mem s.cpu.esp (s.pushed L cand ret)) :=
    push_same (by omega) (by omega)
  exact hpush.trans (write_same _ h₂ (by omega))

lemma Threads.Ok.swapped_other (h : s.Ok L) (hroom : s.Room L) (cand : ℕ) (ret : Word) (hi : i < 8)
    (hne : i ≠ s.running) : Same (L.low i) (L.high i) s.cpu.mem (s.swapped L cand ret) ∧
      Same (L.slot i).toNat ((L.slot i).toNat + 4) s.cpu.mem (s.swapped L cand ret) := by
  have hr : L.low s.running + 28 ≤ s.cpu.esp.toNat ∧ s.cpu.esp.toNat ≤ L.high s.running := hroom
  have hrun : s.running < 8 := h.count.1.trans_le h.count.2
  have hn := L.slot_toNat hrun
  have hn' := L.slot_toNat hi
  have ht := L.table_apart hrun
  have ht' := L.table_apart hi
  have hs := L.stacks_apart hi hrun hne
  exact ⟨h.swapped_same hroom cand ret (by omega) (by omega), h.swapped_same hroom cand ret (by omega) (by omega)⟩

/-! ### Steps -/

structure Resumed (f : Resume) (c : Cpu) : Prop where
  esp : c.esp = f.esp
  ebx : c.ebx = f.ebx
  esi : c.esi = f.esi
  edi : c.edi = f.edi
  ebp : c.ebp = f.ebp
  eip : c.eip = f.ret

lemma Threads.Ok.resumed (h : s.Ok L) (hcand : cand < s.numTasks) (hne : cand ≠ s.running) (hroom : s.Room L)
    (ret : Word) : Resumed (s.frames cand) (s.callSwitch L cand ret).cpu := by
  have hc : cand < 8 := hcand.trans_le h.count.2
  obtain ⟨hstack, hslot⟩ := h.swapped_other hroom cand ret hc hne
  have hsus := (h.suspended cand hcand hne).same hc hstack hslot
  have hsp : readWord (s.swapped L cand ret) (L.slot cand) = readWord s.cpu.mem (L.slot cand) := by
    have hn := L.slot_toNat hc
    have hf := L.fits.1
    exact hslot.read le_rfl le_rfl (by omega)
  obtain ⟨_, _, hesp, hedi, hesi, hebx, hebp, hret⟩ := hsus
  rw [hsp] at hesp hedi hesi hebx hebp hret
  have hcpu := h.callSwitch_cpu hroom cand ret
  refine ⟨?_, ?_, ?_, ?_, ?_, ?_⟩
  · rw [hcpu, hesp]
  · rw [hcpu, ← hebx]
  · rw [hcpu, ← hesi]
  · rw [hcpu, ← hedi]
  · rw [hcpu, ← hebp]
  · rw [hcpu, ← hret]

lemma frame_sums (e : Word) : e - 20 + 20 = e ∧ e - 20 + 4 = e - 16 ∧ e - 20 + 8 = e - 12 ∧ e - 20 + 12 = e - 8 ∧
    e - 20 + 16 = e - 4 := by
  refine ⟨?_, ?_, ?_, ?_, ?_⟩ <;> bv_omega

lemma Suspended.of_pushed {m : Mem} {f : Resume} (hslot : readWord m (L.slot i) = f.esp - 20)
    (hlow : L.low i + 20 ≤ f.esp.toNat) (hhigh : f.esp.toNat ≤ L.high i)
    (hread : ∀ j (hj : j < 5), readWord m (f.esp - BitVec.ofNat 32 (4 * (j + 1))) =
      [f.ret, f.ebp, f.ebx, f.esi, f.edi][j]) : Suspended L m i f := by
  have hsub : (f.esp - 20).toNat = f.esp.toNat - 20 :=
    BitVec.toNat_sub_of_le (by rw [BitVec.le_def]; exact (Nat.le_add_left 20 _).trans hlow)
  obtain ⟨h₁, h₂, h₃, h₄, h₅⟩ := frame_sums f.esp
  refine ⟨?_, ?_, ?_, ?_, ?_, ?_, ?_, ?_⟩
  · rw [hslot, hsub]
    omega
  · rw [hslot, hsub]
    omega
  · rw [hslot, h₁]
  · rw [hslot]
    exact hread 4 (by decide)
  · rw [hslot, h₂]
    exact hread 3 (by decide)
  · rw [hslot, h₃]
    exact hread 2 (by decide)
  · rw [hslot, h₄]
    exact hread 1 (by decide)
  · rw [hslot, h₅]
    exact hread 0 (by decide)

lemma Threads.Ok.leaves (h : s.Ok L) (hroom : s.Room L) (cand : ℕ) (ret : Word) :
    Suspended L (s.swapped L cand ret) s.running
      ⟨s.cpu.esp - 4 - 4, s.cpu.ebx, s.cpu.esi, s.cpu.edi, s.cpu.ebp, ret⟩ := by
  have hr : L.low s.running + 28 ≤ s.cpu.esp.toNat ∧ s.cpu.esp.toNat ≤ L.high s.running := hroom
  have hslot : readWord (s.swapped L cand ret) (L.slot s.running) = s.cpu.esp - 28 := read_write _ _ _
  have hsum : s.cpu.esp - 28 = s.cpu.esp - 4 - 4 - 20 := by bv_omega
  have hesp : (s.cpu.esp - 4 - 4).toNat = s.cpu.esp.toNat - 8 := by bv_omega
  refine .of_pushed (hslot.trans hsum) (by dsimp only; omega) (by dsimp only; omega) fun j hj => ?_
  -- the two arguments lie above the frame
  have haddr : s.cpu.esp - 4 - 4 - BitVec.ofNat 32 (4 * (j + 1)) = s.cpu.esp - BitVec.ofNat 32 (4 * (j + 2 + 1)) := by
    bv_omega
  exact (congrArg _ haddr).trans (h.swapped_read hroom cand ret (j := j + 2) (by omega))

lemma Threads.Ok.switch (h : s.Ok L) (hcand : cand < s.numTasks) (hne : cand ≠ s.running) (hroom : s.Room L)
    (ret : Word) : (s.callSwitch L cand ret).Ok L := by
  have hcpu := h.callSwitch_cpu hroom cand ret
  have hmem : (s.callSwitch L cand ret).cpu.mem = s.swapped L cand ret := by rw [hcpu]
  have hesp : (s.callSwitch L cand ret).cpu.esp = readWord s.cpu.mem (L.slot cand) + 20 := by rw [hcpu]
  have hsus := h.suspended cand hcand hne
  have hhigh := L.high_lt (hcand.trans_le h.count.2)
  have hadd : (readWord s.cpu.mem (L.slot cand) + 20).toNat = (readWord s.cpu.mem (L.slot cand)).toNat + 20 := by
    have h₁ := hsus.high
    rw [BitVec.toNat_add]
    exact Nat.mod_eq_of_lt (h₁.trans_lt hhigh)
  refine ⟨⟨hcand, h.count.2⟩, ?_, fun i hi hi' => ?_⟩
  · rw [hesp, hadd]
    exact ⟨hsus.low.trans (Nat.le_add_right _ _), hsus.high⟩
  · rw [hmem]
    by_cases hrun : i = s.running
    · subst hrun
      simp only [Threads.callSwitch, Function.update_self]
      exact h.leaves hroom cand ret
    · simp only [Threads.callSwitch, Function.update_of_ne hrun]
      have hi₈ : i < 8 := lt_of_lt_of_le hi h.count.2
      obtain ⟨hstack, hslot⟩ := h.swapped_other hroom cand ret hi₈ hrun
      exact (h.suspended i hi hrun).same hi₈ hstack hslot

lemma Threads.Ok.work (h : s.Ok L) (hw : OwnWork L s c) : ({ s with cpu := c } : Threads).Ok L := by
  refine ⟨h.count, hw.esp, fun i hi hne => ?_⟩
  have hi₈ : i < 8 := lt_of_lt_of_le hi h.count.2
  have hn := L.slot_toNat hi₈
  exact (h.suspended i hi hne).same hi₈ (hw.others i hi hne) (hw.table.mono (by omega) (by omega))

def TaskMemory.created (L : TaskMemory) (m : Mem) (id : ℕ) (entry : Word) : Mem :=
  let top := L.stackBase + BitVec.ofNat 32 ((id + 1) * stackSize)
  writeWord (writeWord (push m top [entry, 0, 0, 0, 0]) (L.slot id) (top - 20)) (L.slot id + 4) 1

lemma create_sums (e : Word) : e - 4 - 4 = e - 8 ∧ e - 8 - 4 = e - 12 ∧ e - 12 - 4 = e - 16 ∧ e - 16 - 4 = e - 20 := by
  refine ⟨?_, ?_, ?_, ?_⟩ <;> bv_omega

lemma taskCreate_mem (s : Threads) (entry : Word) :
    (s.taskCreate L entry).cpu.mem = L.created s.cpu.mem s.numTasks entry := by
  obtain ⟨h₁, h₂, h₃, h₄⟩ := create_sums (L.stackBase + BitVec.ofNat 32 ((s.numTasks + 1) * stackSize))
  simp only [Threads.taskCreate, TaskMemory.created, push, h₁, h₂, h₃, h₄]

-- the address of `tasks[i].active`
lemma TaskMemory.active_toNat (L : TaskMemory) (hi : i < 8) : (L.slot i + 4).toNat = L.tasks.toNat + 8 * i + 4 := by
  have hf := L.fits.1
  have hn := L.slot_toNat hi
  bv_omega

lemma TaskMemory.low_add (L : TaskMemory) (hi₀ : i ≠ 0) : L.low i + 4096 = L.high i := by
  rw [low, high, if_neg hi₀, if_neg hi₀]
  omega

lemma TaskMemory.top_toNat (L : TaskMemory) (hi : i < 8) (hi₀ : i ≠ 0) :
    (L.stackBase + BitVec.ofNat 32 ((i + 1) * stackSize)).toNat = L.high i := by
  have hf := L.fits.2.1
  rw [high, if_neg hi₀, BitVec.toNat_add, BitVec.toNat_ofNat, stackSize]
  omega

lemma TaskMemory.created_suspended (L : TaskMemory) (m : Mem) (entry : Word) (hi : i < 8) (hi₀ : i ≠ 0) :
    Suspended L (L.created m i entry) i ⟨L.stackBase + BitVec.ofNat 32 ((i + 1) * stackSize), 0, 0, 0, 0, entry⟩ := by
  have htop := L.top_toNat hi hi₀
  have hlow := L.low_add hi₀
  have happart := L.table_apart hi
  have hn := L.slot_toNat hi
  have hf := L.fits.1
  have hhigh := L.high_lt hi
  rw [TaskMemory.created]
  generalize L.stackBase + BitVec.ofNat 32 ((i + 1) * stackSize) = top at htop ⊢
  have hactive := L.active_toNat hi
  have hslot : readWord (writeWord (writeWord (push m top [entry, 0, 0, 0, 0]) (L.slot i) (top - 20)) (L.slot i + 4) 1)
      (L.slot i) = top - 20 :=
    (read_write_other _ (by omega) (by omega) (by omega)).trans (read_write _ _ _)
  have hread : ∀ j (hj : j < 5),
      readWord (writeWord (writeWord (push m top [entry, 0, 0, 0, 0]) (L.slot i) (top - 20)) (L.slot i + 4) 1)
        (top - BitVec.ofNat 32 (4 * (j + 1))) = [entry, 0, 0, 0, 0][j] := by
    intro j hj
    have haddr : (top - BitVec.ofNat 32 (4 * (j + 1))).toNat = top.toNat - 4 * (j + 1) := by
      rw [BitVec.toNat_sub_of_le, BitVec.toNat_ofNat]
      · omega
      · rw [BitVec.le_def, BitVec.toNat_ofNat]
        omega
    rw [read_write_other _ (by omega) (by omega) (by omega), read_write_other _ (by omega) (by omega) (by omega)]
    exact push_read (by simp only [List.length_cons, List.length_nil]; omega) hj
  exact .of_pushed hslot (by dsimp only; omega) (by dsimp only; omega) hread

lemma TaskMemory.created_same (L : TaskMemory) (m : Mem) (entry : Word) {lo hi : ℕ} (hi₈ : i < 8) (hi₀ : i ≠ 0)
    (hstack : hi ≤ L.low i ∨ L.high i ≤ lo)
    (htable : hi ≤ (L.slot i).toNat ∨ (L.slot i).toNat + 8 ≤ lo) : Same lo hi m (L.created m i entry) := by
  have htop := L.top_toNat hi₈ hi₀
  have hlow := L.low_add hi₀
  have hn := L.slot_toNat hi₈
  have hf := L.fits.1
  have hactive := L.active_toNat hi₈
  have hpush : Same lo hi m (push m (L.stackBase + BitVec.ofNat 32 ((i + 1) * stackSize)) [entry, 0, 0, 0, 0]) :=
    push_same (by simp only [List.length_cons, List.length_nil]; omega)
      (hstack.symm.imp (fun h => htop ▸ h) fun h => by simp only [List.length_cons, List.length_nil]; omega)
  exact (hpush.trans (write_same _ (by omega) (by omega))).trans (write_same _ (by omega) (by omega))

lemma Threads.Ok.create (h : s.Ok L) (hn : s.numTasks < 8) (entry : Word) : (s.taskCreate L entry).Ok L := by
  have hpos : s.numTasks ≠ 0 := (Nat.zero_le _).trans_lt h.count.1 |>.ne'
  refine ⟨⟨h.count.1.trans (Nat.lt_succ_self _), hn⟩, h.esp, fun i hi hne => ?_⟩
  rw [taskCreate_mem]
  by_cases hnew : i = s.numTasks
  · subst hnew
    simp only [Threads.taskCreate, Function.update_self]
    exact L.created_suspended _ _ hn hpos
  · have hi' : i < s.numTasks := lt_of_le_of_ne (Nat.le_of_lt_succ hi) hnew
    have hi₈ := hi'.trans hn
    have hslot := L.slot_toNat hi₈
    have hslot' := L.slot_toNat hn
    have htable := L.table_apart hi₈
    have htable' := L.table_apart hn
    simp only [Threads.taskCreate, Function.update_of_ne hnew]
    exact (h.suspended i hi' hne).same hi₈
      (L.created_same _ _ hn hpos ((L.stacks_apart hi₈ hn hnew).imp id id) (by omega))
      (L.created_same _ _ hn hpos (by omega) (by omega))

lemma Threads.Step.ok {s' : Threads} (hs : s.Step L s') (h : s.Ok L) : s'.Ok L := by
  cases hs with
  | create entry hn => exact h.create hn entry
  | work c hw => exact h.work hw
  | switch cand ret hcand hne hroom => exact h.switch hcand hne hroom ret

lemma Threads.Run.ok (h : Threads.Run L s) : s.Ok L := by
  induction h with
  | boot c frames h₁ h₂ =>
    refine ⟨⟨Nat.one_pos, Nat.one_le_ofNat⟩, ⟨h₁, h₂⟩, fun i hi hne => ?_⟩
    exact absurd (Nat.lt_one_iff.mp hi) hne
  | step _ hs ih => exact hs.ok ih

lemma Threads.Step.frames {s' : Threads} (hs : s.Step L s') (hi : i < s.numTasks) (hne : s.running ≠ i) :
    i < s'.numTasks ∧ s'.frames i = s.frames i := by
  cases hs with
  | create entry hn => exact ⟨hi.trans (Nat.lt_succ_self _), Function.update_of_ne hi.ne _ _⟩
  | work c hw => exact ⟨hi, rfl⟩
  | switch cand ret hcand hne' hroom => exact ⟨hi, Function.update_of_ne hne.symm _ _⟩

lemma Away.kept {s' : Threads} (ha : Away L i s s') (h : s.Ok L) (hi : i < s.numTasks) (hne : s.running ≠ i) :
    s'.Ok L ∧ i < s'.numTasks ∧ s'.running ≠ i ∧ s'.frames i = s.frames i := by
  induction ha with
  | refl => exact ⟨h, hi, hne, rfl⟩
  | tail _ hs ih =>
    obtain ⟨hok, hi', hne', hf⟩ := ih
    obtain ⟨hlt, hf'⟩ := hs.1.frames hi' hne'
    exact ⟨hs.1.ok hok, hlt, hs.2, hf'.trans hf⟩

lemma Away.resumed {s' : Threads} (ha : Away L i s s') (h : s.Ok L) (hi : i < s.numTasks) (hne : s.running ≠ i)
    (hroom : s'.Room L) (ret : Word) : Resumed (s.frames i) (s'.callSwitch L i ret).cpu := by
  obtain ⟨hok, hi', hne', hf⟩ := ha.kept h hi hne
  exact hf ▸ hok.resumed hi' hne'.symm hroom ret

/-- A task comes back to what it had at its call of `context_switch`, with the two arguments still on its stack; a
new task starts at its entry point, with an empty stack and zeroed registers; a switch writes no other task's
stack. -/
theorem context_switch_preserves (h : Threads.Run L s) :
    (∀ cand < s.numTasks, cand ≠ s.running → s.Room L → ∀ ret s', Away L s.running (s.callSwitch L cand ret) s' →
      s'.Room L → ∀ ret', Resumed ⟨s.cpu.esp - 8, s.cpu.ebx, s.cpu.esi, s.cpu.edi, s.cpu.ebp, ret⟩
        (s'.callSwitch L s.running ret').cpu) ∧
    (s.numTasks < 8 → ∀ entry s', Away L s.numTasks (s.taskCreate L entry) s' → s'.Room L →
      ∀ ret', Resumed ⟨L.stackBase + BitVec.ofNat 32 ((s.numTasks + 1) * stackSize), 0, 0, 0, 0, entry⟩
        (s'.callSwitch L s.numTasks ret').cpu) ∧
    (∀ cand < s.numTasks, cand ≠ s.running → s.Room L → ∀ ret, ∀ i < s.numTasks, i ≠ s.running →
      Same (L.low i) (L.high i) s.cpu.mem (s.callSwitch L cand ret).cpu.mem) := by
  have hok := h.ok
  refine ⟨fun cand hcand hne hroom ret s' ha hroom' ret' => ?_, fun hn entry s' ha hroom' ret' => ?_,
    fun cand hcand hne hroom ret i hi hi' => ?_⟩
  · have hr := ha.resumed (hok.switch hcand hne hroom ret) hok.count.1 hne hroom' ret'
    have hesp : s.cpu.esp - 4 - 4 = s.cpu.esp - 8 := (create_sums s.cpu.esp).1
    simpa only [Threads.callSwitch, Function.update_self, Cpu.push, hesp] using hr
  · have hr := ha.resumed (hok.create hn entry) (Nat.lt_succ_self _) hok.count.1.ne hroom' ret'
    simpa only [Threads.taskCreate, Function.update_self] using hr
  · rw [hok.callSwitch_cpu hroom cand ret]
    exact (hok.swapped_other hroom cand ret (hi.trans_le hok.count.2) hi').1

def sampleTasks : TaskMemory :=
  ⟨0x1000, 0x2000, 0x80000, 0x90000, by decide, by decide, by decide⟩

def sampleThreads : Threads :=
  ⟨⟨0, 0xb, 0xc, 0xd, 0xe, 0x8fff0, 0, fun _ => 0⟩, 1, 0, fun _ => ⟨0, 0, 0, 0, 0, 0⟩⟩

lemma sampleThreads_run : Threads.Run sampleTasks (sampleThreads.taskCreate sampleTasks 0x5000) :=
  .step (.boot _ _ (by decide) (by decide)) (.create 0x5000 (by decide))

-- task 0 enters a new task and is entered again from there
theorem context_switch_there_and_back :
    Resumed ⟨0x8ffe8, 0xb, 0xc, 0xd, 0xe, 0x1234⟩
      (((sampleThreads.taskCreate sampleTasks 0x5000).callSwitch sampleTasks 1 0x1234).callSwitch sampleTasks 0 0x5010).cpu :=
  (context_switch_preserves sampleThreads_run).1 1 (by decide) (by decide) ⟨by decide, by decide⟩ 0x1234 _ .refl
    ⟨by decide +kernel, by decide +kernel⟩ 0x5010

end PyroOS
