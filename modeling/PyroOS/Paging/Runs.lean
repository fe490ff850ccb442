import PyroOS.Memory.Pool
import PyroOS.Process.KernelRange

/-! The memory manager, demand paging and memory accesses in any order, from boot on. -/

namespace PyroOS

open Sharing Loop

/-! ### The pool stays in step -/

section pool

variable {k : BootDir} {u : Mmu} {vm : Vm} {d virt flags va code : Word} {write user : Bool}

lemma vmmCreateDir_tidy (h : vm.pmm.Tidy) : (vmmCreateDir k vm).1.pmm.Tidy := by
  have ha := h.alloc
  rw [vmmCreateDir]
  generalize pmmAlloc vm.pmm = r at ha ⊢
  obtain ⟨p, phys⟩ := r
  dsimp only
  split <;> exact ha

lemma tableFor_tidy (create : Bool) (h : vm.pmm.Tidy) : (tableFor vm d virt create flags).1.pmm.Tidy := by
  rcases tableFor_pmm vm d virt create flags with hp | hp <;> rw [hp]
  · exact h
  · exact h.alloc

lemma vmmMapAlloc_tidy (h : vm.pmm.Tidy) : (vmmMapAlloc vm d virt flags).1.pmm.Tidy := by
  rcases vmmMapAlloc_pmm vm d virt flags with hp | hp <;> rw [hp]
  · exact h.alloc
  · exact h.alloc.alloc

lemma vmmUnmap_tidy (h : vm.pmm.Tidy) : (vmmUnmap vm d virt).pmm.Tidy := by
  have ht : (tableFor vm d virt false 0).1.pmm.Tidy := tableFor_tidy false h
  rw [vmmUnmap]
  generalize tableFor vm d virt false 0 = r at ht ⊢
  obtain ⟨vm', tab⟩ := r
  dsimp only
  split
  · exact ht
  · split
    · exact ht.free _
    · exact ht

lemma destroyEntry_tidy {di : ℕ} (h : vm.pmm.Tidy) : (destroyEntry d vm di).pmm.Tidy := by
  cases hp : isPresent (vm.mem d di) with
  | false =>
    rw [destroyEntry, hp]
    exact h
  | true =>
    rw [destroyEntry_eq vm d di hp]
    exact (h.frees _).1

lemma destroyEntries_tidy (h : vm.pmm.Tidy) : (destroyEntries d vm).pmm.Tidy :=
  foldl_range (fun (_ : ℕ) (s : Vm) => s.pmm.Tidy) h fun _ _ _ _ hs => destroyEntry_tidy hs

lemma vmmDestroyDir_tidy (h : vm.pmm.Tidy) : (vmmDestroyDir k vm d).pmm.Tidy := by
  have hd : (destroyEntries d vm).pmm.Tidy := destroyEntries_tidy h
  rw [vmmDestroyDir]
  split
  · exact h
  · generalize destroyEntries d vm = s at hd ⊢
    exact hd.free _

def TidyStep (page : Word → Word → Vm → ℕ → Except Vm Vm) : Prop :=
  ∀ srcTab dstTab vm ti, vm.pmm.Tidy →
    Outcome (fun s : Vm => s.pmm.Tidy) (fun s : Vm => s.pmm.Tidy) (page srcTab dstTab vm ti)

lemma copyPage_tidy : TidyStep copyPage := by
  intro srcTab dstTab vm ti h
  have ha := h.alloc
  rw [copyPage]
  generalize pmmAlloc vm.pmm = r at ha ⊢
  obtain ⟨p, frame⟩ := r
  dsimp only
  split
  · exact .ok h
  · split
    · exact .error ha
    · exact .ok ha

lemma sharePage_tidy : TidyStep sharePage := by
  intro srcTab dstTab vm ti h
  rw [sharePage]
  dsimp only
  split
  · exact .ok h
  · exact .ok (h.incref _)

lemma cloneWith_tidy {page : Word → Word → Vm → ℕ → Except Vm Vm} (hpage : TidyStep page) (src : Word)
    (h : vm.pmm.Tidy) : (cloneWith k page vm src).1.pmm.Tidy := by
  have hc : (vmmCreateDir k vm).1.pmm.Tidy := vmmCreateDir_tidy h
  rw [cloneWith]
  generalize vmmCreateDir k vm = r at hc ⊢
  obtain ⟨vm', dst⟩ := r
  dsimp only
  split
  · exact h
  split
  · exact hc
  have hloop := foldlM_range (f := cloneEntry page src dst) (fun _ s => s.pmm.Tidy) (fun s : Vm => s.pmm.Tidy)
    (a := 2) (n := 1022) hc fun di s _ _ hs => by
      have ha := hs.alloc
      rw [cloneEntry]
      generalize pmmAlloc s.pmm = r at ha ⊢
      obtain ⟨p, tab⟩ := r
      dsimp only
      split
      · exact .ok hs
      · split
        · exact .error ha
        · rw [List.range_eq_range']
          refine foldlM_range (fun _ s => s.pmm.Tidy)
            (fun s : Vm => s.pmm.Tidy) ?_ fun ti s' _ _ hs' => hpage _ _ s' ti hs'
          exact ha
  generalize (List.range' 2 1022).foldlM (cloneEntry page src dst) vm' = res at hloop ⊢
  cases hloop with
  | ok hs => exact hs
  | error hs => exact vmmDestroyDir_tidy hs

lemma vmmCowHandle_tidy (h : vm.pmm.Tidy) : (vmmCowHandle vm d va code).1.pmm.Tidy := by
  rcases vmmCowHandle_pmm vm d va code with hp | hp | ⟨f, -, hp⟩ <;> rw [hp]
  · exact h
  · exact h.alloc
  · exact h.alloc.free f

lemma VmOp.tidy (op : VmOp) (h : vm.pmm.Tidy) : (op.apply k vm).pmm.Tidy := by
  cases op with
  | create => exact vmmCreateDir_tidy h
  | mapAlloc d virt flags => exact vmmMapAlloc_tidy h
  | unmap d virt => exact vmmUnmap_tidy h
  | cloneDir src => exact cloneWith_tidy copyPage_tidy src h
  | cloneCow src => exact cloneWith_tidy sharePage_tidy src h
  | cowHandle d virt err => exact vmmCowHandle_tidy h
  | destroy d => exact vmmDestroyDir_tidy h

lemma VmRun.tidy {vm₀ : Vm} (h : VmRun k vm₀ vm) (h₀ : vm₀.pmm.Tidy) : vm.pmm.Tidy := by
  induction h with
  | start => exact h₀
  | step op _ _ ih => exact op.tidy ih

end pool

/-! ### Runs -/

variable {k : BootDir} {u u₀ : Mmu}

structure Mmu.Fit (k : BootDir) (u : Mmu) : Prop where
  backed : ∃ L, Backed k L u.vm
  tidy : u.vm.pmm.Tidy

lemma MmuOp.tidy (op : MmuOp) (h : u.Fit k) (hop : op.Allowed k u) : (op.apply k u).vm.pmm.Tidy := by
  obtain ⟨L, hb⟩ := h.backed
  cases op with
  | vm op => exact op.tidy h.tidy
  | promise dir start stop flags => exact h.tidy
  | unpromise => exact h.tidy
  | switch d => exact h.tidy
  | load va user => exact (loadByte_serviced user hb hop.1 hop.2).run.tidy h.tidy
  | store va b user =>
    obtain ⟨u', hs, hcase⟩ := storeByte_cases b user hb hop.1 hop.2
    have ht := hs.run.tidy h.tidy
    rw [MmuOp.apply]
    rcases hcase with hst | ⟨e, i, w, _, hst⟩
    · rw [hst]
      exact ht
    · rw [hst]
      exact ht

lemma MmuRun.fit (h : MmuRun k (MmuOp.Allowed k) u₀ u) (h₀ : u₀.Fit k) : u.Fit k := by
  induction h with
  | start => exact h₀
  | step op _ hop ih =>
    obtain ⟨L, hb⟩ := ih.backed
    exact ⟨(op.step hb hop).1, op.tidy ih hop⟩

lemma boot_fit {first second memBytes : Word} {m : PhysMem} (ht : BootTables k first second) :
    (bootWith k first second memBytes m).mmu.Fit k := ⟨⟨0, boot_backed ht⟩, Pmm.Tidy.install memBytes⟩

end PyroOS
