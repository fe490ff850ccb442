import Mathlib.Data.List.Pairwise
import PyroOS.Memory.Word

/-! The two loops that wait for the timer, `while (test) hlt;`. An interrupt may come before the test, between the test and
the `hlt`, and in the `hlt`, which it ends. -/

namespace PyroOS

inductive Irq where
  | timer
  | other
  deriving DecidableEq

/-- What happens next: an instruction of the loop, or an interrupt. -/
inductive Moment where
  | step
  | irq (i : Irq)
  deriving DecidableEq

def Moment.tick (tick : Word) : Moment → Word
  | .irq .timer => tick + 1
  | _ => tick

def Moment.ticks : Moment → ℕ
  | .irq .timer => 1
  | _ => 0

/-- Where the processor stands: before the test, between the test and the `hlt`, or halted. -/
inductive HaltLoop where
  | test
  | hlt
  | halted
  deriving DecidableEq

def HaltLoop.next : HaltLoop → Moment → HaltLoop
  | .test, .step => .hlt
  | _, .step => .halted
  | .halted, .irq _ => .test
  | p, .irq _ => p

namespace HaltLoop

end HaltLoop

variable {go : Word → Bool} {t n : Word} {j k : ℕ} {p : HaltLoop} {ms : List Moment} {l : List ℕ} {q : ℕ → Bool}

end PyroOS
