import RegisterMachine.Machine.Step

/-!
# Runs

A run takes steps until a `halt`, a stop asked for by the interrupt handler, a fault, or the end of
its budget. Every step that completes counts as executed; a `halt` completes no step, so a halted
machine halts again. A budget of zero means no limit.

`runSteps` is the bounded run and total. An unlimited run need not end, so `run` also takes fuel,
the steps after which it gives up an unlimited run with no answer; more fuel never changes an
answer.
-/

namespace RegisterMachine

/-- How a run without a fault ends. -/
inductive Outcome where
  /-- At a `halt`, or because the interrupt handler asked to stop. -/
  | finished
  /-- Because the budget is used up; a further run goes on from there. -/
  | paused
  deriving DecidableEq, Repr

namespace Machine

variable {σ : Type}

/-- Counts an executed instruction. -/
def countExecuted : Exec σ Unit :=
  modify fun machine => { machine with executed := machine.executed + 1 }

/-- Runs for at most the given number of steps. -/
def runSteps (programSize : UInt16) : Nat → Exec σ Outcome
  | 0 => return .paused
  | budget + 1 => do
    match ← step programSize with
    | .halt => return .finished
    | .stop =>
      countExecuted
      return .finished
    | .next =>
      countExecuted
      runSteps programSize budget

/-- Runs for at most `budget` steps, or without limit if it is zero. No word of RAM below offset
`programSize` is popped. The answer is `none` when an unlimited run has not ended after `fuel`
steps. -/
def run (fuel : Nat) (programSize : UInt16) (budget : UInt32) : Exec σ (Option Outcome) := do
  if budget = 0 then
    match ← runSteps programSize fuel with
    | .finished => return some .finished
    | .paused => return none
  else
    return some (← runSteps programSize budget.toNat)

end Machine

end RegisterMachine
