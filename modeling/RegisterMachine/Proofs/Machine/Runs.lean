import RegisterMachine.Proofs.Machine.Transition

/-!
# Runs as sequences of steps

A bounded run unfolds into its first step and the run that follows it (`runSteps_succ_run`). The
machine that a run ends in is reached by steps after each of which the run goes on, and then by at
most one more step: none if the budget is used up or the run faults, and a last one if it finishes.
So a run that faults ends in the state in which the shorter run up to the failing step is paused
(`runSteps_error`), and the states along a run are the states in which shorter runs are paused.
-/

namespace RegisterMachine.Machine

variable {σ : Type}

/-- The machine with one more instruction counted. -/
def counted (machine : Machine σ) : Machine σ :=
  { machine with executed := machine.executed + 1 }

/-- How a run goes on after a step, with the steps that remain. -/
def proceed (programSize : UInt16) (budget : Nat) (machine : Machine σ) :
    Flow → EStateM.Result Fault (Machine σ) Outcome
  | .halt => .ok .finished machine
  | .stop => .ok .finished machine.counted
  | .next => (runSteps programSize budget).run machine.counted

/-- A run without a budget is paused where it is. -/
theorem runSteps_zero_run (programSize : UInt16) (machine : Machine σ) :
    (runSteps programSize 0).run machine = .ok .paused machine := rfl

/-- A run takes a step and goes on as the step says. -/
theorem runSteps_succ_run (programSize : UInt16) (budget : Nat) (machine : Machine σ) :
    (runSteps programSize (budget + 1)).run machine =
      machine.resume (machine.verdict programSize) fun (instruction, next) =>
        (machine.after next instruction).proceed programSize budget
          (machine.signal instruction) := by
  rw [runSteps, EStateM.run_bind, step_run]
  cases machine.verdict programSize with
  | error fault => rfl
  | ok taken =>
    simp only [resume_ok]
    cases machine.signal taken.1 with
    | halt => rfl
    | stop => rfl
    | next => rfl

/-- A run that faults reaches its final state by steps that complete, and it is there that a step
faults. The states on the way belong to shorter runs. -/
theorem runSteps_error {programSize : UInt16} {budget : Nat} {machine final : Machine σ}
    {fault : Fault} (h : (runSteps programSize budget).run machine = .error fault final) :
    ∃ k < budget, (runSteps programSize k).run machine = .ok .paused final ∧
      (step programSize).run final = .error fault final := by
  -- A step that goes on leaves the fault to the rest of the run, which has one step less.
  induction budget generalizing machine with
  | zero => rw [runSteps_zero_run] at h; cases h
  | succ budget ih =>
    rw [runSteps_succ_run] at h
    cases hv : machine.verdict programSize with
    | error fault' =>
      rw [hv, resume_error] at h
      cases h
      refine ⟨0, by omega, runSteps_zero_run .., ?_⟩
      rw [step_run, hv, resume_error]
    | ok taken =>
      obtain ⟨instruction, next⟩ := taken
      rw [hv, resume_ok] at h
      cases hs : machine.signal instruction with
      | halt => simp only [hs, proceed] at h; cases h
      | stop => simp only [hs, proceed] at h; cases h
      | next =>
        simp only [hs, proceed] at h
        obtain ⟨k, hk, hpaused, hfault⟩ := ih h
        refine ⟨k + 1, by omega, ?_, hfault⟩
        rw [runSteps_succ_run, hv, resume_ok]
        simp only [hs, proceed]
        exact hpaused

/-! ## Runs with a budget of zero -/

/-- The steps that a run may take: its budget, and for a budget of zero the fuel. -/
def stepLimit (fuel : Nat) (budget : UInt32) : Nat :=
  if budget = 0 then fuel else budget.toNat

/-- What a run answers: nothing, if it was unlimited and used up its fuel. -/
def answer (budget : UInt32) : Outcome → Option Outcome
  | .finished => some .finished
  | .paused => if budget = 0 then none else some .paused

/-- A budget that is not zero is the bound on the steps. -/
theorem stepLimit_of_ne_zero {budget : UInt32} (h : budget ≠ 0) (fuel : Nat) :
    stepLimit fuel budget = budget.toNat := if_neg h

/-- The answer is how the bounded run ends, and only a run with a budget is paused. -/
theorem answer_eq_some_iff {budget : UInt32} {outcome answered : Outcome} :
    answer budget outcome = some answered ↔
      outcome = answered ∧ (outcome = .paused → budget ≠ 0) := by
  cases outcome with
  | finished => simp [answer]
  | paused => by_cases h : budget = 0 <;> simp [answer, h]

/-- A run is a bounded run, of which it passes on the answer. -/
theorem run_run (fuel : Nat) (programSize : UInt16) (budget : UInt32) (machine : Machine σ) :
    (run fuel programSize budget).run machine =
      match (runSteps programSize (stepLimit fuel budget)).run machine with
      | .ok outcome final => .ok (answer budget outcome) final
      | .error fault final => .error fault final := by
  unfold run stepLimit
  -- With a budget of zero a pause says that the fuel is used up, and is no answer.
  by_cases h : budget = 0
  · rw [if_pos h, if_pos h, EStateM.run_bind]
    cases (runSteps programSize fuel).run machine with
    | error fault final => rfl
    | ok outcome final =>
      cases outcome with
      | finished => rfl
      | paused => simp only [answer, if_pos h]; rfl
  · rw [if_neg h, if_neg h, EStateM.run_bind]
    cases (runSteps programSize budget.toNat).run machine with
    | error fault final => rfl
    | ok outcome final =>
      cases outcome with
      | finished => rfl
      | paused => simp only [answer, if_neg h]; rfl

/-- What a fault of a bounded run is to the run. -/
theorem run_eq_error_iff {fuel : Nat} {programSize : UInt16} {budget : UInt32}
    {machine final : Machine σ} {fault : Fault} :
    (run fuel programSize budget).run machine = .error fault final ↔
      (runSteps programSize (stepLimit fuel budget)).run machine = .error fault final := by
  rw [run_run]
  cases (runSteps programSize (stepLimit fuel budget)).run machine with
  | ok outcome final => simp
  | error fault final => simp

/-! ## Where runs end -/

/-- A run ends where the bounded run does. -/
theorem ending_run_run (fuel : Nat) (programSize : UInt16) (budget : UInt32)
    (machine : Machine σ) :
    ending ((run fuel programSize budget).run machine) =
      ending ((runSteps programSize (stepLimit fuel budget)).run machine) := by
  rw [run_run]
  cases (runSteps programSize (stepLimit fuel budget)).run machine <;> rfl

/-- The result with another machine in the place of the one that it ends in. -/
def mapEnding {α τ : Type} (f : Machine σ → Machine τ) :
    EStateM.Result Fault (Machine σ) α → EStateM.Result Fault (Machine τ) α
  | .ok value final => .ok value (f final)
  | .error fault final => .error fault (f final)

/-- A run is a bounded run of which it passes on the answer, with whatever machine in the place of
the one that it ends in. -/
theorem mapEnding_run_run {τ : Type} (f : Machine σ → Machine τ) (fuel : Nat)
    (programSize : UInt16) (budget : UInt32) (machine : Machine σ) :
    mapEnding f ((run fuel programSize budget).run machine) =
      match mapEnding f ((runSteps programSize (stepLimit fuel budget)).run machine) with
      | .ok outcome final => .ok (answer budget outcome) final
      | .error fault final => .error fault final := by
  rw [run_run]
  cases (runSteps programSize (stepLimit fuel budget)).run machine <;> rfl

/-- What is so for bounded runs is so for runs. -/
theorem run_run_eq_mapEnding {τ : Type} {f : Machine σ → Machine τ} {fuel : Nat}
    {programSize : UInt16} {budget : UInt32} {machine : Machine σ} {machine' : Machine τ}
    (h : (runSteps programSize (stepLimit fuel budget)).run machine' =
      mapEnding f ((runSteps programSize (stepLimit fuel budget)).run machine)) :
    (run fuel programSize budget).run machine' =
      mapEnding f ((run fuel programSize budget).run machine) := by
  rw [mapEnding_run_run, run_run, h]

/-! ## What runs preserve -/

section

variable {holds : Machine σ → Prop} {programSize : UInt16}

/-- What every step preserves, and counting it, every bounded run preserves. -/
theorem ending_runSteps
    (hafter : ∀ machine instruction next, holds machine →
      machine.verdict programSize = .ok (instruction, next) →
      holds (machine.after next instruction))
    (hcounted : ∀ machine, holds machine → holds machine.counted) (budget : Nat)
    {machine : Machine σ} (h : holds machine) :
    holds (ending ((runSteps programSize budget).run machine)) := by
  induction budget generalizing machine with
  | zero => exact h
  | succ budget ih =>
    rw [runSteps_succ_run]
    cases hv : machine.verdict programSize with
    -- A refused step leaves the machine as it is.
    | error fault => exact h
    | ok taken =>
      obtain ⟨instruction, next⟩ := taken
      have hnext := hafter machine instruction next h hv
      rw [resume_ok]
      dsimp only
      cases hs : machine.signal instruction with
      | halt => exact hnext
      | stop => exact hcounted _ hnext
      | next => exact ih (hcounted _ hnext)

/-- What every step preserves, and counting it, every run preserves, within its budget or without
one. -/
theorem ending_run
    (hafter : ∀ machine instruction next, holds machine →
      machine.verdict programSize = .ok (instruction, next) →
      holds (machine.after next instruction))
    (hcounted : ∀ machine, holds machine → holds machine.counted) (fuel : Nat) (budget : UInt32)
    {machine : Machine σ} (h : holds machine) :
    holds (ending ((run fuel programSize budget).run machine)) := by
  rw [ending_run_run]
  exact ending_runSteps hafter hcounted (stepLimit fuel budget) h

end

end RegisterMachine.Machine
