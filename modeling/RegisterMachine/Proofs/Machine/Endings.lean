import RegisterMachine.Proofs.Machine.Runs

/-!
# How runs end

A run is told here by its steps and without its budget. A step that completes and lets the run go on
is an advance (`Advances`), and a number of them leads from one machine to another (`Reaches`). A
run that does not use up its budget takes one more step, which ends it for a `Cause`: a halt, a stop
that the interrupt handler asks for, or a fault (`Ends`).

From every machine, and for every budget, there are as many advances as the budget allows or there
is such an end before (`reaches_or_ends`), and the end of a machine is one (`Ends.unique`). So the
three results of a run say exactly how many steps were taken and what the last of them was
(`run_eq_paused_iff`, `run_eq_finished_iff`, `run_eq_fault_iff`). What an unlimited run returns, if
it returns, does not depend on its fuel (`returns_zero_iff`).
-/

namespace RegisterMachine.Machine

variable {σ : Type} {programSize : UInt16}

/-! ## Steps -/

/-- A step that completes and lets the run go on, counted. -/
def Advances (programSize : UInt16) (machine machine' : Machine σ) : Prop :=
  ∃ stepped, (step programSize).run machine = .ok .next stepped ∧ machine' = stepped.counted

/-- A number of advances. -/
inductive Reaches (programSize : UInt16) : Nat → Machine σ → Machine σ → Prop where
  | refl (machine : Machine σ) : Reaches programSize 0 machine machine
  | step {k : Nat} {machine machine' final : Machine σ}
      (hadvances : Advances programSize machine machine')
      (hreaches : Reaches programSize k machine' final) :
      Reaches programSize (k + 1) machine final

/-- Why a run ends before its budget is used up. -/
inductive Cause where
  /-- It is at a `halt`. -/
  | halt
  /-- The interrupt handler asked to stop. -/
  | stop
  /-- A step was refused. -/
  | fault (fault : Fault)
  deriving DecidableEq, Repr

/-- What a run answers that ends for a cause. -/
def Cause.answer : Cause → Except Fault Outcome
  | .halt | .stop => .ok .finished
  | .fault reason => .error reason

/-- A step that ends the run. A stop completes its step, which counts. -/
inductive Concludes (programSize : UInt16) (machine : Machine σ) : Cause → Machine σ → Prop where
  | halt {final : Machine σ} (hstep : (step programSize).run machine = .ok .halt final) :
      Concludes programSize machine .halt final
  | stop {stopped : Machine σ} (hstep : (step programSize).run machine = .ok .stop stopped) :
      Concludes programSize machine .stop stopped.counted
  | fault {reason : Fault} {final : Machine σ}
      (hstep : (step programSize).run machine = .error reason final) :
      Concludes programSize machine (.fault reason) final

/-- A number of advances and then a step that ends the run. -/
def Ends (programSize : UInt16) (k : Nat) (machine : Machine σ) (cause : Cause)
    (final : Machine σ) : Prop :=
  ∃ last, Reaches programSize k machine last ∧ Concludes programSize last cause final

section

variable {machine machine' final mid : Machine σ} {cause : Cause} {k n : Nat}

/-- A step lets the run go on or ends it. -/
theorem advances_or_concludes (programSize : UInt16) (machine : Machine σ) :
    (∃ machine', Advances programSize machine machine') ∨
      ∃ cause final, Concludes programSize machine cause final := by
  rcases h : (step programSize).run machine with ⟨flow, stepped⟩ | ⟨fault, stepped⟩
  · cases flow with
    | next => exact .inl ⟨stepped.counted, stepped, h, rfl⟩
    | halt => exact .inr ⟨.halt, stepped, .halt h⟩
    | stop => exact .inr ⟨.stop, stepped.counted, .stop h⟩
  · exact .inr ⟨.fault fault, stepped, .fault h⟩

/-- An advance leads to one machine. -/
theorem Advances.unique (h : Advances programSize machine machine')
    {machine'' : Machine σ} (h' : Advances programSize machine machine'') :
    machine' = machine'' := by
  obtain ⟨stepped, hstep, rfl⟩ := h
  obtain ⟨stepped', hstep', rfl⟩ := h'
  cases hstep.symm.trans hstep'
  rfl

/-- A step that lets the run go on does not end it. -/
theorem Advances.not_concludes (h : Advances programSize machine machine') :
    ¬ Concludes programSize machine cause final := by
  obtain ⟨stepped, hnext, -⟩ := h
  rintro (hstep | hstep | hstep) <;> exact nomatch hnext.symm.trans hstep

/-- A step ends the run in one way. -/
theorem Concludes.unique (h : Concludes programSize machine cause final) {cause' : Cause}
    {final' : Machine σ} (h' : Concludes programSize machine cause' final') :
    cause = cause' ∧ final = final' := by
  rcases h with hstep | hstep | hstep <;> rcases h' with hstep' | hstep' | hstep' <;>
    cases hstep.symm.trans hstep' <;> exact ⟨rfl, rfl⟩

/-! ## Steps in a row -/

/-- Advances one after the other add up. -/
theorem Reaches.trans (h : Reaches programSize k machine mid)
    (h' : Reaches programSize n mid final) : Reaches programSize (k + n) machine final := by
  induction h with
  | refl =>
    rw [Nat.zero_add]
    exact h'
  | step hadvances _ ih =>
    rw [Nat.add_right_comm]
    exact .step hadvances (ih h')

/-- Advances one after the other may be cut anywhere. -/
theorem Reaches.split (h : Reaches programSize (k + n) machine final) :
    ∃ mid, Reaches programSize k machine mid ∧ Reaches programSize n mid final := by
  induction k generalizing machine with
  | zero =>
    rw [Nat.zero_add] at h
    exact ⟨machine, .refl machine, h⟩
  | succ k ih =>
    rw [Nat.add_right_comm] at h
    cases h with
    | step hadvances hreaches =>
      obtain ⟨mid, hfirst, hsecond⟩ := ih hreaches
      exact ⟨mid, .step hadvances hfirst, hsecond⟩

/-- A number of advances leads to one machine. -/
theorem Reaches.unique (h : Reaches programSize k machine final) {final' : Machine σ}
    (h' : Reaches programSize k machine final') : final = final' := by
  induction h with
  | refl =>
    cases h'
    rfl
  | step hadvances _ ih =>
    cases h' with
    | step hadvances' hreaches' =>
      rw [hadvances'.unique hadvances] at hreaches'
      exact ih hreaches'

/-- What ends a run from a machine ends the runs that lead to the machine. -/
theorem Reaches.ends_iff (h : Reaches programSize k machine mid) :
    Ends programSize (k + n) machine cause final ↔ Ends programSize n mid cause final := by
  constructor
  · rintro ⟨last, hlast, hconcludes⟩
    obtain ⟨mid', hmid, hrest⟩ := hlast.split
    rw [← h.unique hmid] at hrest
    exact ⟨last, hrest, hconcludes⟩
  · rintro ⟨last, hlast, hconcludes⟩
    exact ⟨last, h.trans hlast, hconcludes⟩

/-- A step that ends the run ends it after no advances. -/
theorem Concludes.ends (h : Concludes programSize machine cause final) :
    Ends programSize 0 machine cause final :=
  ⟨machine, .refl machine, h⟩

/-- There are no more advances than lead to the end. -/
theorem Ends.le_of_reaches (h : Ends programSize k machine cause final)
    (hreaches : Reaches programSize n machine mid) : n ≤ k := by
  obtain ⟨last, hlast, hconcludes⟩ := h
  refine Nat.le_of_not_lt fun hlt => ?_
  obtain ⟨extra, rfl⟩ := Nat.exists_eq_add_of_lt hlt
  rw [Nat.add_assoc] at hreaches
  obtain ⟨last', hlast', hrest⟩ := hreaches.split
  rw [← hlast.unique hlast'] at hrest
  -- The machine that the run ends at would have to advance.
  cases hrest with
  | step hadvances _ => exact hadvances.not_concludes hconcludes

/-- After an advance the end is one step nearer. -/
theorem Ends.of_advances (h : Ends programSize k machine cause final)
    (hadvances : Advances programSize machine machine') :
    ∃ rest, k = 1 + rest ∧ Ends programSize rest machine' cause final := by
  have hreaches : Reaches programSize 1 machine machine' := .step hadvances (.refl machine')
  obtain ⟨rest, rfl⟩ := Nat.exists_eq_add_of_le (h.le_of_reaches hreaches)
  exact ⟨rest, rfl, hreaches.ends_iff.mp h⟩

/-- A machine has one end. -/
theorem Ends.unique (h : Ends programSize k machine cause final) {k' : Nat} {cause' : Cause}
    {final' : Machine σ} (h' : Ends programSize k' machine cause' final') :
    k = k' ∧ cause = cause' ∧ final = final' := by
  obtain ⟨last, hlast, hconcludes⟩ := h
  obtain ⟨last', hlast', hconcludes'⟩ := h'
  have hk : k = k' := Nat.le_antisymm (Ends.le_of_reaches ⟨last', hlast', hconcludes'⟩ hlast)
    (Ends.le_of_reaches ⟨last, hlast, hconcludes⟩ hlast')
  subst hk
  rw [← hlast.unique hlast'] at hconcludes'
  exact ⟨rfl, hconcludes.unique hconcludes'⟩

/-- A machine advances as often as it may, or it ends before. -/
theorem reaches_or_ends (programSize : UInt16) (n : Nat) (machine : Machine σ) :
    (∃ mid, Reaches programSize n machine mid) ∨
      ∃ k < n, ∃ cause final, Ends programSize k machine cause final := by
  induction n generalizing machine with
  | zero => exact .inl ⟨machine, .refl machine⟩
  | succ n ih =>
    rcases advances_or_concludes programSize machine with ⟨machine', hadvances⟩ |
      ⟨cause, final, hconcludes⟩
    · rcases ih machine' with ⟨mid, hreaches⟩ | ⟨k, hk, cause, final, last, hlast, hconcludes⟩
      · exact .inl ⟨mid, .step hadvances hreaches⟩
      · exact .inr ⟨k + 1, Nat.succ_lt_succ hk, cause, final, last, .step hadvances hlast,
          hconcludes⟩
    · exact .inr ⟨0, Nat.zero_lt_succ n, cause, final, hconcludes.ends⟩

/-! ## Runs with a bound -/

/-- A bounded run that starts with an advance is the shorter run after it. -/
theorem Advances.runSteps_run (h : Advances programSize machine machine') (n : Nat) :
    (runSteps programSize (n + 1)).run machine = (runSteps programSize n).run machine' := by
  obtain ⟨stepped, hstep, rfl⟩ := h
  rw [runSteps, EStateM.run_bind, hstep]
  rfl

/-- A run goes on from where it has got as a run of its own does. -/
theorem Reaches.runSteps_run (h : Reaches programSize k machine mid) (n : Nat) :
    (runSteps programSize (k + n)).run machine = (runSteps programSize n).run mid := by
  induction h with
  | refl => rw [Nat.zero_add]
  | step hadvances _ ih => rw [Nat.add_right_comm, hadvances.runSteps_run, ih]

/-- The result of a computation that ends with an answer. -/
def result {α : Type} : Except Fault α → Machine σ → EStateM.Result Fault (Machine σ) α
  | .ok value, final => .ok value final
  | .error fault, final => .error fault final

/-- A bounded run that starts with its last step answers with the cause, whatever is left of the
budget. -/
theorem Concludes.runSteps_run (h : Concludes programSize machine cause final) (n : Nat) :
    (runSteps programSize (n + 1)).run machine = result cause.answer final := by
  rw [runSteps, EStateM.run_bind]
  rcases h with hstep | hstep | hstep <;> rw [hstep] <;> rfl

/-- A run that may go on to the end ends there. -/
theorem Ends.runSteps_run (h : Ends programSize k machine cause final) (hk : k < n) :
    (runSteps programSize n).run machine = result cause.answer final := by
  obtain ⟨last, hreaches, hconcludes⟩ := h
  obtain ⟨extra, rfl⟩ := Nat.exists_eq_add_of_lt hk
  rw [Nat.add_assoc, hreaches.runSteps_run, hconcludes.runSteps_run]

/-! ## Runs -/

variable {fuel : Nat} {budget : UInt32}

/-- A run has advanced as often as it may, or it has ended before, and its result says which. -/
theorem run_reaches_or_ends (fuel : Nat) (programSize : UInt16) (budget : UInt32)
    (machine : Machine σ) :
    (∃ mid, Reaches programSize (stepLimit fuel budget) machine mid ∧
      (run fuel programSize budget).run machine = .ok (answer budget .paused) mid) ∨
    ∃ k < stepLimit fuel budget, ∃ cause final, Ends programSize k machine cause final ∧
      (run fuel programSize budget).run machine = result (cause.answer.map some) final := by
  rcases reaches_or_ends programSize (stepLimit fuel budget) machine with ⟨mid, hreaches⟩ |
    ⟨k, hk, cause, final, hends⟩
  · refine .inl ⟨mid, hreaches, ?_⟩
    rw [run_run, ← Nat.add_zero (stepLimit fuel budget), hreaches.runSteps_run, runSteps_zero_run]
  · refine .inr ⟨k, hk, cause, final, hends, ?_⟩
    rw [run_run, hends.runSteps_run hk]
    cases cause <;> rfl

/-- A run that may go on to the end ends there. -/
theorem Ends.run_run (h : Ends programSize k machine cause final)
    (hk : k < stepLimit fuel budget) :
    (run fuel programSize budget).run machine = result (cause.answer.map some) final := by
  rcases run_reaches_or_ends fuel programSize budget machine with ⟨mid, hreaches, -⟩ |
    ⟨k', -, cause', final', hends, hrun⟩
  · exact absurd (h.le_of_reaches hreaches) (Nat.not_le_of_lt hk)
  · obtain ⟨-, rfl, rfl⟩ := h.unique hends
    exact hrun

/-- A call takes at least one step, if it has any fuel. -/
theorem stepLimit_succ_pos (fuel : Nat) (budget : UInt32) : 0 < stepLimit (fuel + 1) budget := by
  unfold stepLimit
  split
  · exact Nat.succ_pos fuel
  · rename_i hbudget
    exact Nat.pos_of_ne_zero fun hzero => hbudget (UInt32.toNat_inj.mp hzero)

/-- A run from a machine whose next step ends it is that step. -/
theorem Concludes.run_run (h : Concludes programSize machine cause final) (fuel : Nat)
    (budget : UInt32) :
    (run (fuel + 1) programSize budget).run machine = result (cause.answer.map some) final :=
  h.ends.run_run (stepLimit_succ_pos fuel budget)

/-- A run is paused exactly when it has advanced as often as its budget says. -/
theorem run_eq_paused_iff :
    (run fuel programSize budget).run machine = .ok (some .paused) final ↔
      budget ≠ 0 ∧ Reaches programSize budget.toNat machine final := by
  rcases run_reaches_or_ends fuel programSize budget machine with ⟨mid, hreaches, hrun⟩ |
    ⟨k, hk, cause, final', hends, hrun⟩
  · -- All the steps have been taken, and the run is paused if it had a budget.
    rw [hrun]
    constructor
    · intro h
      injection h with hanswer hfinal
      have hbudget := (answer_eq_some_iff.mp hanswer).2 rfl
      rw [stepLimit_of_ne_zero hbudget, hfinal] at hreaches
      exact ⟨hbudget, hreaches⟩
    · rintro ⟨hbudget, hreaches'⟩
      rw [stepLimit_of_ne_zero hbudget] at hreaches
      rw [answer_eq_some_iff.mpr ⟨rfl, fun _ => hbudget⟩, hreaches.unique hreaches']
  · -- The run has ended before that, and nothing is reached past its end.
    rw [hrun]
    constructor
    · intro h
      cases cause <;> cases h
    · rintro ⟨hbudget, hreaches⟩
      rw [stepLimit_of_ne_zero hbudget] at hk
      exact absurd (hends.le_of_reaches hreaches) (Nat.not_le_of_lt hk)

/-- A run is finished exactly when it has come to a halt, or to a stop that the interrupt handler
asked for. -/
theorem run_eq_finished_iff :
    (run fuel programSize budget).run machine = .ok (some .finished) final ↔
      ∃ k < stepLimit fuel budget,
        Ends programSize k machine .halt final ∨ Ends programSize k machine .stop final := by
  constructor
  · intro h
    rcases run_reaches_or_ends fuel programSize budget machine with ⟨mid, -, hrun⟩ |
      ⟨k, hk, cause, final', hends, hrun⟩
    -- A run that has not ended has no answer or is paused.
    · rw [hrun] at h
      injection h with hanswer
      cases (answer_eq_some_iff.mp hanswer).1
    · rw [hrun] at h
      cases cause with
      | halt => cases h; exact ⟨k, hk, .inl hends⟩
      | stop => cases h; exact ⟨k, hk, .inr hends⟩
      | fault reason => cases h
  · rintro ⟨k, hk, hends | hends⟩
    · exact hends.run_run hk
    · exact hends.run_run hk

/-- A run faults exactly when a step on its way is refused. -/
theorem run_eq_fault_iff {fault : Fault} :
    (run fuel programSize budget).run machine = .error fault final ↔
      ∃ k < stepLimit fuel budget, Ends programSize k machine (.fault fault) final := by
  constructor
  · intro h
    rcases run_reaches_or_ends fuel programSize budget machine with ⟨mid, -, hrun⟩ |
      ⟨k, hk, cause, final', hends, hrun⟩
    · rw [hrun] at h
      cases h
    · rw [hrun] at h
      cases cause with
      | halt | stop => cases h
      | fault reason => cases h; exact ⟨k, hk, hends⟩
  · rintro ⟨k, hk, hends⟩
    exact hends.run_run hk

/-- What the call of a run returns, if it does return: with enough fuel there is an answer. -/
def Returns (programSize : UInt16) (budget : UInt32) (machine : Machine σ)
    (outcome : Except Fault Outcome) (final : Machine σ) : Prop :=
  ∃ fuel, (run fuel programSize budget).run machine = result (outcome.map some) final

/-- An unlimited run returns exactly when it comes to an end. -/
theorem returns_zero_iff {outcome : Except Fault Outcome} :
    Returns programSize 0 machine outcome final ↔
      ∃ k cause, Ends programSize k machine cause final ∧ cause.answer = outcome := by
  constructor
  · rintro ⟨fuel, h⟩
    rcases run_reaches_or_ends fuel programSize 0 machine with ⟨mid, -, hrun⟩ |
      ⟨k, -, cause, final', hends, hrun⟩
    -- A run that has used up its fuel has no answer.
    · rw [hrun] at h
      cases outcome <;> cases h
    · rw [hrun] at h
      refine ⟨k, cause, ?_⟩
      cases cause <;> cases outcome <;> cases h <;> exact ⟨hends, rfl⟩
  · rintro ⟨k, cause, hends, rfl⟩
    exact ⟨k + 1, hends.run_run (Nat.lt_succ_self k)⟩

end

/-- A checked machine with a program in ROM and no RAM. -/
def bare (rom : Region) : Machine Unit :=
  create .checked rom ⟨0x8000, #[], by decide⟩ 0

end RegisterMachine.Machine
