import RegisterMachine.Proofs.Machine.Endings

/-!
# Faults and halts persist

A step that is refused has changed nothing, and neither has a step that finds a halt. So the machine
that such a step leaves is the one it was taken from, and it ends every further run at once and in
the same way (`faults_and_halts_persist`). A fault may depend on the lower end of the stack that the
run was given, a halt does not.
-/

namespace RegisterMachine.Machine

variable {σ : Type} {programSize : UInt16} {machine final : Machine σ}

/-- Only a `halt` halts. -/
theorem flow_eq_halt_iff {instruction : Instruction} :
    machine.flow instruction = .halt ↔ instruction = .halt := by
  cases instruction with
  | syscall code =>
    change (if _ then Flow.next else Flow.stop) = _ ↔ _
    split <;> simp
  | _ => simp [flow]

/-- A step halts at a `halt` that is not skipped, and leaves the machine as it was. -/
theorem step_eq_halt_iff :
    (step programSize).run machine = .ok .halt final ↔
      machine.skipPending = false ∧ (∃ next, machine.fetched = .ok (.halt, next)) ∧
        final = machine := by
  constructor
  · intro h
    obtain ⟨instruction, next, hverdict, hsignal, rfl⟩ := step_eq_ok_iff.mp h
    cases hskip : machine.skipPending with
    | true =>
      -- What is skipped does not halt.
      rw [signal, if_pos hskip] at hsignal
      cases hsignal
    | false =>
      rw [signal, hskip, if_neg Bool.false_ne_true, flow_eq_halt_iff] at hsignal
      subst hsignal
      refine ⟨rfl, ⟨next, fetched_of_verdict hverdict⟩, ?_⟩
      rw [after, hskip, if_neg Bool.false_ne_true, executedTo_halt]
  · rintro ⟨hskip, ⟨next, hfetched⟩, rfl⟩
    refine step_eq_ok_iff.mpr ⟨.halt, next, ?_, ?_, ?_⟩
    · rw [verdict_of_fetched hfetched, hskip]
      rfl
    · rw [signal, hskip]
      rfl
    · rw [after, hskip, if_neg Bool.false_ne_true, executedTo_halt]

/-- A step that ends the run with a fault or at a halt leaves the machine as it was. -/
theorem Concludes.eq_of_ne_stop {cause : Cause} (h : Concludes programSize machine cause final)
    (hcause : cause ≠ .stop) : final = machine := by
  cases h with
  | halt hstep => exact (step_eq_halt_iff.mp hstep).2.2
  | stop hstep => exact absurd rfl hcause
  | fault hstep => exact (step_eq_error_iff.mp hstep).2

/-- A run that faults has taken steps that complete up to the one that is refused, which changes
nothing: every further run reports the fault again and changes nothing either. A run that has come
to a halt halts again. -/
theorem faults_and_halts_persist (fuel : Nat) (programSize : UInt16) (budget : UInt32)
    (machine final : Machine σ) :
    (∀ fault, (run fuel programSize budget).run machine = .error fault final →
      (∃ k < stepLimit fuel budget, Reaches programSize k machine final) ∧
        (step programSize).run final = .error fault final ∧
        ∀ fuel' budget', (run (fuel' + 1) programSize budget').run final = .error fault final) ∧
    (∀ k < stepLimit fuel budget, Ends programSize k machine .halt final →
      (run fuel programSize budget).run machine = .ok (some .finished) final ∧
        ∀ fuel' programSize' budget',
          (run (fuel' + 1) programSize' budget').run final = .ok (some .finished) final) := by
  constructor
  · intro fault hrun
    obtain ⟨k, hk, last, hreaches, hconcludes⟩ := run_eq_fault_iff.mp hrun
    obtain rfl := hconcludes.eq_of_ne_stop nofun
    cases hconcludes with
    | fault hstep =>
      exact ⟨⟨k, hk, hreaches⟩, hstep, fun fuel' budget' =>
        (Concludes.fault hstep).run_run fuel' budget'⟩
  · intro k hk hends
    refine ⟨hends.run_run hk, fun fuel' programSize' budget' => ?_⟩
    obtain ⟨last, -, hconcludes⟩ := hends
    obtain rfl := hconcludes.eq_of_ne_stop nofun
    cases hconcludes with
    | halt hstep =>
      -- Where a halt stands does not depend on the lower end of the stack.
      have hhalts : (step programSize').run final = .ok .halt final :=
        step_eq_halt_iff.mpr (step_eq_halt_iff.mp hstep)
      exact (Concludes.halt hhalts).run_run fuel' budget'

/-- A machine that divides by zero after a step that does nothing. -/
def dividing : Machine Unit :=
  bare ⟨0, #[0, 14, 0, 1], by decide⟩

/-- A machine that halts after a step that does nothing. -/
def halting : Machine Unit :=
  bare ⟨0, #[0, 1], by decide⟩

/-- A machine that divides by zero and one that halts, each run again. -/
theorem faults_and_halts_persist_dividing_halting :
    (∃ final, (run 9 0 0).run dividing = .error .divisionByZero final ∧ final.executed = 1 ∧
      ∀ fuel budget, (run (fuel + 1) 0 budget).run final = .error .divisionByZero final) ∧
    ∃ final, Ends 0 1 halting .halt final ∧
      ∀ fuel programSize budget,
        (run (fuel + 1) programSize budget).run final = .ok (some .finished) final := by
  constructor
  · obtain ⟨final, hrun, hexecuted⟩ : ∃ final,
        (run 9 0 0).run dividing = .error .divisionByZero final ∧ final.executed = 1 :=
      ⟨_, rfl, rfl⟩
    exact ⟨final, hrun, hexecuted,
      ((faults_and_halts_persist 9 0 0 dividing final).1 .divisionByZero hrun).2.2⟩
  · obtain ⟨final, hends⟩ : ∃ final, Ends 0 1 halting .halt final :=
      ⟨_, _, .step ⟨_, rfl, rfl⟩ (.refl _), .halt rfl⟩
    exact ⟨final, hends, ((faults_and_halts_persist 9 0 0 halting final).2 1 (by decide) hends).2⟩

end RegisterMachine.Machine
