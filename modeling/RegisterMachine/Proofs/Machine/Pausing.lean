import RegisterMachine.Proofs.Machine.Recording

/-!
# Pausing a run

A budget cuts a run after a number of steps, and nothing else crosses the cut but the machine. So a
run that pauses and goes on with a further budget is the run with both budgets together, a run that
ends within its budget ends alike within a larger one, and an unlimited run from a pause returns
what it returns from the start (`PausesTransparently`). The sum of the budgets must be a budget
itself: one that wraps around to zero would be no limit at all.
-/

namespace RegisterMachine.Machine

variable {σ : Type}

/-- What a pause after a budget of `a` is to the runs that go on from it, for a further budget of
`b` or for none. -/
structure PausesTransparently (programSize : UInt16) (a b : UInt32) (machine : Machine σ) :
    Prop where
  /-- The run that goes on from the pause ends as the longer run does. -/
  resumes : ∀ fuel mid, (run fuel programSize a).run machine = .ok (some .paused) mid →
    (run fuel programSize b).run mid = (run fuel programSize (a + b)).run machine
  /-- A run that finishes before the pause finishes there. -/
  finishes : ∀ fuel final, (run fuel programSize a).run machine = .ok (some .finished) final →
    (run fuel programSize (a + b)).run machine = .ok (some .finished) final
  /-- A run that faults before the pause faults there. -/
  faults : ∀ fuel fault final, (run fuel programSize a).run machine = .error fault final →
    (run fuel programSize (a + b)).run machine = .error fault final
  /-- An unlimited run returns from the pause exactly what it returns from the start. -/
  unlimited : ∀ fuel mid, (run fuel programSize a).run machine = .ok (some .paused) mid →
    ∀ outcome final, Returns programSize 0 mid outcome final ↔
      Returns programSize 0 machine outcome final

/-- A run with a budget is the bounded run of so many steps. -/
theorem run_run_of_ne_zero {budget : UInt32} (h : budget ≠ 0) (fuel : Nat) (programSize : UInt16)
    (machine : Machine σ) :
    (run fuel programSize budget).run machine =
      match (runSteps programSize budget.toNat).run machine with
      | .ok outcome final => .ok (some outcome) final
      | .error fault final => .error fault final := by
  rw [run, if_neg h, EStateM.run_bind]
  cases (runSteps programSize budget.toNat).run machine <;> rfl

/-- A run cut into two by a pause is the run in one piece. -/
theorem pausesTransparently {a b : UInt32} (ha : a ≠ 0) (hb : b ≠ 0)
    (hsum : a.toNat + b.toNat < UInt32.size) (programSize : UInt16) (machine : Machine σ) :
    PausesTransparently programSize a b machine := by
  have htotal : (a + b).toNat = a.toNat + b.toNat := by
    rw [UInt32.toNat_add]
    exact Nat.mod_eq_of_lt hsum
  have hab : a + b ≠ 0 := fun hzero => by
    have ha' : a.toNat ≠ 0 := fun h => ha (UInt32.toNat_inj.mp h)
    rw [hzero, UInt32.toNat_zero] at htotal
    omega
  have hle (fuel : Nat) : stepLimit fuel a ≤ stepLimit fuel (a + b) := by
    rw [stepLimit_of_ne_zero ha, stepLimit_of_ne_zero hab, htotal]
    exact Nat.le_add_right ..
  refine ⟨fun fuel mid hpaused => ?_, fun fuel final hfinished => ?_,
    fun fuel fault final hfault => ?_, fun fuel mid hpaused outcome final => ?_⟩
  · obtain ⟨-, hreaches⟩ := run_eq_paused_iff.mp hpaused
    rw [run_run_of_ne_zero hb, run_run_of_ne_zero hab, htotal, hreaches.runSteps_run]
  · obtain ⟨k, hk, hends⟩ := run_eq_finished_iff.mp hfinished
    exact run_eq_finished_iff.mpr ⟨k, Nat.lt_of_lt_of_le hk (hle fuel), hends⟩
  · obtain ⟨k, hk, hends⟩ := run_eq_fault_iff.mp hfault
    exact run_eq_fault_iff.mpr ⟨k, Nat.lt_of_lt_of_le hk (hle fuel), hends⟩
  · obtain ⟨-, hreaches⟩ := run_eq_paused_iff.mp hpaused
    rw [returns_zero_iff, returns_zero_iff]
    constructor
    · rintro ⟨k, cause, hends, hanswer⟩
      exact ⟨a.toNat + k, cause, hreaches.ends_iff.mpr hends, hanswer⟩
    · rintro ⟨k, cause, hends, hanswer⟩
      -- The end lies behind the pause.
      obtain ⟨rest, rfl⟩ := Nat.exists_eq_add_of_le (hends.le_of_reaches hreaches)
      exact ⟨rest, cause, hreaches.ends_iff.mp hends, hanswer⟩

/-- Pausing is transparent, and what is recorded of the calls of the interrupt handler goes on from
a pause as well. -/
theorem pausing_is_transparent {a b : UInt32} (ha : a ≠ 0) (hb : b ≠ 0)
    (hsum : a.toNat + b.toNat < UInt32.size) (programSize : UInt16) (machine : Machine σ) :
    PausesTransparently programSize a b machine ∧
      PausesTransparently programSize a b machine.recording :=
  ⟨pausesTransparently ha hb hsum programSize machine,
    pausesTransparently ha hb hsum programSize machine.recording⟩

/-- A machine paused with its skip pending, before it has called its handler. -/
theorem pausing_is_transparent_calling :
    ∃ mid, (run 0 0 1).run calling.recording = .ok (some .paused) mid ∧ mid.skipPending = true ∧
      (run 0 0 3).run mid = (run 0 0 4).run calling.recording ∧
      ∃ final, (run 0 0 4).run calling.recording = .ok (some .finished) final ∧
        final.executed = 3 ∧ final.handler.map (·.state.1) = some 1 := by
  obtain ⟨mid, hpaused, hskip⟩ : ∃ mid,
      (run 0 0 1).run calling.recording = .ok (some .paused) mid ∧ mid.skipPending = true :=
    ⟨_, rfl, rfl⟩
  exact ⟨mid, hpaused, hskip,
    (pausing_is_transparent (by decide) (by decide) (by decide) 0 calling).2.resumes 0 mid hpaused,
    _, rfl, rfl, rfl⟩

end RegisterMachine.Machine
