import RegisterMachine.Proofs.Machine.Recording
import RegisterMachine.Proofs.Machine.Sessions

/-!
# The pending skip

A skip is pending exactly when the last step was an executed `skipz` of register id zero or an
executed `skipnz` of another one (`Event.Arms`). That is a fact about single steps
(`Completes.skipPending_after`), which the log of a session carries over pauses, faults, stops and
what the host does between runs.

A pending skip is spent on the next instruction, whatever it is: passing over it is all that the
step does (`Machine.passed`). Where there is no instruction to pass over, the skip stays pending.
-/

namespace RegisterMachine

/-- The step makes a skip pending. The condition is on the register id. -/
def Event.Arms {σ : Type} (event : Event σ) : Prop :=
  event.Executes (.skipz 0) ∨ ∃ id ≠ 0, event.Executes (.skipnz id)

namespace Machine

variable {σ : Type} {machine : Machine σ}

/-- What an executed instruction makes of the pending skip. -/
theorem skipPending_changed (hskip : machine.skipPending = false) (next : UInt32)
    (instruction : Instruction) :
    (machine.changed next instruction).skipPending = true ↔
      instruction = .skipz 0 ∨ ∃ id ≠ 0, instruction = .skipnz id := by
  cases instruction with
  | skipz id => simp [changed]
  | skipnz id => simp [changed]
  | syscall code =>
    have hinterrupted : (machine.interrupted code).skipPending = false := by
      rw [interrupted_eq]
      exact hskip
    simp [changed, hinterrupted]
  | _ => simp [changed, writeId, writeWord, setRegister, hskip]

end Machine

/-- After a step a skip is pending exactly if the step has made it so. -/
theorem Event.Completes.skipPending_after {σ : Type} {event : Event σ} {programSize : UInt16}
    (h : event.Completes programSize) : event.after.skipPending = true ↔ event.Arms := by
  unfold Event.Arms Event.Executes
  rcases h.after_cases with ⟨hskip, hafter⟩ | ⟨hskip, hafter⟩
  · rw [hafter, Machine.skipPending_leaving]
    simp [hskip, Machine.skippedTo, Machine.setRegister]
  · have hchanged := Machine.skipPending_changed hskip event.next event.instruction
    rw [hafter, Machine.skipPending_leaving]
    simpa [hskip, Machine.executedTo, Machine.setRegister] using hchanged

namespace Machine

variable {σ : Type} {machine final : Machine σ} {events : List (Event σ)}
  {programSize : UInt16} {instruction : Instruction} {next : UInt32}

/-- The last step of a list of them makes a skip pending. -/
def EndsArmed (events : List (Event σ)) : Prop :=
  ∃ event, events.getLast? = some event ∧ event.Arms

/-- Steps decide about the pending skip by the last of them, if there are any. -/
theorem Leads.skipPending_iff (h : Leads programSize machine events final)
    {earlier : List (Event σ)} (hearlier : machine.skipPending = true ↔ EndsArmed earlier) :
    final.skipPending = true ↔ EndsArmed (earlier ++ events) := by
  rw [h.eq_getLast?]
  unfold EndsArmed at hearlier ⊢
  rw [List.getLast?_append]
  cases hlast : events.getLast? with
  | none => simpa using hearlier
  | some event =>
    have hcompletes := h.completes (List.mem_of_getLast? hlast)
    simpa using hcompletes.skipPending_after

/-- A skip is pending exactly when the last step of the log has made it so. -/
theorem Logged.skipPending_iff (h : Logged events machine) :
    machine.skipPending = true ↔ EndsArmed events := by
  -- A fresh log has no last step.
  have hfresh : EndsArmed ([] : List (Event σ)) ↔ False :=
    ⟨fun ⟨_, hlast, _⟩ => (nomatch hlast), False.elim⟩
  induction h with
  | create policy rom ram stackSize =>
    rw [hfresh]
    exact ⟨nofun, False.elim⟩
  | @act events machine _ action ih =>
    cases hedit : action.isEdit with
    | true =>
      rw [(afterAction_of_isEdit hedit).1, Action.log_of_isEdit hedit]
      exact ih
    | false =>
      cases action with
      | run fuel programSize budget =>
        rw [afterAction_run]
        exact (leads_run fuel programSize budget machine).skipPending_iff ih
      | reset =>
        rw [Action.log, hfresh]
        exact ⟨nofun, False.elim⟩
      | _ => cases hedit

/-! ## Passing over an instruction -/

/-- The machine that has passed over an instruction and goes on at an address. -/
def passed (machine : Machine σ) (next : UInt32) : Machine σ :=
  { machine with
    registers := machine.registers.set .ip next
    skipPending := false
    executed := machine.executed + 1 }

/-- What a machine with a pending skip does. -/
structure SkipsNext (machine : Machine σ) : Prop where
  /-- It fetches a complete instruction, whatever the operands are. -/
  fetches : ∀ instruction rest,
    machine.rom.bytes.toList.drop (machine.register .ip).toNat =
      Instruction.encode instruction ++ rest →
    ∃ next, Exec.fetch.run machine = .ok (instruction, next) machine ∧
      next.toNat = (machine.register .ip).toNat + instruction.encode.length
  /-- It passes over what it fetches. -/
  passes : ∀ instruction next, Exec.fetch.run machine = .ok (instruction, next) machine →
    ∀ programSize, Advances programSize machine (machine.passed next)
  /-- The interrupt handler is not called. -/
  calls : ∀ instruction next, Exec.fetch.run machine = .ok (instruction, next) machine →
    ∀ programSize, Advances programSize machine.recording (machine.passed next).recording
  /-- Where the fetch is refused, so is every run, and the machine stays as it is. -/
  refused : ∀ fault faulted, Exec.fetch.run machine = .error fault faulted →
    ∀ fuel programSize budget,
      (run (fuel + 1) programSize budget).run machine = .error fault machine

/-- A machine with a pending skip passes over what it fetches. -/
theorem advances_passed (hskip : machine.skipPending = true)
    (h : machine.fetched = .ok (instruction, next)) (programSize : UInt16) :
    Advances programSize machine (machine.passed next) := by
  refine ⟨machine.skippedTo next, step_eq_ok_iff.mpr ⟨instruction, next, ?_, ?_, ?_⟩, rfl⟩
  · rw [verdict_of_fetched h, if_pos hskip]
  · rw [signal, if_pos hskip]
  · rw [after, if_pos hskip]

/-- The next step of a machine with a pending skip is all that a skip may be. -/
theorem skipsNext (hskip : machine.skipPending = true) : machine.SkipsNext where
  fetches instruction rest h := by
    obtain ⟨next, hfetched, hnext⟩ := fetched_of_encode h
    exact ⟨next, fetch_eq_ok_iff.mpr ⟨hfetched, rfl⟩, hnext⟩
  passes instruction next h := advances_passed hskip (fetch_eq_ok_iff.mp h).1
  calls instruction next h programSize := by
    have hskip' : machine.recording.skipPending = true := hskip
    have hfetched : machine.recording.fetched = .ok (instruction, next) :=
      (fetch_eq_ok_iff.mp h).1
    exact advances_passed hskip' hfetched programSize
  refused fault faulted h := by
    have hverdict (programSize : UInt16) : machine.verdict programSize = .error fault := by
      unfold verdict
      rw [(fetch_eq_error_iff.mp h).1]
      rfl
    exact fun fuel programSize budget =>
      (Concludes.fault (step_eq_error_iff.mpr ⟨hverdict programSize, rfl⟩)).run_run fuel budget

/-- A skip is pending exactly after an executed `skipz` of register id zero or an executed `skipnz`
of another one, and the next step spends it on whatever instruction there is. -/
theorem skip_is_pending_iff_armed (h : Logged events machine) :
    (machine.skipPending = true ↔ EndsArmed events) ∧
      (machine.skipPending = true → machine.SkipsNext) :=
  ⟨h.skipPending_iff, skipsNext⟩

/-- A machine that passes over a `halt`. -/
theorem skip_is_pending_iff_armed_halt :
    ∃ machine : Machine Unit,
      (run 0 0 1).run (bare ⟨0, #[24, 0, 1], by decide⟩) = .ok (some .paused) machine ∧
        machine.skipPending = true ∧ Advances 0 machine (machine.passed 3) := by
  let start : Machine Unit := bare ⟨0, #[24, 0, 1], by decide⟩
  have hlogged := (Logged.create .checked _ _ 0 : Logged [] start).act (.run 0 0 1)
  obtain ⟨hiff, hskips⟩ := skip_is_pending_iff_armed hlogged
  have harmed := hiff.mpr ⟨_, rfl, .inl ⟨rfl, rfl⟩⟩
  exact ⟨_, rfl, harmed, (hskips harmed).passes .halt 3 rfl 0⟩

end Machine

end RegisterMachine
