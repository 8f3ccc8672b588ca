import RegisterMachine.Proofs.Machine.Endings
import RegisterMachine.Proofs.Machine.Lockstep

/-!
# Calls of the interrupt handler, and their record

A step calls the interrupt handler at most once (`Machine.calls`). Exchanging the handler for
another one (`Machine.handledBy`) changes no verdict, and it changes the effect and the signal of a
step only where the handler is called (`after_handledBy`, `signal_handledBy`), so that about
machines that differ in their handlers nothing is left to compare but the answers.

The first use is the handler that keeps a record of its calls (`Machine.recordingFrom`): a recording
machine does what the machine does, and the calls of every step are put behind its record
(`Ends.recordingFrom`).
-/

namespace RegisterMachine

/-- The handler after it has answered a call. -/
def Handler.answering {σ : Type} (handler : Handler σ) (code : UInt8) (registers : Registers) :
    Handler σ :=
  { handler with state := (handler.respond code registers handler.state).state }

/-- The handler that keeps a record of its calls, and has one already. -/
def Handler.recordingFrom {σ : Type} (calls : List Call) (handler : Handler σ) :
    Handler (σ × List Call) :=
  { handler.recording with state := (handler.state, calls) }

namespace Machine

variable {σ τ : Type} {machine : Machine σ} {handler : Option (Handler τ)} {programSize : UInt16}
  {instruction : Instruction} {next : UInt32} {code : UInt8}

/-! ## Calls -/

/-- The calls of the interrupt handler that a step makes: one, or none. -/
def calls (machine : Machine σ) : Instruction → List Call
  | .syscall code =>
    if machine.skipPending || machine.handler.isNone then [] else [⟨code, machine.registers⟩]
  | _ => []

/-- Only a system call that is not skipped calls a handler, if one is installed. -/
theorem calls_cases (machine : Machine σ) (instruction : Instruction) :
    machine.calls instruction = [] ∨
      ∃ code handler, instruction = .syscall code ∧ machine.skipPending = false ∧
        machine.handler = some handler := by
  cases instruction with
  | syscall code =>
    rcases hhandler : machine.handler with _ | handler
    · left
      simp [calls, hhandler]
    · cases hskip : machine.skipPending with
      | true =>
        left
        simp [calls, hskip]
      | false => exact .inr ⟨code, handler, rfl, rfl, rfl⟩
  | _ => exact .inl rfl

/-- A system call that is executed is one call, with the registers as they are before it. -/
theorem calls_syscall (hskip : machine.skipPending = false) {handler : Handler σ}
    (hhandler : machine.handler = some handler) :
    machine.calls (.syscall code) = [⟨code, machine.registers⟩] := by
  simp [calls, hskip, hhandler]

/-- Where a system call calls no handler, it is skipped or none is installed. -/
theorem skipPending_or_handler_of_calls (h : machine.calls (.syscall code) = []) :
    machine.skipPending = true ∨ machine.handler = none := by
  rcases hskip : machine.skipPending with _ | _
  · right
    simpa [calls, hskip] using h
  · exact .inl rfl

/-- A system call that is executed has a handler to call. -/
theorem exists_handler (hskip : machine.skipPending = false)
    (h : machine.verdict programSize = .ok (.syscall code, next)) :
    ∃ handler, machine.handler = some handler := by
  have hpermits := permits_of_verdict hskip h
  unfold permits at hpermits
  cases hhandler : machine.handler with
  | some handler => exact ⟨handler, rfl⟩
  | none =>
    rw [hhandler] at hpermits
    cases hpermits

/-- A system call takes the registers and its state from the answer of the handler. -/
theorem after_syscall (hskip : machine.skipPending = false) {handler : Handler σ}
    (hhandler : machine.handler = some handler) :
    machine.after next (.syscall code) =
      { machine with
        registers :=
          (handler.respond code machine.registers handler.state).registers.set .ip next
        handler := some (handler.answering code machine.registers) } := by
  have hafter : machine.after next (.syscall code) =
      (machine.interrupted code).setRegister .ip next := by
    unfold after
    rw [hskip]
    rfl
  rw [hafter]
  unfold interrupted
  rw [hhandler]
  rfl

/-- Whether the run goes on after a system call is for the handler to say. -/
theorem signal_syscall (hskip : machine.skipPending = false) {handler : Handler σ}
    (hhandler : machine.handler = some handler) :
    machine.signal (.syscall code) =
      if (handler.respond code machine.registers handler.state).proceed then .next else .stop := by
  unfold signal flow response?
  rw [hskip, hhandler]
  rfl

/-- A step that does not call the handler leaves it as it is. -/
theorem handler_after (h : machine.calls instruction = []) :
    (machine.after next instruction).handler = machine.handler := by
  unfold after
  split
  · rfl
  · rename_i hskip
    cases instruction with
    | syscall code =>
      have hhandler := (skipPending_or_handler_of_calls h).resolve_left hskip
      unfold executedTo changed interrupted
      rw [hhandler]
      exact hhandler
    | _ => rfl

/-! ## Other handlers -/

/-- The machine with another handler in the place of its own. -/
def handledBy (handler : Option (Handler τ)) (machine : Machine σ) : Machine τ :=
  { policy := machine.policy
    rom := machine.rom
    ram := machine.ram
    registers := machine.registers
    skipPending := machine.skipPending
    executed := machine.executed
    handler
    stackSize := machine.stackSize }

/-- Where no handler is installed, there is none to take its place. -/
theorem eq_none_of_isSome_eq (hinstalled : handler.isSome = machine.handler.isSome)
    (hhandler : machine.handler = none) : handler = none := by
  rw [hhandler, Option.isSome_none, Option.isSome_eq_false_iff] at hinstalled
  exact Option.isNone_iff_eq_none.mp hinstalled

/-- A handler may take the place of another one. -/
theorem isSome_some_eq {own : Handler σ} (hhandler : machine.handler = some own)
    (other : Handler τ) : (some other).isSome = machine.handler.isSome := by
  rw [hhandler]
  rfl

/-- Whether a handler is installed is all that the calls of a step depend on, and not what it
answers. -/
theorem calls_handledBy (h : handler.isSome = machine.handler.isSome)
    (instruction : Instruction) :
    (machine.handledBy handler).calls instruction = machine.calls instruction := by
  cases instruction with
  | syscall code =>
    unfold calls
    rw [← Option.not_isSome, ← Option.not_isSome, ← h]
    rfl
  | _ => rfl

/-- Whether a handler is installed is all that a verdict asks of it. -/
theorem verdict_handledBy (h : handler.isSome = machine.handler.isSome) :
    (machine.handledBy handler).verdict programSize = machine.verdict programSize := by
  have hknows (ids : List UInt8) :
      (machine.handledBy handler).knowsRegisters ids = machine.knowsRegisters ids := by
    induction ids with
    | nil => rfl
    | cons id ids ih =>
      unfold knowsRegisters
      rw [ih]
      rfl
  have hpermits (instruction : Instruction) :
      (machine.handledBy handler).permits programSize instruction =
        machine.permits programSize instruction := by
    -- Only a system call looks for the handler.
    cases instruction with
    | syscall code =>
      unfold permits
      rw [← h]
      rfl
    | _ => rfl
  unfold verdict
  simp only [hknows, hpermits]
  rfl

/-- A step that does not call the handler is the same whatever the handler. -/
theorem after_handledBy (hinstalled : handler.isSome = machine.handler.isSome)
    (h : machine.calls instruction = []) :
    (machine.handledBy handler).after next instruction =
      (machine.after next instruction).handledBy handler := by
  unfold after
  change (if machine.skipPending then _ else _) = _
  split
  · rfl
  · rename_i hskip
    cases instruction with
    | syscall code =>
      have hhandler := (skipPending_or_handler_of_calls h).resolve_left hskip
      obtain rfl := eq_none_of_isSome_eq hinstalled hhandler
      unfold executedTo changed interrupted
      rw [hhandler]
      rfl
    | _ => rfl

/-- Then it also lets the run go on whatever the handler. -/
theorem signal_handledBy (hinstalled : handler.isSome = machine.handler.isSome)
    (h : machine.calls instruction = []) :
    (machine.handledBy handler).signal instruction = machine.signal instruction := by
  unfold signal
  change (if machine.skipPending then _ else _) = _
  split
  · rfl
  · rename_i hskip
    cases instruction with
    | syscall code =>
      have hhandler := (skipPending_or_handler_of_calls h).resolve_left hskip
      obtain rfl := eq_none_of_isSome_eq hinstalled hhandler
      unfold flow response?
      rw [hhandler]
      rfl
    | _ => rfl

/-! ## Recording -/

/-- The machine whose handler keeps a record of its calls, and has one already. -/
def recordingFrom (record : List Call) (machine : Machine σ) : Machine (σ × List Call) :=
  machine.handledBy (machine.handler.map (Handler.recordingFrom record))

/-- A record that starts empty is the record of the host. -/
theorem recordingFrom_nil (machine : Machine σ) : machine.recordingFrom [] = machine.recording :=
  rfl

/-- The handler of a recording machine is its own one, recording. -/
theorem handler_recordingFrom (record : List Call) {handler : Handler σ}
    (h : machine.handler = some handler) :
    (machine.recordingFrom record).handler = some (handler.recordingFrom record) := by
  change machine.handler.map _ = _
  rw [h]
  rfl

/-- A record changes no verdict. -/
theorem verdict_recordingFrom (record : List Call) (machine : Machine σ) :
    (machine.recordingFrom record).verdict programSize = machine.verdict programSize :=
  verdict_handledBy Option.isSome_map

/-- A step of a recording machine is the step of the machine, and its calls are put behind the
record. -/
theorem after_recordingFrom (record : List Call) (machine : Machine σ) (next : UInt32)
    (instruction : Instruction) :
    (machine.recordingFrom record).after next instruction =
      (machine.after next instruction).recordingFrom (record ++ machine.calls instruction) := by
  rcases machine.calls_cases instruction with hcalls | ⟨code, handler, rfl, hskip, hhandler⟩
  · rw [hcalls, List.append_nil]
    unfold recordingFrom
    rw [after_handledBy Option.isSome_map hcalls, handler_after hcalls]
  · have hskip' : (machine.recordingFrom record).skipPending = false := hskip
    rw [calls_syscall hskip hhandler, after_syscall hskip hhandler,
      after_syscall hskip' (handler_recordingFrom record hhandler)]
    rfl

/-- A record does not change whether the run goes on. -/
theorem signal_recordingFrom (record : List Call) (machine : Machine σ)
    (instruction : Instruction) :
    (machine.recordingFrom record).signal instruction = machine.signal instruction := by
  rcases machine.calls_cases instruction with hcalls | ⟨code, handler, rfl, hskip, hhandler⟩
  · exact signal_handledBy Option.isSome_map hcalls
  · have hskip' : (machine.recordingFrom record).skipPending = false := hskip
    rw [signal_syscall hskip hhandler,
      signal_syscall hskip' (handler_recordingFrom record hhandler)]
    rfl

section

variable {machine' final : Machine σ} {cause : Cause} {k : Nat}

/-- A step that completes does so while its calls are recorded. -/
theorem step_recordingFrom {flow : Flow} {stepped : Machine σ}
    (h : (step programSize).run machine = .ok flow stepped) :
    ∃ made, ∀ record, (step programSize).run (machine.recordingFrom record) =
      .ok flow (stepped.recordingFrom (record ++ made)) := by
  obtain ⟨instruction, next, hverdict, rfl, rfl⟩ := step_eq_ok_iff.mp h
  exact ⟨machine.calls instruction, fun record => step_eq_ok_iff.mpr
    ⟨instruction, next, (verdict_recordingFrom record machine).trans hverdict,
      signal_recordingFrom record machine instruction,
      after_recordingFrom record machine next instruction⟩⟩

/-- An advance is one while its calls are recorded. -/
theorem Advances.recordingFrom (h : Advances programSize machine machine') :
    ∃ made, ∀ record, Advances programSize (machine.recordingFrom record)
      (machine'.recordingFrom (record ++ made)) := by
  obtain ⟨stepped, hstep, rfl⟩ := h
  obtain ⟨made, hmade⟩ := step_recordingFrom hstep
  exact ⟨made, fun record => ⟨_, hmade record, rfl⟩⟩

/-- Advances are advances while their calls are recorded, one after the other. -/
theorem Reaches.recordingFrom (h : Reaches programSize k machine final) :
    ∃ made, ∀ record, Reaches programSize k (machine.recordingFrom record)
      (final.recordingFrom (record ++ made)) := by
  induction h with
  | refl machine =>
    refine ⟨[], fun record => ?_⟩
    rw [List.append_nil]
    exact .refl _
  | step hadvances _ ih =>
    obtain ⟨first, hfirst⟩ := hadvances.recordingFrom
    obtain ⟨rest, hrest⟩ := ih
    refine ⟨first ++ rest, fun record => .step (hfirst record) ?_⟩
    rw [← List.append_assoc]
    exact hrest (record ++ first)

/-- The step that ends a run ends it while its call is recorded, for the same cause. -/
theorem Concludes.recordingFrom (h : Concludes programSize machine cause final) :
    ∃ made, ∀ record, Concludes programSize (machine.recordingFrom record) cause
      (final.recordingFrom (record ++ made)) := by
  cases h with
  | halt hstep =>
    obtain ⟨made, hmade⟩ := step_recordingFrom hstep
    exact ⟨made, fun record => .halt (hmade record)⟩
  | stop hstep =>
    obtain ⟨made, hmade⟩ := step_recordingFrom hstep
    exact ⟨made, fun record => .stop (hmade record)⟩
  | fault hstep =>
    obtain ⟨hverdict, rfl⟩ := step_eq_error_iff.mp hstep
    refine ⟨[], fun record => .fault (step_eq_error_iff.mpr ⟨?_, ?_⟩)⟩
    · rw [verdict_recordingFrom, hverdict]
    · rw [List.append_nil]

/-- A recording machine comes to the same end as the machine. -/
theorem Ends.recordingFrom (h : Ends programSize k machine cause final) :
    ∃ made, ∀ record, Ends programSize k (machine.recordingFrom record) cause
      (final.recordingFrom (record ++ made)) := by
  obtain ⟨last, hreaches, hconcludes⟩ := h
  obtain ⟨first, hfirst⟩ := hreaches.recordingFrom
  obtain ⟨rest, hrest⟩ := hconcludes.recordingFrom
  refine ⟨first ++ rest, fun record => ⟨_, hfirst record, ?_⟩⟩
  rw [← List.append_assoc]
  exact hrest (record ++ first)

end

/-- A machine that skips a `nop` and makes two system calls, of which the handler, which counts its
calls, answers the first with a stop. -/
def calling : Machine Nat :=
  (bare ⟨0, #[24, 0, 0, 2, 7, 2, 8, 1], by decide⟩).handledBy
    (some ⟨fun code registers n => ⟨registers, n + 1, code != 7⟩, 0⟩)

end Machine

end RegisterMachine
