import RegisterMachine.Proofs.Machine.Recording

/-!
# Stopping a run from the interrupt handler

A handler may ask to stop, and the run then finishes behind the system call. The host sees the same
run in pieces if it calls again after every such stop (`Resumes`). This is compared to the run with
the handler that gives the same answers but never asks to stop (`Machine.insistent`).

A stop and an advance have the same effect, and the insistent machine turns the one into the other
(`step_insistent`). So the pieces put together are the run of the insistent machine
(`Ends.resumes`), step for step and call for call (`stopping_is_transparent`).
-/

namespace RegisterMachine

/-- The handler that gives the same answers but never asks to stop. -/
def Handler.insistent {σ : Type} (handler : Handler σ) : Handler σ :=
  { handler with
    respond := fun code registers state =>
      { handler.respond code registers state with proceed := true } }

/-- How a run goes on for a handler that never asks to stop. -/
def Flow.onward : Flow → Flow
  | .stop => .next
  | flow => flow

namespace Machine

variable {σ : Type} {programSize : UInt16} {machine machine' mid final : Machine σ}

/-- The machine whose handler gives the same answers but never asks to stop. -/
def insistent (machine : Machine σ) : Machine σ :=
  machine.handledBy (machine.handler.map Handler.insistent)

/-! ## Steps -/

/-- The handler of an insistent machine is its own one, insistent. -/
theorem handler_insistent {handler : Handler σ} (h : machine.handler = some handler) :
    machine.insistent.handler = some handler.insistent := by
  change machine.handler.map _ = _
  rw [h]
  rfl

/-- Insistence changes no verdict. -/
theorem verdict_insistent (machine : Machine σ) :
    machine.insistent.verdict programSize = machine.verdict programSize :=
  verdict_handledBy Option.isSome_map

/-- Insistence changes no effect. -/
theorem after_insistent (machine : Machine σ) (next : UInt32) (instruction : Instruction) :
    machine.insistent.after next instruction = (machine.after next instruction).insistent := by
  rcases machine.calls_cases instruction with hcalls | ⟨code, handler, rfl, hskip, hhandler⟩
  · unfold insistent
    rw [after_handledBy Option.isSome_map hcalls, handler_after hcalls]
  · have hskip' : machine.insistent.skipPending = false := hskip
    rw [after_syscall hskip hhandler, after_syscall hskip' (handler_insistent hhandler)]
    rfl

/-- Only an answer of the handler stops a run. -/
theorem signal_ne_stop {instruction : Instruction} {next : UInt32}
    (h : machine.verdict programSize = .ok (instruction, next))
    (hcalls : machine.calls instruction = []) : machine.signal instruction ≠ .stop := by
  unfold signal
  split
  · nofun
  · rename_i hskip
    cases instruction with
    | syscall code =>
      -- A system call without a handler is refused.
      have hhandler := (skipPending_or_handler_of_calls hcalls).resolve_left hskip
      obtain ⟨handler, hinstalled⟩ := exists_handler (Bool.eq_false_iff.mpr hskip) h
      exact nomatch hhandler.symm.trans hinstalled
    | _ => nofun

/-- A step that would stop the run lets it go on. -/
theorem signal_insistent {instruction : Instruction} {next : UInt32}
    (h : machine.verdict programSize = .ok (instruction, next)) :
    machine.insistent.signal instruction = (machine.signal instruction).onward := by
  rcases machine.calls_cases instruction with hcalls | ⟨code, handler, rfl, hskip, hhandler⟩
  · have hsignal := signal_ne_stop h hcalls
    unfold insistent
    rw [signal_handledBy Option.isSome_map hcalls]
    cases hflow : machine.signal instruction with
    | stop => exact absurd hflow hsignal
    | next | halt => rfl
  · have hskip' : machine.insistent.skipPending = false := hskip
    rw [signal_syscall hskip hhandler, signal_syscall hskip' (handler_insistent hhandler)]
    cases (handler.respond code machine.registers handler.state).proceed <;> rfl

/-- A step of the insistent machine is the step of the machine, but that it does not stop. -/
theorem step_insistent {flow : Flow} {stepped : Machine σ}
    (h : (step programSize).run machine = .ok flow stepped) :
    (step programSize).run machine.insistent = .ok flow.onward stepped.insistent := by
  obtain ⟨instruction, next, hverdict, rfl, rfl⟩ := step_eq_ok_iff.mp h
  exact step_eq_ok_iff.mpr ⟨instruction, next, (verdict_insistent machine).trans hverdict,
    signal_insistent hverdict, after_insistent machine next instruction⟩

/-- What lets the run go on does so on the insistent machine. -/
theorem Advances.insistent (h : Advances programSize machine machine') :
    Advances programSize machine.insistent machine'.insistent := by
  obtain ⟨stepped, hstep, rfl⟩ := h
  exact ⟨stepped.insistent, step_insistent hstep, rfl⟩

/-- Where the machine stops, the insistent one advances. -/
theorem Concludes.advances_insistent (h : Concludes programSize machine .stop final) :
    Advances programSize machine.insistent final.insistent := by
  cases h with
  | stop hstep => exact ⟨_, step_insistent hstep, rfl⟩

/-- The other ends are the same for both. -/
theorem Concludes.insistent {cause : Cause} (h : Concludes programSize machine cause final)
    (hcause : cause ≠ .stop) : Concludes programSize machine.insistent cause final.insistent := by
  cases h with
  | halt hstep => exact .halt (step_insistent hstep)
  | stop hstep => exact absurd rfl hcause
  | fault hstep =>
    obtain ⟨hverdict, rfl⟩ := step_eq_error_iff.mp hstep
    exact .fault (step_eq_error_iff.mpr ⟨(verdict_insistent final).trans hverdict, rfl⟩)

/-! ## Calling again after every stop -/

/-- What a host gets that calls an unlimited run, and calls it again after every stop that the
handler has asked for: after a number of stops, a call returns for another cause. -/
inductive Resumes (programSize : UInt16) :
    Machine σ → Nat → Except Fault Outcome → Machine σ → Prop where
  /-- The call returns, and not for a stop. -/
  | returned {machine final : Machine σ} {outcome : Except Fault Outcome}
      (hreturns : Returns programSize 0 machine outcome final)
      (hunstopped : ∀ k stopped, ¬ Ends programSize k machine .stop stopped) :
      Resumes programSize machine 0 outcome final
  /-- The call returns for a stop, and the host calls again. -/
  | stopped {machine mid final : Machine σ} {k stops : Nat} {outcome : Except Fault Outcome}
      (hreturns : Returns programSize 0 machine (.ok .finished) mid)
      (hstop : Ends programSize k machine .stop mid)
      (hresumes : Resumes programSize mid stops outcome final) :
      Resumes programSize machine (stops + 1) outcome final

section

variable {k stops : Nat} {cause : Cause} {outcome : Except Fault Outcome}

/-- Without a stop, the host has the end of the run. -/
theorem resumes_zero_iff :
    Resumes programSize machine 0 outcome final ↔
      ∃ k cause, Ends programSize k machine cause final ∧ cause ≠ .stop ∧
        cause.answer = outcome := by
  constructor
  · intro h
    cases h with
    | returned hreturns hunstopped =>
      obtain ⟨k, cause, hends, hanswer⟩ := returns_zero_iff.mp hreturns
      refine ⟨k, cause, hends, ?_, hanswer⟩
      rintro rfl
      exact hunstopped k final hends
  · rintro ⟨k, cause, hends, hcause, hanswer⟩
    exact .returned (returns_zero_iff.mpr ⟨k, cause, hends, hanswer⟩)
      fun _ _ hstop => hcause (hends.unique hstop).2.1

/-- After a stop, the host goes on from there. -/
theorem resumes_succ_iff :
    Resumes programSize machine (stops + 1) outcome final ↔
      ∃ k mid, Ends programSize k machine .stop mid ∧
        Resumes programSize mid stops outcome final := by
  constructor
  · intro h
    cases h with
    | stopped hreturns hstop hresumes => exact ⟨_, _, hstop, hresumes⟩
  · rintro ⟨k, mid, hstop, hresumes⟩
    exact .stopped (returns_zero_iff.mpr ⟨k, .stop, hstop, rfl⟩) hstop hresumes

/-- A first advance makes no difference to what the host gets. -/
theorem Advances.resumes (h : Advances programSize machine machine')
    (hresumes : Resumes programSize machine' stops outcome final) :
    Resumes programSize machine stops outcome final := by
  have hfirst : Reaches programSize 1 machine machine' := .step h (.refl machine')
  cases stops with
  | zero =>
    obtain ⟨k, cause, hends, hcause, hanswer⟩ := resumes_zero_iff.mp hresumes
    exact resumes_zero_iff.mpr ⟨1 + k, cause, hfirst.ends_iff.mpr hends, hcause, hanswer⟩
  | succ stops =>
    obtain ⟨k, mid, hstop, hrest⟩ := resumes_succ_iff.mp hresumes
    exact resumes_succ_iff.mpr ⟨1 + k, mid, hfirst.ends_iff.mpr hstop, hrest⟩

/-- The host gets one answer, after one number of stops. -/
theorem Resumes.unique (h : Resumes programSize machine stops outcome final) {stops' : Nat}
    {outcome' : Except Fault Outcome} {final' : Machine σ}
    (h' : Resumes programSize machine stops' outcome' final') :
    stops' = stops ∧ outcome' = outcome ∧ final' = final := by
  -- A run has one end, which is either a stop or the last end of all.
  induction stops generalizing machine stops' with
  | zero =>
    obtain ⟨k, cause, hends, hcause, rfl⟩ := resumes_zero_iff.mp h
    cases stops' with
    | zero =>
      obtain ⟨k', cause', hends', -, rfl⟩ := resumes_zero_iff.mp h'
      obtain ⟨-, rfl, rfl⟩ := hends.unique hends'
      exact ⟨rfl, rfl, rfl⟩
    | succ stops' =>
      obtain ⟨k', mid, hstop, -⟩ := resumes_succ_iff.mp h'
      exact absurd (hends.unique hstop).2.1 hcause
  | succ stops ih =>
    obtain ⟨k, mid, hstop, hrest⟩ := resumes_succ_iff.mp h
    cases stops' with
    | zero =>
      obtain ⟨k', cause, hends, hcause, -⟩ := resumes_zero_iff.mp h'
      exact absurd (hends.unique hstop).2.1 hcause
    | succ stops' =>
      obtain ⟨k', mid', hstop', hrest'⟩ := resumes_succ_iff.mp h'
      obtain ⟨-, -, rfl⟩ := hstop.unique hstop'
      obtain ⟨rfl, rfl, rfl⟩ := ih hrest hrest'
      exact ⟨rfl, rfl, rfl⟩

/-- The host gets the same while the calls are recorded. -/
theorem Resumes.recordingFrom (h : Resumes programSize machine stops outcome final) :
    ∃ made, ∀ record, Resumes programSize (machine.recordingFrom record) stops outcome
      (final.recordingFrom (record ++ made)) := by
  induction stops generalizing machine with
  | zero =>
    obtain ⟨k, cause, hends, hcause, hanswer⟩ := resumes_zero_iff.mp h
    obtain ⟨made, hmade⟩ := hends.recordingFrom
    exact ⟨made, fun record => resumes_zero_iff.mpr ⟨k, cause, hmade record, hcause, hanswer⟩⟩
  | succ stops ih =>
    obtain ⟨k, mid, hstop, hrest⟩ := resumes_succ_iff.mp h
    obtain ⟨first, hfirst⟩ := hstop.recordingFrom
    obtain ⟨later, hlater⟩ := ih hrest
    refine ⟨first ++ later, fun record => resumes_succ_iff.mpr ⟨k, _, hfirst record, ?_⟩⟩
    rw [← List.append_assoc]
    exact hlater (record ++ first)

/-- The end of the insistent machine is where the host comes to. -/
theorem Ends.resumes {last : Machine σ} (h : Ends programSize k machine.insistent cause last) :
    ∃ stops final, Resumes programSize machine stops cause.answer final ∧
      last = final.insistent := by
  -- The step of the machine is an advance, a stop, or another end: the insistent machine advances
  -- in the first two cases, and so comes nearer to its end.
  induction k using Nat.strongRecOn generalizing machine with
  | ind k ih =>
    rcases advances_or_concludes programSize machine with ⟨machine', hadvances⟩ |
      ⟨cause', final, hconcludes⟩
    · obtain ⟨rest, rfl, hends⟩ := h.of_advances hadvances.insistent
      obtain ⟨stops, final, hresumes, rfl⟩ := ih rest (Nat.lt_add_of_pos_left Nat.one_pos) hends
      exact ⟨stops, final, hadvances.resumes hresumes, rfl⟩
    · by_cases hcause : cause' = .stop
      · subst hcause
        obtain ⟨rest, rfl, hends⟩ := h.of_advances hconcludes.advances_insistent
        obtain ⟨stops, final', hresumes, rfl⟩ := ih rest (Nat.lt_add_of_pos_left Nat.one_pos) hends
        exact ⟨stops + 1, final', resumes_succ_iff.mpr ⟨0, final, hconcludes.ends, hresumes⟩, rfl⟩
      · obtain ⟨-, rfl, rfl⟩ := h.unique (hconcludes.insistent hcause).ends
        exact ⟨0, final, resumes_zero_iff.mpr ⟨0, cause, hconcludes.ends, hcause, rfl⟩, rfl⟩

end

/-! ## The calls that are made -/

/-- To record an insistent handler is to insist with a handler that records. -/
theorem insistent_recordingFrom (record : List Call) (machine : Machine σ) :
    (machine.recordingFrom record).insistent = machine.insistent.recordingFrom record := by
  unfold insistent recordingFrom handledBy
  cases machine.handler <;> rfl

/-- Stopping is transparent. If an unlimited run returns whose handler never asks to stop, then
calling again after every stop comes, after a number of stops, to the same answer and the same
machine, and to nothing else. Both make the same calls of the handler, in the same order. -/
theorem stopping_is_transparent {outcome : Except Fault Outcome} {last : Machine σ}
    (h : Returns programSize 0 machine.insistent outcome last) :
    ∃ stops final calls, Resumes programSize machine stops outcome final ∧
      last = final.insistent ∧
      (∀ stops' outcome' final', Resumes programSize machine stops' outcome' final' →
        stops' = stops ∧ outcome' = outcome ∧ final' = final) ∧
      Returns programSize 0 machine.insistent.recording outcome (last.recordingFrom calls) ∧
      Resumes programSize machine.recording stops outcome (final.recordingFrom calls) := by
  obtain ⟨k, cause, hends, rfl⟩ := returns_zero_iff.mp h
  obtain ⟨stops, final, hresumes, rfl⟩ := hends.resumes
  obtain ⟨calls, hcalls⟩ := hresumes.recordingFrom
  obtain ⟨made, hmade⟩ := hends.recordingFrom
  have hrecorded : Resumes programSize machine.recording stops cause.answer
      (final.recordingFrom calls) := hcalls []
  -- The recording machine that insists ends with this record too, and the host of the recording
  -- machine comes to one end only.
  have hlong : Ends programSize k machine.recording.insistent cause
      (final.insistent.recordingFrom made) := by
    have hcommutes := insistent_recordingFrom [] machine
    rw [recordingFrom_nil] at hcommutes
    rw [hcommutes]
    exact hmade []
  obtain ⟨stops', final', hresumes', hfinal'⟩ := hlong.resumes
  obtain ⟨-, -, rfl⟩ := hrecorded.unique hresumes'
  rw [insistent_recordingFrom] at hfinal'
  refine ⟨stops, final, calls, hresumes, rfl, fun _ _ _ => hresumes.unique, ?_, hrecorded⟩
  rw [← hfinal']
  exact returns_zero_iff.mpr ⟨k, cause, hmade [], rfl⟩

/-- The machine whose handler stops it once halts in the run after that, where the insistent machine
halts in one. -/
theorem stopping_is_transparent_calling :
    ∃ last final calls, Returns 0 0 calling.insistent (.ok .finished) last ∧
      last.executed = 4 ∧ Resumes 0 calling 1 (.ok .finished) final ∧ last = final.insistent ∧
      Resumes 0 calling.recording 1 (.ok .finished) (final.recordingFrom calls) := by
  obtain ⟨last, hreturns, hexecuted⟩ : ∃ last,
      Returns 0 0 calling.insistent (.ok .finished) last ∧ last.executed = 4 :=
    ⟨_, ⟨9, rfl⟩, rfl⟩
  -- A run skips and stops, and another run takes the second call and halts.
  obtain ⟨stopped, hstops, halted, hhalts⟩ : ∃ stopped, Ends 0 2 calling .stop stopped ∧
      ∃ halted, Ends 0 1 stopped .halt halted :=
    ⟨_, ⟨_, .step ⟨_, rfl, rfl⟩ (.step ⟨_, rfl, rfl⟩ (.refl _)), .stop rfl⟩,
      _, _, .step ⟨_, rfl, rfl⟩ (.refl _), .halt rfl⟩
  obtain ⟨stops, final, calls, hresumes, hfinal, hunique, -, hrecorded⟩ :=
    stopping_is_transparent hreturns
  obtain ⟨rfl, -, -⟩ := hunique 1 (.ok .finished) halted
    (resumes_succ_iff.mpr ⟨2, stopped, hstops, resumes_zero_iff.mpr ⟨1, .halt, hhalts, nofun, rfl⟩⟩)
  exact ⟨last, final, calls, hreturns, hexecuted, hresumes, hfinal, hrecorded⟩

end Machine

end RegisterMachine
