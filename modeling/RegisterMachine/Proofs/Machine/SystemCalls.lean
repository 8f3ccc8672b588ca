import RegisterMachine.Proofs.Machine.History
import RegisterMachine.Proofs.Machine.Recording

/-!
# System calls and their handler

The interrupt handler is called for the system calls that a run executes and for nothing else:
`Event.call?` reads the call of a step off the step, and the record of a run is the list of these
(`runSteps_recordingFrom`). A call is answered with a whole register file, of which the run keeps
everything but the instruction pointer, and RAM and the skip flag are not the handler's to change
(`Event.Answered`).

So a handler cannot redirect a run. Two handlers that answer alike, up to what they put into the
instruction pointer (`Handler.AnswersAlike`), may keep states of different types and do different
things with them, and the runs that they take part in are the same (`runSteps_answersAlike`).
-/

namespace RegisterMachine

/-! ## Answers -/

/-- Two answers that differ at most in the instruction pointer and in the states of the handlers. -/
structure Response.Alike {σ τ : Type} (related : σ → τ → Prop) (response : Response σ)
    (other : Response τ) : Prop where
  proceed : other.proceed = response.proceed
  registers : ∀ register ≠ .ip, other.registers.get register = response.registers.get register
  state : related response.state other.state

/-- Two handlers that give such answers to the same calls, for as long as their states are
related. -/
structure Handler.AnswersAlike {σ τ : Type} (related : σ → τ → Prop) (handler : Handler σ)
    (other : Handler τ) : Prop where
  state : related handler.state other.state
  respond : ∀ s t, related s t → ∀ code registers,
    (handler.respond code registers s).Alike related (other.respond code registers t)

/-- What answers put into the instruction pointer is lost when the step moves it. -/
theorem Response.Alike.set_ip {σ τ : Type} {related : σ → τ → Prop} {response : Response σ}
    {other : Response τ} (h : response.Alike related other) (next : UInt32) :
    other.registers.set .ip next = response.registers.set .ip next := by
  apply Registers.ext_get
  intro register
  by_cases hip : register = .ip
  · rw [hip, Registers.get_set_self, Registers.get_set_self]
  · rw [Registers.get_set_of_ne _ (Ne.symm hip), Registers.get_set_of_ne _ (Ne.symm hip),
      h.registers register hip]

namespace Event

variable {σ : Type} {event : Event σ} {call : Call} {programSize : UInt16}

/-- The call of the interrupt handler that a step makes, if it executes a system call. -/
def call? (event : Event σ) : Option Call :=
  match event.before.skipPending, event.instruction with
  | false, .syscall code => some ⟨code, event.before.registers⟩
  | _, _ => none

/-- A step calls the handler exactly if it executes a system call, and then with the registers
before it. -/
theorem call?_eq_some_iff :
    event.call? = some call ↔
      event.Executes (.syscall call.code) ∧ call.registers = event.before.registers := by
  obtain ⟨code, registers⟩ := call
  unfold call? Executes
  cases event.before.skipPending with
  | true => simp
  | false => cases event.instruction <;> simp [eq_comm]

/-- What a step owes to the call that it makes. -/
structure Answered (event : Event σ) (call : Call) : Prop where
  /-- The instruction pointer of the registers that the handler sees is at the system call, and the
  code is the operand of that. -/
  opcode : event.before.romByte (call.registers.get .ip).toNat = Opcode.syscall.byte
  code : event.before.romByte ((call.registers.get .ip).toNat + 1) = call.code
  /-- They are the registers that the steps before have left. -/
  registers : call.registers = event.before.registers
  /-- The step takes all registers but the instruction pointer from the answer, and it leaves alone
  what the handler has no part in. -/
  effect : ∃ handler, event.before.handler = some handler ∧
    let response := handler.respond call.code call.registers handler.state
    event.after =
      { event.before with
        registers := response.registers.set .ip (call.registers.get .ip + 2)
        handler := some { handler with state := response.state }
        executed := event.before.executed + 1 } ∧
    event.flow = if response.proceed then .next else .stop

end Event

namespace Machine

variable {σ : Type} {machine : Machine σ} {programSize : UInt16} {instruction : Instruction}
  {next : UInt32}

/-! ## Calls -/

/-- The calls of a step are read off its event. -/
theorem toList_call?_taking (h : machine.verdict programSize = .ok (instruction, next)) :
    (machine.taking next instruction).call?.toList = machine.calls instruction := by
  unfold Event.call? taking
  dsimp only
  cases instruction with
  | syscall code =>
    cases hskip : machine.skipPending with
    | true =>
      unfold calls
      rw [hskip]
      rfl
    | false =>
      obtain ⟨handler, hhandler⟩ := exists_handler hskip h
      rw [calls_syscall hskip hhandler]
      rfl
  | _ => cases machine.skipPending <;> rfl

/-- The calls of a history are those of its first step and of the steps that follow it. -/
theorem filterMap_call?_history (h : machine.verdict programSize = .ok (instruction, next))
    (n : Nat) :
    (history programSize (n + 1) machine).filterMap Event.call? =
      machine.calls instruction ++
        if machine.signal instruction = .next then
          (history programSize n (machine.after next instruction).counted).filterMap Event.call?
        else [] := by
  rw [history_of_ok h, ← toList_call?_taking h, List.filterMap_cons]
  cases hsignal : machine.signal instruction with
  | next =>
    rw [if_pos rfl, if_pos rfl, after_taking hsignal]
    cases (machine.taking next instruction).call? <;> rfl
  | halt | stop => cases (machine.taking next instruction).call? <;> rfl

/-- A bounded run makes the calls of its history. -/
theorem runSteps_recordingFrom (programSize : UInt16) (n : Nat) (machine : Machine σ)
    (record : List Call) :
    (runSteps programSize n).run (machine.recordingFrom record) =
      mapEnding (·.recordingFrom (record ++ (history programSize n machine).filterMap Event.call?))
        ((runSteps programSize n).run machine) := by
  -- Later steps start with a longer record, so the induction is over all records.
  induction n generalizing machine record with
  | zero =>
    change _ = EStateM.Result.ok _ (machine.recordingFrom (record ++ []))
    rw [List.append_nil]
    rfl
  | succ n ih =>
    rw [runSteps_succ_run, runSteps_succ_run, verdict_recordingFrom]
    cases hverdict : machine.verdict programSize with
    | error fault =>
      rw [history_of_error hverdict, List.filterMap_nil, List.append_nil]
      rfl
    | ok taken =>
      obtain ⟨instruction, next⟩ := taken
      simp only [resume_ok, after_recordingFrom, signal_recordingFrom]
      rw [filterMap_call?_history hverdict, ← List.append_assoc]
      cases hsignal : machine.signal instruction with
      | next =>
        rw [if_pos rfl]
        exact ih (machine.after next instruction).counted (record ++ machine.calls instruction)
      | halt | stop =>
        rw [if_neg nofun, List.append_nil]
        rfl

end Machine

namespace Event

variable {σ : Type} {event : Event σ} {call : Call} {programSize : UInt16}

/-- A step answers the call that it makes. -/
theorem Completes.answered (h : event.Completes programSize) (hcall : event.call? = some call) :
    event.Answered call := by
  obtain ⟨hverdict, hflow, hafter⟩ := completes_iff.mp h
  obtain ⟨⟨hskip, hinstruction⟩, hregisters⟩ := call?_eq_some_iff.mp hcall
  rw [hinstruction] at hverdict hflow hafter
  obtain ⟨handler, hhandler⟩ := Machine.exists_handler hskip hverdict
  obtain ⟨hencode, hnext⟩ := Machine.encode_of_fetched (Machine.fetched_of_verdict hverdict)
  -- The two bytes of the instruction are its opcode and its code.
  have hbytes : [event.before.romByte (event.before.register .ip).toNat,
      event.before.romByte ((event.before.register .ip).toNat + 1)] =
        [Opcode.syscall.byte, call.code] := hencode
  injection hbytes with hopcode hoperand
  injection hoperand with hcode
  rw [Machine.signal_syscall hskip hhandler] at hflow
  rw [Machine.after_syscall hskip hhandler, hnext] at hafter
  refine ⟨?_, ?_, hregisters, handler, hhandler, ?_⟩
  · rw [hregisters]
    exact hopcode
  · rw [hregisters]
    exact hcode
  · rw [hregisters]
    refine ⟨?_, hflow.symm⟩
    rw [hafter, ← hflow]
    split <;> rfl

end Event

namespace Machine

variable {σ τ : Type} {machine : Machine σ} {handler : Handler σ} {other : Handler τ}
  {related : σ → τ → Prop} {programSize : UInt16} {instruction : Instruction} {next : UInt32}

/-! ## Handlers that answer alike -/

/-- The machine without its handler, and so without what only the handler knows. -/
def unhandled (machine : Machine σ) : Machine Unit :=
  machine.handledBy none

/-- A handler that answers alike takes the part of the other one in a step, and goes on to answer
alike. -/
theorem after_answersAlike (hhandler : machine.handler = some handler)
    (h : handler.AnswersAlike related other) (next : UInt32) (instruction : Instruction) :
    ∃ handler' other', (machine.after next instruction).handler = some handler' ∧
      handler'.AnswersAlike related other' ∧
      (machine.handledBy (some other)).after next instruction =
        (machine.after next instruction).handledBy (some other') := by
  rcases machine.calls_cases instruction with hcalls | ⟨code, handler', rfl, hskip, hhandler'⟩
  · exact ⟨handler, other, (handler_after hcalls).trans hhandler, h,
      after_handledBy (isSome_some_eq hhandler other) hcalls⟩
  · have hresponse := h.respond _ _ h.state code machine.registers
    refine ⟨handler.answering code machine.registers, other.answering code machine.registers,
      ?_, ⟨hresponse.state, h.respond⟩, ?_⟩
    · rw [after_syscall hskip hhandler]
    · have hskip' : (machine.handledBy (some other)).skipPending = false := hskip
      have hother : (machine.handledBy (some other)).handler = some other := rfl
      rw [after_syscall hskip hhandler, after_syscall hskip' hother]
      unfold handledBy
      dsimp only
      rw [hresponse.set_ip next]

/-- Handlers that answer alike let the run go on alike. -/
theorem signal_answersAlike (hhandler : machine.handler = some handler)
    (h : handler.AnswersAlike related other) (instruction : Instruction) :
    (machine.handledBy (some other)).signal instruction = machine.signal instruction := by
  rcases machine.calls_cases instruction with hcalls | ⟨code, handler', rfl, hskip, hhandler'⟩
  · exact signal_handledBy (isSome_some_eq hhandler other) hcalls
  · have hskip' : (machine.handledBy (some other)).skipPending = false := hskip
    have hother : (machine.handledBy (some other)).handler = some other := rfl
    rw [signal_syscall hskip hhandler, signal_syscall hskip' hother]
    change (if (other.respond code machine.registers other.state).proceed then _ else _) = _
    rw [(h.respond _ _ h.state code machine.registers).proceed]

/-- With a handler that answers alike a bounded run is the same and makes the same calls. -/
theorem runSteps_answersAlike (hhandler : machine.handler = some handler)
    (h : handler.AnswersAlike related other) (programSize : UInt16) (n : Nat) :
    mapEnding unhandled ((runSteps programSize n).run (machine.handledBy (some other))) =
        mapEnding unhandled ((runSteps programSize n).run machine) ∧
      (history programSize n (machine.handledBy (some other))).filterMap Event.call? =
        (history programSize n machine).filterMap Event.call? := by
  -- The handlers go on with new states, so the induction is over all that answer alike.
  induction n generalizing machine handler other with
  | zero => exact ⟨rfl, rfl⟩
  | succ n ih =>
    have hinstalled := isSome_some_eq hhandler other
    have hsame : (machine.handledBy (some other)).verdict programSize =
        machine.verdict programSize := verdict_handledBy hinstalled
    rw [runSteps_succ_run, runSteps_succ_run, hsame]
    cases hverdict : machine.verdict programSize with
    | error fault =>
      rw [history_of_error hverdict, history_of_error (hsame.trans hverdict)]
      exact ⟨rfl, rfl⟩
    | ok taken =>
      obtain ⟨instruction, next⟩ := taken
      obtain ⟨handler', other', hhandler', halike, hafter⟩ :=
        after_answersAlike hhandler h next instruction
      rw [filterMap_call?_history hverdict, filterMap_call?_history (hsame.trans hverdict)]
      simp only [resume_ok, calls_handledBy hinstalled, signal_answersAlike hhandler h, hafter]
      cases machine.signal instruction with
      | halt | stop => exact ⟨rfl, rfl⟩
      | next =>
        have hcounted : (machine.after next instruction).counted.handler = some handler' :=
          hhandler'
        obtain ⟨hrun, hcalls⟩ := ih hcounted halike
        rw [if_pos rfl, if_pos rfl]
        exact ⟨hrun, congrArg (machine.calls instruction ++ ·) hcalls⟩

/-! ## Runs -/

/-- The calls of the interrupt handler that a run makes. -/
def callsOf (fuel : Nat) (programSize : UInt16) (budget : UInt32) (machine : Machine σ) :
    List Call :=
  (history programSize (stepLimit fuel budget) machine).filterMap Event.call?

/-- What a run has to do with the interrupt handler. -/
structure CallsInOrder (fuel : Nat) (programSize : UInt16) (budget : UInt32)
    (machine : Machine σ) : Prop where
  /-- The record of the run is the list of the system calls that it executes. -/
  recorded : (run fuel programSize budget).run machine.recording =
    mapEnding (·.recordingFrom (callsOf fuel programSize budget machine))
      ((run fuel programSize budget).run machine)
  /-- The steps of the run complete, each where those before it lead. -/
  steps : ∀ i event, (history programSize (stepLimit fuel budget) machine)[i]? = some event →
    Reaches programSize i machine event.before ∧ event.Completes programSize
  /-- Each call is answered in its step. -/
  answered : ∀ event ∈ history programSize (stepLimit fuel budget) machine,
    ∀ call, event.call? = some call → event.Answered call

/-- A run calls the interrupt handler exactly for the system calls that it executes, and a handler
cannot redirect the run. -/
theorem handler_cannot_redirect (fuel : Nat) (programSize : UInt16) (budget : UInt32)
    (machine : Machine σ) :
    CallsInOrder fuel programSize budget machine ∧
      ∀ (τ : Type) (related : σ → τ → Prop) (handler : Handler σ) (other : Handler τ),
        machine.handler = some handler → handler.AnswersAlike related other →
          mapEnding unhandled
              ((run fuel programSize budget).run (machine.handledBy (some other))) =
            mapEnding unhandled ((run fuel programSize budget).run machine) ∧
          callsOf fuel programSize budget (machine.handledBy (some other)) =
            callsOf fuel programSize budget machine := by
  have hleads := leads_run fuel programSize budget machine
  have horder : CallsInOrder fuel programSize budget machine := by
    refine ⟨?_, fun i event hevent => ?_, fun event hevent call hcall => ?_⟩
    · exact run_run_eq_mapEnding (runSteps_recordingFrom programSize _ machine [])
    · exact ⟨hleads.reaches hevent, hleads.completes (List.mem_of_getElem? hevent)⟩
    · exact (hleads.completes hevent).answered hcall
  refine ⟨horder, fun τ related handler other hhandler halike => ?_⟩
  obtain ⟨hrun, hcalls⟩ :=
    runSteps_answersAlike hhandler halike programSize (stepLimit fuel budget)
  refine ⟨?_, hcalls⟩
  rw [mapEnding_run_run, mapEnding_run_run, hrun]

/-- The handler of `calling` has another in its place, which answers to go back to the start. -/
theorem handler_cannot_redirect_calling :
    let redirecting : Handler Unit :=
      ⟨fun code registers _ => ⟨registers.set .ip 0, (), code != 7⟩, ()⟩
    ∃ final, (run 0 0 9).run calling = .ok (some .finished) final ∧
      final.register .ip = 5 ∧ final.executed = 3 ∧
      mapEnding unhandled ((run 0 0 9).run (calling.handledBy (some redirecting))) =
        .ok (some .finished) final.unhandled ∧
      (callsOf 0 0 9 (calling.handledBy (some redirecting))).map Call.code = [7] := by
  intro redirecting
  obtain ⟨final, hrun, hip, hexecuted⟩ : ∃ final,
      (run 0 0 9).run calling = .ok (some .finished) final ∧ final.register .ip = 5 ∧
        final.executed = 3 := ⟨_, rfl, rfl, rfl⟩
  obtain ⟨-, hredirect⟩ := handler_cannot_redirect 0 0 9 calling
  obtain ⟨hsame, hcalls⟩ := hredirect Unit (fun _ _ => True) _ redirecting rfl
    ⟨trivial, fun _ _ _ code registers =>
      ⟨rfl, fun _ hne => Registers.get_set_of_ne registers (Ne.symm hne) 0, trivial⟩⟩
  refine ⟨final, hrun, hip, hexecuted, ?_, ?_⟩
  · rw [hsame, hrun]
    rfl
  · rw [hcalls]
    rfl

end Machine

end RegisterMachine
