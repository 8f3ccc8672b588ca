import Mathlib.Algebra.GroupWithZero.Nat
import RegisterMachine.Proofs.Machine.Persistence
import RegisterMachine.Proofs.Machine.Recording
import RegisterMachine.Proofs.Machine.Sessions

/-!
# Counting instructions

A machine counts the steps that complete, and only a `halt` is left out (`tally`). A run adds its
tally to the count, however it ends (`Leads.executed`). How it ends shows in the flows of its
history: each step but the last lets the run go on, and the last one tells the cause
(`Ends.history`). So a budget bounds the tally, and a run pauses just when it has used up its budget
and was not stopped (`Tallied`).

Over a session the count is the sum of the tallies of its runs. It does not matter how a number of
steps is divided into budgets, where no run is stopped before the last one (`afterSession_runs`).
-/

namespace RegisterMachine

/-- How the run goes on after each of its steps. -/
def flows {σ : Type} (events : List (Event σ)) : List Flow :=
  events.map Event.flow

/-- The steps that count among others: all but a `halt`. -/
def tally {σ : Type} (events : List (Event σ)) : Nat :=
  (flows events).countP (· ≠ .halt)

/-- What steps count for adds up. -/
theorem tally_append {σ : Type} (events events' : List (Event σ)) :
    tally (events ++ events') = tally events + tally events' := by
  unfold tally flows
  rw [List.map_append, List.countP_append]

/-- A step counts unless it executes a `halt`. -/
theorem Event.Completes.flow_eq_halt_iff {σ : Type} {event : Event σ} {programSize : UInt16}
    (h : event.Completes programSize) : event.flow = .halt ↔ event.Executes .halt := by
  obtain ⟨-, hsignal, -⟩ := completes_iff.mp h
  rw [← hsignal]
  unfold Machine.signal Executes
  cases event.before.skipPending with
  | true => simp
  | false => simp [Machine.flow_eq_halt_iff]

namespace Machine

variable {σ : Type} {programSize : UInt16} {machine machine' mid final : Machine σ}
  {events : List (Event σ)} {flow : Flow} {cause : Cause} {k n : Nat}

/-! ## What a run adds -/

/-- A step itself counts nothing. -/
theorem executed_after (machine : Machine σ) (next : UInt32) (instruction : Instruction) :
    (machine.after next instruction).executed = machine.executed := by
  unfold after
  split
  · rfl
  · change (machine.changed next instruction).executed = machine.executed
    cases instruction with
    | syscall code => exact (congrArg Machine.executed (machine.interrupted_eq code)).trans rfl
    | _ => rfl

/-- A step is counted unless it is a `halt`. -/
theorem executed_leaving (stepped : Machine σ) (flow : Flow) :
    (stepped.leaving flow).executed =
      stepped.executed + UInt64.ofNat ([flow].countP (· ≠ .halt)) := by
  cases flow with
  | halt => exact (UInt64.add_zero _).symm
  | stop | next => rfl

/-- One step adds its part. -/
theorem executed_of_completes {event : Event σ} (h : event.Completes programSize) :
    event.after.executed = event.before.executed + UInt64.ofNat (tally [event]) := by
  obtain ⟨-, -, hafter⟩ := Event.completes_iff.mp h
  rw [hafter, executed_leaving, executed_after]
  rfl

/-- A run adds its tally to the count. -/
theorem Leads.executed (h : Leads programSize machine events final) :
    final.executed = machine.executed + UInt64.ofNat (tally events) := by
  induction h with
  | none => exact (UInt64.add_zero _).symm
  | last hcompletes => exact executed_of_completes hcompletes
  | @next event events final hcompletes _ _ ih =>
    rw [ih, executed_of_completes hcompletes, UInt64.add_assoc, ← UInt64.ofNat_add,
      ← tally_append]
    rfl

/-! ## The flows of a history -/

/-- How the step flows that ends a run, if it completes. -/
def Cause.flows : Cause → List Flow
  | .halt => [.halt]
  | .stop => [.stop]
  | .fault _ => []

/-- A run that advances has taken a step that lets it go on. -/
theorem Advances.history (h : Advances programSize machine machine') :
    ∃ event : Event σ, event.flow = .next ∧
      ∀ n, history programSize (n + 1) machine = event :: history programSize n machine' := by
  obtain ⟨stepped, hstep, rfl⟩ := h
  obtain ⟨instruction, next, hverdict, hsignal, rfl⟩ := step_eq_ok_iff.mp hstep
  refine ⟨machine.taking next instruction, hsignal, fun n => ?_⟩
  rw [history_of_ok hverdict, if_pos hsignal, after_taking hsignal]
  rfl

/-- Advances are the first steps of every longer history. -/
theorem Reaches.history (h : Reaches programSize k machine mid) :
    ∃ events : List (Event σ), flows events = List.replicate k .next ∧
      ∀ n, history programSize (k + n) machine = events ++ history programSize n mid := by
  induction h with
  | refl machine => exact ⟨[], rfl, fun n => by rw [Nat.zero_add]; rfl⟩
  | step hadvances _ ih =>
    obtain ⟨event, hflow, hfirst⟩ := hadvances.history
    obtain ⟨events, hflows, hrest⟩ := ih
    refine ⟨event :: events, ?_, fun n => ?_⟩
    · change event.flow :: flows events = _
      rw [hflow, hflows]
      rfl
    · rw [Nat.add_right_comm, hfirst, hrest]
      rfl

/-- The step that ends a run is its last event, unless it is refused. -/
theorem Concludes.history (h : Concludes programSize machine cause final) :
    ∃ events : List (Event σ), flows events = cause.flows ∧
      ∀ n, history programSize (n + 1) machine = events := by
  cases h with
  | halt hstep | stop hstep =>
    obtain ⟨instruction, next, hverdict, hsignal, -⟩ := step_eq_ok_iff.mp hstep
    refine ⟨[machine.taking next instruction], congrArg (fun flow => [flow]) hsignal, fun n => ?_⟩
    rw [history_of_ok hverdict, hsignal]
    rfl
  | fault hstep =>
    obtain ⟨hverdict, -⟩ := step_eq_error_iff.mp hstep
    exact ⟨[], rfl, fun n => history_of_error hverdict (n + 1)⟩

/-- A run that may go on to the end has the same events however far beyond it might go. -/
theorem Ends.history (h : Ends programSize k machine cause final) :
    ∃ events : List (Event σ), flows events = List.replicate k .next ++ cause.flows ∧
      ∀ n, k < n → history programSize n machine = events := by
  obtain ⟨last, hreaches, hconcludes⟩ := h
  obtain ⟨first, hfirst, hhistory⟩ := hreaches.history
  obtain ⟨rest, hrest, hhistory'⟩ := hconcludes.history
  refine ⟨first ++ rest, ?_, fun n hk => ?_⟩
  · unfold flows at hfirst hrest ⊢
    rw [List.map_append, hfirst, hrest]
  · obtain ⟨extra, rfl⟩ := Nat.exists_eq_add_of_lt hk
    rw [Nat.add_assoc, hhistory, hhistory']

/-! ## Runs -/

/-- A machine takes an event next: the instruction of the event stands at its instruction pointer.
-/
structure TakesNext (machine : Machine σ) (event : Event σ) : Prop where
  before : event.before = machine
  encoded : ((List.range event.instruction.encode.length).map fun i =>
    machine.romByte ((machine.register .ip).toNat + i)) = event.instruction.encode

/-- What a run counts among its events, and what the count tells of its end. -/
structure Tallied (fuel : Nat) (programSize : UInt16) (budget : UInt32) (machine : Machine σ)
    (events : List (Event σ)) (final : Machine σ) : Prop where
  /-- The events are steps one after the other, from the machine to the one that the run ends in. -/
  leads : Leads programSize machine events final
  /-- Every event counts, unless it executes a `halt`. -/
  halts : ∀ event ∈ events, event.flow = .halt ↔ event.Executes .halt
  executed : final.executed = machine.executed + UInt64.ofNat (tally events)
  /-- A run with a budget returns. -/
  returns : budget ≠ 0 → ∃ outcome : Except Fault Outcome,
    (run fuel programSize budget).run machine = result (outcome.map some) final
  le_limit : tally events ≤ stepLimit fuel budget
  /-- It pauses when its budget is used up and none of its steps has been a stop. -/
  paused_iff : (run fuel programSize budget).run machine = .ok (some .paused) final ↔
    budget ≠ 0 ∧ tally events = budget.toNat ∧ .stop ∉ flows events
  finished_iff : (run fuel programSize budget).run machine = .ok (some .finished) final ↔
    .halt ∈ flows events ∨ .stop ∈ flows events
  /-- A run that comes to a `halt` has not used up its budget. -/
  lt_limit_of_halt : .halt ∈ flows events → tally events < stepLimit fuel budget
  /-- Nor has a run that faults. -/
  lt_limit_of_fault : ∀ fault, (run fuel programSize budget).run machine = .error fault final →
    tally events < stepLimit fuel budget
  /-- A paused machine is where the last of its steps has gone on to, and what it takes next is what
  a longer run would have taken after the same events. -/
  resumes : (run fuel programSize budget).run machine = .ok (some .paused) final →
    (∀ last, events.getLast? = some last → final.register .ip =
      if last.before.skipPending then last.next
      else last.before.destination last.next last.instruction) ∧
    ∀ n, history programSize (budget.toNat + n) machine = events ++ history programSize n final ∧
      ∀ event, (history programSize n final).head? = some event → final.TakesNext event

/-- The first event of a history is what the machine takes next. -/
theorem takesNext_of_head? {event : Event σ}
    (h : (history programSize n machine).head? = some event) : machine.TakesNext event := by
  have hleads := leads_history programSize n machine
  rw [List.head?_eq_getElem?] at h
  have hbefore : event.before = machine := by
    cases hleads.reaches h
    rfl
  obtain ⟨hfetch, -⟩ := hleads.completes (List.mem_of_getElem? h)
  rw [hbefore] at hfetch
  exact ⟨hbefore, (encode_of_fetched (fetch_eq_ok_iff.mp hfetch).1).1⟩

/-- A paused machine is where the last of its steps has gone on to. -/
theorem Leads.register_ip (h : Leads programSize machine events final) {last : Event σ}
    (hlast : events.getLast? = some last) :
    final.register .ip =
      if last.before.skipPending then last.next
      else last.before.destination last.next last.instruction := by
  have hfinal := h.eq_getLast?
  rw [hlast, Option.map_some, Option.getD_some] at hfinal
  rw [hfinal]
  exact (h.completes (List.mem_of_getLast? hlast)).register_ip_after

variable {fuel : Nat} {budget : UInt32}

/-- A run that has advanced as often as it may. -/
theorem Leads.tallied_of_reaches
    (hleads : Leads programSize machine (history programSize (stepLimit fuel budget) machine)
      final)
    (hreaches : Reaches programSize (stepLimit fuel budget) machine final)
    (hrun : (run fuel programSize budget).run machine = .ok (answer budget .paused) final) :
    Tallied fuel programSize budget machine
      (history programSize (stepLimit fuel budget) machine) final := by
  -- A run that pauses has gone on to the next step after each of its steps.
  obtain ⟨events, hflows, hhistory⟩ := hreaches.history
  have hevents : history programSize (stepLimit fuel budget) machine = events :=
    (hhistory 0).trans (List.append_nil events)
  rw [hevents] at hleads ⊢
  have htally : tally events = stepLimit fuel budget := by
    unfold tally
    rw [hflows, List.countP_replicate]
    rfl
  have hnext {flow : Flow} (hflow : flow ∈ flows events) : flow = .next :=
    List.eq_of_mem_replicate (hflows ▸ hflow)
  have hpaused : answer budget .paused = some .paused ↔ budget ≠ 0 := by
    rw [answer_eq_some_iff]
    simp
  refine
    { leads := hleads
      halts := fun event hevent => (hleads.completes hevent).flow_eq_halt_iff
      executed := hleads.executed
      returns := fun hbudget => ⟨.ok .paused, ?_⟩
      le_limit := Nat.le_of_eq htally
      paused_iff := ?_
      finished_iff := ?_
      lt_limit_of_halt := fun hhalt => nomatch hnext hhalt
      lt_limit_of_fault := fun fault hfault => nomatch hrun.symm.trans hfault
      resumes := fun hpause => ⟨fun last => hleads.register_ip, fun n =>
        ⟨?_, fun event => takesNext_of_head?⟩⟩ }
  · rw [hrun, hpaused.mpr hbudget]
    rfl
  · rw [hrun]
    constructor
    · intro hpause
      injection hpause with hanswer
      have hbudget := hpaused.mp hanswer
      exact ⟨hbudget, htally.trans (stepLimit_of_ne_zero hbudget fuel),
        fun hstop => nomatch hnext hstop⟩
    · rintro ⟨hbudget, -⟩
      rw [hpaused.mpr hbudget]
  · -- Nothing has halted or stopped it.
    rw [hrun]
    constructor
    · intro hfinished
      injection hfinished with hanswer
      cases (answer_eq_some_iff.mp hanswer).1
    · rintro (hhalt | hstop)
      · exact nomatch hnext hhalt
      · exact nomatch hnext hstop
  · -- What comes after the pause comes after these steps.
    obtain ⟨hbudget, -⟩ := run_eq_paused_iff.mp hpause
    rw [← stepLimit_of_ne_zero hbudget fuel]
    exact hhistory n

/-- A run that has ended before. -/
theorem Leads.tallied_of_ends
    (hleads : Leads programSize machine (history programSize (stepLimit fuel budget) machine)
      final)
    (hends : Ends programSize k machine cause final) (hk : k < stepLimit fuel budget)
    (hrun : (run fuel programSize budget).run machine = result (cause.answer.map some) final) :
    Tallied fuel programSize budget machine
      (history programSize (stepLimit fuel budget) machine) final := by
  obtain ⟨events, hflows, hhistory⟩ := hends.history
  rw [hhistory _ hk] at hleads ⊢
  -- All steps go on to the next but the last one, and a halt does not count.
  have htally : tally events = k + cause.flows.countP (· ≠ .halt) := by
    unfold tally
    rw [hflows, List.countP_append, List.countP_replicate]
    rfl
  have hmem (flow : Flow) (hne : flow ≠ .next) : flow ∈ flows events ↔ flow ∈ cause.flows := by
    rw [hflows, List.mem_append]
    exact or_iff_right fun hnext => hne (List.eq_of_mem_replicate hnext)
  have hlimit (hbudget : budget ≠ 0) : k < budget.toNat := by
    rwa [stepLimit_of_ne_zero hbudget] at hk
  refine
    { leads := hleads
      halts := fun event hevent => (hleads.completes hevent).flow_eq_halt_iff
      executed := hleads.executed
      returns := fun _ => ⟨cause.answer, hrun⟩
      le_limit := ?_
      paused_iff := ?_
      finished_iff := ?_
      lt_limit_of_halt := fun hhalt => ?_
      lt_limit_of_fault := fun fault hfault => ?_
      resumes := fun hpause => ?_ }
  · rw [htally]
    cases cause with
    | halt | fault reason => exact Nat.le_of_lt hk
    | stop => exact hk
  · -- Only a stop may use up the budget.
    rw [hrun, htally, hmem .stop nofun]
    constructor
    · intro hpause
      cases cause <;> cases hpause
    · rintro ⟨hbudget, hsum, hstop⟩
      cases cause with
      | halt | fault reason => exact absurd hsum (Nat.ne_of_lt (hlimit hbudget))
      | stop => exact absurd (.head _) hstop
  · -- It finishes for a halt or a stop, and not for a fault.
    rw [hrun, hmem .halt nofun, hmem .stop nofun]
    cases cause with
    | halt => exact iff_of_true rfl (.inl (.head _))
    | stop => exact iff_of_true rfl (.inr (.head _))
    | fault reason => exact iff_of_false nofun (by rintro (hhalt | hstop) <;> contradiction)
  · -- A halt is reached within the budget and takes nothing of it.
    rw [hmem .halt nofun] at hhalt
    rw [htally]
    cases cause with
    | halt | fault reason => exact hk
    | stop => exact nomatch List.mem_singleton.mp hhalt
  · rw [htally]
    cases cause with
    | fault reason => exact hk
    | halt | stop => cases hrun.symm.trans hfault
  · -- A run that has ended has not paused.
    cases cause <;> cases hrun.symm.trans hpause

/-- The machine of a result is where it ends. -/
theorem ending_result {α : Type} (outcome : Except Fault α) (final : Machine σ) :
    ending (result outcome final) = final := by
  cases outcome <;> rfl

/-- What a run counts. -/
theorem tallied_run (fuel : Nat) (programSize : UInt16) (budget : UInt32) (machine : Machine σ) :
    Tallied fuel programSize budget machine
      (history programSize (stepLimit fuel budget) machine)
      (ending ((run fuel programSize budget).run machine)) := by
  have hleads := leads_run fuel programSize budget machine
  rcases run_reaches_or_ends fuel programSize budget machine with ⟨mid, hreaches, hrun⟩ |
    ⟨k, hk, cause, final, hends, hrun⟩
  · rw [hrun] at hleads ⊢
    exact hleads.tallied_of_reaches hreaches hrun
  · rw [hrun, ending_result] at hleads ⊢
    exact hleads.tallied_of_ends hends hk hrun

/-! ## Sessions -/

/-- The machine after a session. -/
def afterSession (machine : Machine σ) (actions : List (Action σ)) : Machine σ :=
  actions.foldl afterAction machine

/-- What the runs of a session count, one number for each action. -/
def tallies : Machine σ → List (Action σ) → List Nat
  | _, [] => []
  | machine, action :: actions =>
    tally (action.log machine []) :: tallies (machine.afterAction action) actions

/-- A session goes on from the machine that its first action leaves. -/
theorem afterSession_cons (action : Action σ) (actions : List (Action σ)) :
    machine.afterSession (action :: actions) = (machine.afterAction action).afterSession actions :=
  rfl

/-- The machine has just been created or reset. -/
def IsFresh (start : Machine σ) : Prop :=
  (∃ policy rom ram stackSize, start = create policy rom ram stackSize) ∨
    ∃ machine : Machine σ, start = machine.reset

/-- A fresh machine has executed nothing. -/
theorem executed_of_isFresh {start : Machine σ} (h : start.IsFresh) : start.executed = 0 := by
  rcases h with ⟨policy, rom, ram, stackSize, rfl⟩ | ⟨machine, rfl⟩ <;> rfl

/-- Every action but a reset adds its tally to the count. -/
theorem executed_afterAction {action : Action σ} (h : action ≠ .reset) :
    (machine.afterAction action).executed =
      machine.executed + UInt64.ofNat (tally (action.log machine [])) := by
  cases hedit : action.isEdit with
  | true =>
    rw [Action.log_of_isEdit hedit, (afterAction_of_isEdit hedit).2]
    exact (UInt64.add_zero _).symm
  | false =>
    cases action with
    | run fuel programSize budget =>
      rw [afterAction_run]
      exact (leads_run fuel programSize budget machine).executed
    | reset => exact absurd rfl h
    | _ => cases hedit

/-- Over a session without a reset the count is the sum of the tallies. -/
theorem executed_afterSession {actions : List (Action σ)} (h : ∀ action ∈ actions, action ≠ .reset) :
    (machine.afterSession actions).executed =
      machine.executed + UInt64.ofNat (machine.tallies actions).sum := by
  induction actions generalizing machine with
  | nil => exact (UInt64.add_zero _).symm
  | cons action actions ih =>
    rw [List.forall_mem_cons] at h
    rw [afterSession_cons, ih h.2, executed_afterAction h.1, tallies, List.sum_cons, UInt64.ofNat_add,
      UInt64.add_assoc]

/-! ## Divisions of a run -/

/-- Runs one after the other, each with a budget of its own. -/
def runs (fuel : Nat) (programSize : UInt16) (budgets : List UInt32) : List (Action σ) :=
  budgets.map (.run fuel programSize ·)

/-- A session of runs starts with the first of them. -/
theorem runs_cons (fuel : Nat) (programSize : UInt16) (budget : UInt32) (budgets : List UInt32) :
    (runs fuel programSize (budget :: budgets) : List (Action σ)) =
      .run fuel programSize budget :: runs fuel programSize budgets := rfl

/-- The steps that budgets allow together. -/
def total (budgets : List UInt32) : Nat :=
  (budgets.map UInt32.toNat).sum

/-- Runs from a machine that faults or halts at once count nothing, and stay there. -/
theorem Concludes.afterSession_runs (h : Concludes programSize machine cause machine)
    (hcause : cause ≠ .stop) {budgets : List UInt32} (hbudgets : ∀ budget ∈ budgets, budget ≠ 0) :
    machine.afterSession (runs fuel programSize budgets) = machine ∧
      (machine.tallies (runs fuel programSize budgets)).sum = 0 := by
  -- No run takes a step, so each of them starts where the first one did.
  induction budgets with
  | nil => exact ⟨rfl, rfl⟩
  | cons budget budgets ih =>
    rw [List.forall_mem_cons] at hbudgets
    have hpos : 0 < stepLimit fuel budget := by
      rw [stepLimit_of_ne_zero hbudgets.1]
      exact Nat.pos_of_ne_zero fun hzero => hbudgets.1 (UInt32.toNat_inj.mp hzero)
    have hafter : machine.afterAction (.run fuel programSize budget) = machine := by
      rw [afterAction_run, h.ends.run_run hpos, ending_result]
    obtain ⟨events, hflows, hhistory⟩ := h.ends.history
    have htally : tally ((Action.run fuel programSize budget).log machine []) = 0 := by
      change tally (Machine.history programSize (stepLimit fuel budget) machine) = 0
      unfold tally
      rw [hhistory _ hpos, hflows]
      cases cause with
      | halt | fault reason => rfl
      | stop => exact absurd rfl hcause
    obtain ⟨hfinal, hsum⟩ := ih hbudgets.2
    rw [runs_cons, afterSession_cons, tallies, List.sum_cons, hafter, htally, hsum]
    exact ⟨hfinal, rfl⟩

/-- However a number of steps is divided into budgets, the runs count what one run of so many steps
counts, and come to the same machine, if only the last of them may be stopped. -/
theorem afterSession_runs {budgets : List UInt32} (hbudgets : ∀ budget ∈ budgets, budget ≠ 0)
    (hstop : .stop ∉ flows (history programSize (total budgets.dropLast) machine)) :
    machine.afterSession (runs fuel programSize budgets) =
        ending ((runSteps programSize (total budgets)).run machine) ∧
      (machine.tallies (runs fuel programSize budgets)).sum =
        tally (history programSize (total budgets) machine) := by
  induction budgets generalizing machine with
  | nil => exact ⟨rfl, rfl⟩
  | cons budget budgets ih =>
    rw [List.forall_mem_cons] at hbudgets
    have hlimit : stepLimit fuel budget = budget.toNat := stepLimit_of_ne_zero hbudgets.1 fuel
    have htotal : total (budget :: budgets) = budget.toNat + total budgets := List.sum_cons
    have hlog : (Action.run fuel programSize budget).log machine [] =
        history programSize budget.toNat machine := congrArg (history programSize · machine) hlimit
    rw [htotal, runs_cons, afterSession_cons, tallies, List.sum_cons, afterAction_run, hlog]
    rcases budgets with _ | ⟨next, budgets⟩
    · rw [ending_run_run, hlimit]
      exact ⟨rfl, rfl⟩
    · have hothers : total (budget :: next :: budgets).dropLast =
          budget.toNat + total (next :: budgets).dropLast := List.sum_cons
      rw [hothers] at hstop
      rcases run_reaches_or_ends fuel programSize budget machine with ⟨mid, hreaches, hrun⟩ |
        ⟨k, hk, cause, final, hends, hrun⟩
      · -- The first run has advanced, and the others go on from there.
        rw [hlimit] at hreaches
        obtain ⟨events, -, hhistory⟩ := hreaches.history
        have hfirst : history programSize budget.toNat machine = events :=
          (hhistory 0).trans (List.append_nil events)
        rw [hhistory] at hstop
        unfold flows at hstop
        rw [List.map_append, List.mem_append, not_or] at hstop
        obtain ⟨hfinal, hsum⟩ := ih hbudgets.2 hstop.2
        rw [hrun, hhistory, hreaches.runSteps_run, tally_append, ← hsum, hfirst]
        exact ⟨hfinal, rfl⟩
      · -- It has ended, and so do the others at once.
        rw [hlimit] at hk
        have hlt (n : Nat) : k < budget.toNat + n := Nat.lt_add_right n hk
        obtain ⟨events, hflows, hhistory⟩ := hends.history
        rw [hhistory _ (hlt _), hflows] at hstop
        have hcause : cause ≠ .stop := by
          rintro rfl
          exact hstop (List.mem_append_right _ (.head _))
        have hrunSteps := hends.runSteps_run (hlt (total (next :: budgets)))
        obtain ⟨last, -, hconcludes⟩ := hends
        obtain rfl := hconcludes.eq_of_ne_stop hcause
        obtain ⟨hfinal, hsum⟩ := hconcludes.afterSession_runs hcause hbudgets.2
        rw [hrun, ending_result, hfinal, hsum, hhistory _ hk, hhistory _ (hlt _), hrunSteps,
          ending_result]
        exact ⟨rfl, rfl⟩

/-- The count of instructions is exact. Every run adds its tally, which the budget bounds and a
pause uses up; since creation or the last reset the count is the sum of the tallies of the runs; and
the sum does not depend on how a number of steps is divided into runs, of which only the last may be
stopped. -/
theorem instructions_are_counted (programSize : UInt16) (machine : Machine σ) :
    (∀ fuel budget, Tallied fuel programSize budget machine
      (history programSize (stepLimit fuel budget) machine)
      (ending ((run fuel programSize budget).run machine))) ∧
    (machine.IsFresh → ∀ actions : List (Action σ), (∀ action ∈ actions, action ≠ .reset) →
      (machine.afterSession actions).executed = UInt64.ofNat (machine.tallies actions).sum) ∧
    ∀ fuel budgets, (∀ budget ∈ budgets, budget ≠ 0) →
      .stop ∉ flows (history programSize (total budgets.dropLast) machine) →
      machine.afterSession (runs fuel programSize budgets) =
          ending ((runSteps programSize (total budgets)).run machine) ∧
        (machine.tallies (runs fuel programSize budgets)).sum =
          tally (history programSize (total budgets) machine) := by
  refine ⟨fun fuel budget => tallied_run fuel programSize budget machine,
    fun hfresh actions hactions => ?_, fun fuel budgets => afterSession_runs⟩
  rw [executed_afterSession hactions, executed_of_isFresh hfresh]
  exact UInt64.zero_add _

/-- A session pauses before a skipped step, stops at a system call, which counts, and comes to a
halt, which does not. Up to the stop, three budgets of one step count the same as one of three. -/
theorem instructions_are_counted_calling_halting :
    calling.reset.tallies [.run 0 0 1, .setRegister .r0 7, .run 0 0 5, .run 0 0 5] = [1, 0, 2, 1] ∧
      (calling.reset.afterSession
        [.run 0 0 1, .setRegister .r0 7, .run 0 0 5, .run 0 0 5]).executed = 4 ∧
      (calling.tallies (runs 0 0 [1, 1, 1])).sum = (calling.tallies (runs 0 0 [3])).sum ∧
      calling.afterSession (runs 0 0 [1, 1, 1]) = calling.afterSession (runs 0 0 [3]) := by
  have htallies : calling.reset.tallies
      [.run 0 0 1, .setRegister .r0 7, .run 0 0 5, .run 0 0 5] = [1, 0, 2, 1] := rfl
  obtain ⟨-, hsession, -⟩ := instructions_are_counted 0 calling.reset
  have hexecuted := hsession (.inr ⟨calling, rfl⟩)
    [.run 0 0 1, .setRegister .r0 7, .run 0 0 5, .run 0 0 5] (by simp)
  rw [htallies] at hexecuted
  have hstop : Flow.stop ∉ flows (history 0 2 calling) := by decide
  obtain ⟨-, -, hdivided⟩ := instructions_are_counted 0 calling
  obtain ⟨hfinal, hsum⟩ := hdivided 0 [1, 1, 1] (by simp) hstop
  obtain ⟨hfinal', hsum'⟩ := hdivided 0 [3] (by simp) nofun
  exact ⟨htallies, hexecuted, hsum.trans hsum'.symm, hfinal.trans hfinal'.symm⟩

end Machine

end RegisterMachine
