import RegisterMachine.Proofs.Machine.Endings
import RegisterMachine.Proofs.Machine.Fetching

/-!
# The steps of a run

`history` lists the steps that a bounded run completes, in their order. Each of them is an `Event`:
the machine that takes it, what that machine fetches, and the machine that it leaves. A step that is
refused completes nothing and is no event. A `halt` is one, although it is not counted.

A run is told by its events. The machine at each of them is reached by the events before it
(`Leads.reaches`), the run ends in the machine that the last one leaves (`Leads.eq_getLast?`), and
what a run changes one of its events changes (`Leads.exists_of_ne`).
-/

namespace RegisterMachine

/-- A step that completes. -/
structure Event (σ : Type) where
  /-- The machine that takes it. -/
  before : Machine σ
  instruction : Instruction
  /-- The address after the instruction. -/
  next : UInt32
  /-- How the run goes on. -/
  flow : Flow
  /-- The machine that it leaves, with the step counted. -/
  after : Machine σ

namespace Machine

variable {σ : Type}

/-- The machine that a step leaves to the run. Only a `halt` is not counted. -/
def leaving (stepped : Machine σ) : Flow → Machine σ
  | .halt => stepped
  | .stop | .next => stepped.counted

section

variable (stepped : Machine σ) (flow : Flow)

/-- Counting a step changes nothing of what is fixed. -/
@[simp] theorem fixed_leaving : (stepped.leaving flow).fixed = stepped.fixed := by
  cases flow <;> rfl

/-- Counting a step does not touch RAM. -/
@[simp] theorem ram_leaving : (stepped.leaving flow).ram = stepped.ram := by
  cases flow <;> rfl

/-- Counting a step does not touch the registers. -/
@[simp] theorem register_leaving (register : Register) :
    (stepped.leaving flow).register register = stepped.register register := by
  cases flow <;> rfl

/-- Counting a step does not touch the pending skip. -/
@[simp] theorem skipPending_leaving :
    (stepped.leaving flow).skipPending = stepped.skipPending := by
  cases flow <;> rfl

end

/-- The steps that a bounded run completes, the first one first. -/
def history (programSize : UInt16) : Nat → Machine σ → List (Event σ)
  | 0, _ => []
  | budget + 1, machine =>
    match Exec.fetch.run machine with
    | .error _ _ => []
    | .ok (instruction, next) _ =>
      match (step programSize).run machine with
      | .error _ _ => []
      | .ok flow stepped =>
        let event : Event σ := ⟨machine, instruction, next, flow, stepped.leaving flow⟩
        event :: if flow = .next then history programSize budget event.after else []

end Machine

namespace Event

variable {σ : Type}

/-- The step executes an instruction, and does not skip it. -/
def Executes (event : Event σ) (instruction : Instruction) : Prop :=
  event.before.skipPending = false ∧ event.instruction = instruction

/-- The machine of an event fetches its instruction, and takes the step. -/
structure Completes (programSize : UInt16) (event : Event σ) : Prop where
  fetch : Exec.fetch.run event.before = .ok (event.instruction, event.next) event.before
  step : ∃ stepped, (Machine.step programSize).run event.before = .ok event.flow stepped ∧
    event.after = stepped.leaving event.flow

/-- The event in the terms of verdicts and effects. -/
theorem completes_iff {programSize : UInt16} {event : Event σ} :
    event.Completes programSize ↔
      event.before.verdict programSize = .ok (event.instruction, event.next) ∧
        event.before.signal event.instruction = event.flow ∧
        event.after = (event.before.after event.next event.instruction).leaving event.flow := by
  constructor
  · rintro ⟨hfetch, stepped, hstep, hafter⟩
    obtain ⟨instruction, next, hverdict, hsignal, rfl⟩ := Machine.step_eq_ok_iff.mp hstep
    have hfetched := (Machine.fetch_eq_ok_iff.mp hfetch).1
    rw [Machine.fetched_of_verdict hverdict] at hfetched
    injection hfetched with htaken
    injection htaken with hinstruction hnext
    subst hinstruction hnext
    exact ⟨hverdict, hsignal, hafter⟩
  · rintro ⟨hverdict, hsignal, hafter⟩
    exact ⟨Machine.fetch_eq_ok_iff.mpr ⟨Machine.fetched_of_verdict hverdict, rfl⟩, _,
      Machine.step_eq_ok_iff.mpr ⟨_, _, hverdict, hsignal, rfl⟩, hafter⟩

/-- Where the instruction pointer is after a step. -/
theorem Completes.register_ip_after {programSize : UInt16} {event : Event σ}
    (h : event.Completes programSize) :
    event.after.register .ip =
      if event.before.skipPending then event.next
      else event.before.destination event.next event.instruction := by
  obtain ⟨-, -, hafter⟩ := completes_iff.mp h
  rw [hafter, Machine.register_leaving, Machine.register_ip_after]

/-- No step changes what is fixed. -/
theorem Completes.fixed {programSize : UInt16} {event : Event σ}
    (h : event.Completes programSize) : event.after.fixed = event.before.fixed := by
  obtain ⟨-, -, hafter⟩ := completes_iff.mp h
  rw [hafter, Machine.fixed_leaving, Machine.fixed_after]

/-- A step passes over its instruction or executes it. -/
theorem Completes.after_cases {programSize : UInt16} {event : Event σ}
    (h : event.Completes programSize) :
    event.before.skipPending = true ∧
        event.after = (event.before.skippedTo event.next).leaving event.flow ∨
      event.before.skipPending = false ∧
        event.after =
          (event.before.executedTo event.next event.instruction).leaving event.flow := by
  obtain ⟨-, -, hafter⟩ := completes_iff.mp h
  unfold Machine.after at hafter
  cases hskip : event.before.skipPending with
  | true =>
    rw [hskip, if_pos rfl] at hafter
    exact .inl ⟨rfl, hafter⟩
  | false =>
    rw [hskip, if_neg Bool.false_ne_true] at hafter
    exact .inr ⟨rfl, hafter⟩

end Event

namespace Machine

variable {σ : Type} {programSize : UInt16} {machine : Machine σ} {event : Event σ} {i : Nat}

/-- The event of a step that completes. -/
def taking (machine : Machine σ) (next : UInt32) (instruction : Instruction) : Event σ :=
  ⟨machine, instruction, next, machine.signal instruction,
    (machine.after next instruction).leaving (machine.signal instruction)⟩

/-- A step that its verdict grants completes. -/
theorem completes_taking {instruction : Instruction} {next : UInt32}
    (h : machine.verdict programSize = .ok (instruction, next)) :
    (machine.taking next instruction).Completes programSize :=
  Event.completes_iff.mpr ⟨h, rfl, rfl⟩

/-- The event of a step leaves the machine after the step, counted as its signal says. -/
theorem after_taking {instruction : Instruction} {flow : Flow}
    (h : machine.signal instruction = flow) (next : UInt32) :
    (machine.taking next instruction).after = (machine.after next instruction).leaving flow := by
  rw [← h]
  rfl

/-- A refused step is no event. -/
theorem history_of_error {fault : Fault} (h : machine.verdict programSize = .error fault)
    (n : Nat) : history programSize n machine = [] := by
  cases n with
  | zero => rfl
  | succ n =>
    have hstep := step_eq_error_iff.mpr ⟨h, rfl⟩
    unfold history
    rw [hstep]
    cases Exec.fetch.run machine <;> rfl

/-- A step that completes is an event, and others follow it if the run goes on. -/
theorem history_of_ok {instruction : Instruction} {next : UInt32}
    (h : machine.verdict programSize = .ok (instruction, next)) (n : Nat) :
    history programSize (n + 1) machine =
      machine.taking next instruction ::
        if machine.signal instruction = .next then
          history programSize n (machine.taking next instruction).after
        else [] := by
  have hfetch := fetch_eq_ok_iff.mpr ⟨fetched_of_verdict h, rfl⟩
  have hstep : (step programSize).run machine = .ok (machine.signal instruction) _ :=
    step_eq_ok_iff.mpr ⟨instruction, next, h, rfl, rfl⟩
  rw [history, hfetch, hstep]
  rfl

/-- Events that lead from a machine to another: each is taken by the machine that the one before it
leaves, and only the last one may end the run. -/
inductive Leads (programSize : UInt16) : Machine σ → List (Event σ) → Machine σ → Prop where
  | none (machine : Machine σ) : Leads programSize machine [] machine
  | last {event : Event σ} (hcompletes : event.Completes programSize) (hflow : event.flow ≠ .next) :
      Leads programSize event.before [event] event.after
  | next {event : Event σ} {events : List (Event σ)} {final : Machine σ}
      (hcompletes : event.Completes programSize) (hflow : event.flow = .next)
      (hleads : Leads programSize event.after events final) :
      Leads programSize event.before (event :: events) final

/-- The history of a run leads to the machine in which the run ends. -/
theorem leads_history (programSize : UInt16) (n : Nat) (machine : Machine σ) :
    Leads programSize machine (history programSize n machine)
      (ending ((runSteps programSize n).run machine)) := by
  -- The history ends with the first step that the run does not go on from.
  induction n generalizing machine with
  | zero => exact .none machine
  | succ n ih =>
    rw [runSteps_succ_run]
    cases hverdict : machine.verdict programSize with
    | error fault =>
      rw [history_of_error hverdict]
      exact .none machine
    | ok taken =>
      obtain ⟨instruction, next⟩ := taken
      have hcompletes := completes_taking hverdict
      rw [history_of_ok hverdict, resume_ok]
      dsimp only
      cases hsignal : machine.signal instruction with
      | next =>
        rw [if_pos rfl]
        refine .next hcompletes hsignal ?_
        rw [after_taking hsignal]
        exact ih _
      | halt | stop =>
        have hlast := Leads.last hcompletes fun hnext => nomatch hsignal.symm.trans hnext
        rw [after_taking hsignal] at hlast
        rw [if_neg nofun]
        exact hlast

namespace Leads

variable {events : List (Event σ)} {final : Machine σ}

/-- The machine in which events end is the one that the last of them leaves. -/
theorem eq_getLast? (h : Leads programSize machine events final) :
    final = (events.getLast?.map Event.after).getD machine := by
  induction h with
  | none | last => rfl
  | @next _ events _ _ _ _ ih =>
    rw [List.getLast?_cons, Option.map_some, Option.getD_some, ih]
    cases events.getLast? <;> rfl

/-- All the steps that lead from one machine to another complete. -/
theorem completes (h : Leads programSize machine events final) (hevent : event ∈ events) :
    event.Completes programSize := by
  induction h with
  | none => exact absurd hevent List.not_mem_nil
  | last hcompletes => rwa [List.mem_singleton.mp hevent]
  | next hcompletes _ _ ih =>
    rcases List.mem_cons.mp hevent with rfl | hrest
    · exact hcompletes
    · exact ih hrest

/-- No steps change what is fixed. -/
theorem fixed (h : Leads programSize machine events final) : final.fixed = machine.fixed := by
  induction h with
  | none => rfl
  | last hcompletes => exact hcompletes.fixed
  | next hcompletes _ _ ih => exact ih.trans hcompletes.fixed

/-- What is fixed is the same before each of the steps. -/
theorem fixed_before (h : Leads programSize machine events final) (hevent : event ∈ events) :
    event.before.fixed = machine.fixed := by
  induction h with
  | none => exact absurd hevent List.not_mem_nil
  | last => rw [List.mem_singleton.mp hevent]
  | next hcompletes _ _ ih =>
    rcases List.mem_cons.mp hevent with rfl | hrest
    · rfl
    · exact (ih hrest).trans hcompletes.fixed

/-- The machine of an event is reached by as many steps as there are events before it. -/
theorem reaches (h : Leads programSize machine events final) (hevent : events[i]? = some event) :
    Reaches programSize i machine event.before := by
  induction h generalizing i with
  | none => cases hevent
  | last =>
    cases i with
    | zero =>
      cases hevent
      exact .refl _
    | succ i => cases hevent
  | next hcompletes hflow _ ih =>
    cases i with
    | zero =>
      cases hevent
      exact .refl _
    | succ i =>
      obtain ⟨stepped, hstep, hafter⟩ := hcompletes.step
      rw [hflow] at hstep hafter
      exact .step ⟨stepped, hstep, hafter⟩ (ih hevent)

/-- What events change together one of them changes. -/
theorem exists_of_ne (h : Leads programSize machine events final) {α : Type}
    (view : Machine σ → α) (hview : view final ≠ view machine) :
    ∃ event ∈ events, view event.after ≠ view event.before := by
  induction h with
  | none => exact absurd rfl hview
  | @last event => exact ⟨event, .head _, hview⟩
  | @next event _ _ _ _ _ ih =>
    by_cases hfirst : view event.after = view event.before
    · rw [← hfirst] at hview
      obtain ⟨later, hmem, hlater⟩ := ih hview
      exact ⟨later, .tail _ hmem, hlater⟩
    · exact ⟨event, .head _, hfirst⟩

end Leads

/-- The history of a run leads to the machine in which the run ends. -/
theorem leads_run (fuel : Nat) (programSize : UInt16) (budget : UInt32) (machine : Machine σ) :
    Leads programSize machine (history programSize (stepLimit fuel budget) machine)
      (ending ((run fuel programSize budget).run machine)) := by
  rw [ending_run_run]
  exact leads_history programSize (stepLimit fuel budget) machine

end Machine

end RegisterMachine
