import RegisterMachine.Machine.Host
import RegisterMachine.Proofs.Machine.History

/-!
# Sessions

A session is what a host does with a machine, one `Action` after the other: it runs the machine, and
between runs it resets it, writes its registers, its stack and its RAM, and exchanges its interrupt
handler. `Logged` gives the machines that sessions come to, with the log of the steps that their
runs have completed since the last reset.

Edits, which are the other actions, leave alone the pending skip and the count of instructions
(`afterAction_of_isEdit`).
-/

namespace RegisterMachine

/-- What a host does to a machine. -/
inductive Action (σ : Type) where
  | run (fuel : Nat) (programSize : UInt16) (budget : UInt32)
  | reset
  | setRegister (register : Register) (value : UInt32)
  | setRegisterById (id : UInt8) (value : UInt32)
  | push (value : UInt32)
  | pop
  | patch (address : UInt16) (bytes : List UInt8)
  | setHandler (handler : Option (Handler σ))

/-- What a host gets for it. -/
inductive Answer where
  | done
  /-- How a run has ended, unless it has not. -/
  | outcome (outcome : Option Outcome)
  /-- A word off the stack. -/
  | word (word : UInt32)
  /-- The bytes of RAM that there was room for. -/
  | room (bytes : Nat)
  deriving DecidableEq, Repr

namespace Machine

variable {σ : Type}

/-! ## Operations of the host -/

/-- A write by id goes to the register that the id stands for, or is refused. -/
theorem setRegisterById_run (machine : Machine σ) (id : UInt8) (value : UInt32) :
    (setRegisterById id value).run machine =
      machine.resume (Register.ofId id) fun register =>
        .ok () (machine.setRegister register value) := by
  rw [setRegisterById, ofExcept_bind_run]
  rfl

/-- A push of the host puts the word below the stack pointer and moves it there, if RAM has room. -/
theorem hostPush_run (machine : Machine σ) (value : UInt32) :
    (hostPush value).run machine =
      machine.resume (machine.spans (machine.register .sp - 4)) fun _ =>
        .ok () ((machine.writeWord (machine.register .sp - 4) value).setRegister .sp
          (machine.register .sp - 4)) := by
  simp only [hostPush, spans, getRegister_bind_run, ramHoldsWord_bind_run,
    require_bind_run, writeWord_bind_run]
  rfl

/-- A pop of the host gives the word at the stack pointer and moves past it, if there is one. -/
theorem hostPop_run (machine : Machine σ) :
    hostPop.run machine =
      machine.resume (machine.spans (machine.register .sp)) fun _ =>
        .ok (machine.readWord (machine.register .sp))
          (machine.setRegister .sp (machine.register .sp + 4)) := by
  simp only [hostPop, spans, getRegister_bind_run, ramHoldsWord_bind_run,
    require_bind_run, readWord_bind_run, setRegister_bind_run]
  rfl

/-- A patch is laid over RAM, and refused where its address leads elsewhere. -/
theorem patch_run (machine : Machine σ) (address : UInt16) (bytes : List UInt8) :
    (patch address bytes).run machine =
      match machine.locate address with
      | .ram offset =>
        .ok (machine.ram.size - offset.toNat)
          { machine with ram := machine.ram.overwrite offset.toNat bytes }
      | .rom _ | .unmapped => .error (.invalidAddress address.toUInt32) machine := by
  rw [patch, get_bind_run]
  cases machine.locate address <;> rfl

end Machine

/-! ## Actions -/

/-- An action as a computation. -/
def Action.perform {σ : Type} : Action σ → Exec σ Answer
  | .run fuel programSize budget => return .outcome (← Machine.run fuel programSize budget)
  | .reset => do
    modify Machine.reset
    return .done
  | .setRegister register value => do
    Exec.setRegister register value
    return .done
  | .setRegisterById id value => do
    Machine.setRegisterById id value
    return .done
  | .push value => do
    Machine.hostPush value
    return .done
  | .pop => return .word (← Machine.hostPop)
  | .patch address bytes => return .room (← Machine.patch address bytes)
  | .setHandler handler => do
    modify (·.setHandler handler)
    return .done

/-- Neither a run nor a reset. -/
def Action.isEdit {σ : Type} : Action σ → Bool
  | .run _ _ _ | .reset => false
  | .setRegister _ _ | .setRegisterById _ _ | .push _ | .pop | .patch _ _ | .setHandler _ => true

/-- The log of the steps since the last reset, after an action. -/
def Action.log {σ : Type} (machine : Machine σ) (events : List (Event σ)) :
    Action σ → List (Event σ)
  | .run fuel programSize budget =>
    events ++ Machine.history programSize (Machine.stepLimit fuel budget) machine
  | .reset => []
  | .setRegister _ _ | .setRegisterById _ _ | .push _ | .pop | .patch _ _ | .setHandler _ => events

/-- An edit takes no step. -/
theorem Action.log_of_isEdit {σ : Type} {machine : Machine σ} {events : List (Event σ)}
    {action : Action σ} (h : action.isEdit = true) : action.log machine events = events := by
  cases action with
  | run fuel programSize budget => cases h
  | reset => cases h
  | _ => rfl

namespace Machine

variable {σ : Type} {machine : Machine σ} {action : Action σ} {events : List (Event σ)}

/-- The machine after an action, whether that succeeds or not. -/
def afterAction (machine : Machine σ) (action : Action σ) : Machine σ :=
  ending (action.perform.run machine)

/-- The machines that sessions come to, with the log of the steps since the last reset. -/
inductive Logged : List (Event σ) → Machine σ → Prop where
  | create (policy : Policy) (rom ram : Region) (stackSize : UInt16) :
      Logged [] (create policy rom ram stackSize)
  | act {events : List (Event σ)} {machine : Machine σ} (h : Logged events machine)
      (action : Action σ) : Logged (action.log machine events) (machine.afterAction action)

/-- A run as an action ends where the run does. -/
theorem afterAction_run (fuel : Nat) (programSize : UInt16) (budget : UInt32) :
    machine.afterAction (.run fuel programSize budget) =
      ending ((run fuel programSize budget).run machine) :=
  ending_map ..

/-- An edit leaves alone what a run keeps its books with. -/
theorem afterAction_of_isEdit (h : action.isEdit = true) :
    (machine.afterAction action).skipPending = machine.skipPending ∧
      (machine.afterAction action).executed = machine.executed := by
  unfold afterAction
  cases action with
  | run fuel programSize budget => cases h
  | reset => cases h
  | setRegister register value => exact ⟨rfl, rfl⟩
  | setHandler handler => exact ⟨rfl, rfl⟩
  | setRegisterById id value =>
    rw [Action.perform, ending_map (fun _ => Answer.done), setRegisterById_run]
    cases Register.ofId id <;> exact ⟨rfl, rfl⟩
  | push value =>
    rw [Action.perform, ending_map (fun _ => Answer.done), hostPush_run]
    cases machine.spans (machine.register .sp - 4) <;> exact ⟨rfl, rfl⟩
  | pop =>
    rw [Action.perform, ending_map, hostPop_run]
    cases machine.spans (machine.register .sp) <;> exact ⟨rfl, rfl⟩
  | patch address bytes =>
    rw [Action.perform, ending_map, patch_run]
    cases machine.locate address <;> exact ⟨rfl, rfl⟩

end Machine

end RegisterMachine
