import RegisterMachine.Proofs.Machine.Accounting

/-!
# A reset erases the past

What a machine has been made with, its policy, ROM, the place of its RAM and the size hint of its
stack (`Machine.made`), no action of the host changes, however its runs end (`made_afterSession`). A
reset computes everything else from it, but for the interrupt handler, which stays. So a machine
that has been reset is one that has just been created (`reset_erases_history`), and whatever the
host does next it gets the same results from both (`Machine.transcript`).
-/

namespace RegisterMachine

/-- What is left of a cleared region are its base and its size. -/
theorem Region.clear_eq_of_size_eq {region region' : Region} (hbase : region.base = region'.base)
    (hsize : region.size = region'.size) : region.clear = region'.clear := by
  unfold clear
  rw [Region.mk.injEq, hsize]
  exact ⟨hbase, rfl⟩

namespace Machine

variable {σ : Type} {machine machine' : Machine σ} {action : Action σ}

/-! ## What no action changes -/

/-- What a machine has been made with: what is fixed for the program, and the size hint. -/
def made (machine : Machine σ) : (Policy × Region × UInt16 × Nat) × UInt16 :=
  (machine.fixed, machine.stackSize)

/-- What a machine has been made with is its policy, its ROM, the place and the size of its RAM, and
the hint on its stack. -/
theorem made_eq_iff :
    machine.made = machine'.made ↔
      machine.policy = machine'.policy ∧ machine.rom = machine'.rom ∧
        machine.ram.base = machine'.ram.base ∧ machine.ram.size = machine'.ram.size ∧
        machine.stackSize = machine'.stackSize := by
  unfold made fixed
  simp only [Prod.mk.injEq, and_assoc]

/-- A step keeps what the machine has been made with. -/
theorem made_after (machine : Machine σ) (next : UInt32) (instruction : Instruction) :
    (machine.after next instruction).made = machine.made := by
  have hchanged : (machine.changed next instruction).stackSize = machine.stackSize := by
    cases instruction with
    | syscall code =>
      have hinterrupted := congrArg stackSize (machine.interrupted_eq code)
      exact hinterrupted
    | _ => rfl
  have hafter : (machine.after next instruction).stackSize = machine.stackSize := by
    unfold after
    split
    · rfl
    · exact hchanged
  exact Prod.ext (machine.fixed_after next instruction) hafter

/-- Counting a step keeps what the machine has been made with. -/
theorem made_leaving (stepped : Machine σ) (flow : Flow) :
    (stepped.leaving flow).made = stepped.made := by
  cases flow <;> rfl

/-- However a run ends, the machine is made of the same. -/
theorem made_ending_run (fuel : Nat) (programSize : UInt16) (budget : UInt32)
    (machine : Machine σ) :
    (ending ((run fuel programSize budget).run machine)).made = machine.made := by
  have hleads := leads_run fuel programSize budget machine
  refine Classical.byContradiction fun hne => ?_
  obtain ⟨event, hmem, hchanged⟩ := hleads.exists_of_ne made hne
  obtain ⟨-, -, hafter⟩ := Event.completes_iff.mp (hleads.completes hmem)
  rw [hafter, made_leaving, made_after] at hchanged
  exact hchanged rfl

/-- A word written to RAM keeps what the machine has been made with. -/
theorem made_writeWord (machine : Machine σ) (offset value : UInt32) :
    (machine.writeWord offset value).made = machine.made := by
  unfold writeWord made fixed
  rw [Region.size_writeWord]
  unfold Region.writeWord
  split <;> rfl

/-- Everything that a host does keeps what the machine has been made with. -/
theorem made_afterAction (machine : Machine σ) (action : Action σ) :
    (machine.afterAction action).made = machine.made := by
  cases action with
  | run fuel programSize budget =>
    rw [afterAction_run]
    exact made_ending_run fuel programSize budget machine
  | reset => exact made_eq_iff.mpr ⟨rfl, rfl, rfl, machine.ram.size_clear, rfl⟩
  | setRegister register value => rfl
  | setHandler handler => rfl
  | setRegisterById id value =>
    rw [afterAction, Action.perform, ending_map (fun _ => Answer.done), setRegisterById_run]
    cases Register.ofId id <;> rfl
  | push value =>
    rw [afterAction, Action.perform, ending_map (fun _ => Answer.done), hostPush_run]
    cases machine.spans (machine.register .sp - 4) with
    | error fault => rfl
    | ok granted => exact machine.made_writeWord ..
  | pop =>
    rw [afterAction, Action.perform, ending_map, hostPop_run]
    cases machine.spans (machine.register .sp) <;> rfl
  | patch address bytes =>
    rw [afterAction, Action.perform, ending_map, patch_run]
    cases machine.locate address with
    | ram offset => exact made_eq_iff.mpr ⟨rfl, rfl, rfl, machine.ram.size_overwrite .., rfl⟩
    | rom offset => rfl
    | unmapped => rfl

/-- No session changes what a machine has been made with. -/
theorem made_afterSession (machine : Machine σ) (actions : List (Action σ)) :
    (machine.afterSession actions).made = machine.made := by
  induction actions generalizing machine with
  | nil => rfl
  | cons action actions ih => rw [afterSession_cons, ih, made_afterAction]

/-! ## What a reset leaves -/

/-- Machines that have been made with the same are the same after a reset, but for the handler. -/
theorem reset_eq_of_made_eq (h : machine.made = machine'.made) :
    machine.reset = machine'.reset.setHandler machine.handler := by
  obtain ⟨hpolicy, hrom, hbase, hsize, hstackSize⟩ := made_eq_iff.mp h
  unfold reset setHandler
  rw [Region.clear_eq_of_size_eq hbase hsize, hpolicy, hrom, hsize, hstackSize]

/-- A machine on which nothing has happened. -/
structure IsBlank (machine : Machine σ) : Prop where
  ram : ∀ offset < machine.ram.size, machine.ram.byte? offset = some 0
  /-- The stack is empty. -/
  sp : (machine.register .sp).toNat = machine.ram.size
  registers : ∀ register ≠ .sp, machine.register register = 0
  skipPending : machine.skipPending = false
  executed : machine.executed = 0

/-- A machine that has been reset is blank. -/
theorem isBlank_reset (machine : Machine σ) : machine.reset.IsBlank where
  ram offset h := by
    change offset < machine.ram.clear.size at h
    rw [Region.size_clear] at h
    change (Array.replicate machine.ram.size 0)[offset]? = some 0
    rw [Array.getElem?_replicate, if_pos h]
  sp := by
    change ((Registers.zero.set .sp machine.ram.sizeWord).get .sp).toNat = machine.ram.clear.size
    rw [Registers.get_set_self, Region.toNat_sizeWord, Region.size_clear]
  registers register h := machine.register_reset_of_ne (Ne.symm h)
  skipPending := rfl
  executed := rfl

/-! ## What the host gets from then on -/

/-- What a session gives: for each action its answer or fault, with the machine after it. -/
def transcript :
    Machine σ → List (Action σ) → List (EStateM.Result Fault (Machine σ) Answer)
  | _, [] => []
  | machine, action :: actions =>
    action.perform.run machine :: transcript (machine.afterAction action) actions

/-- A reset erases what has happened to a machine. After any session, the machine that has been
reset is blank, is made of what it has been made of at first, and keeps its interrupt handler. It is
the one that is created with the same policy, ROM and size hint and any RAM of the same place, once
that handler has been installed, and every session from then on gives the same on both. -/
theorem reset_erases_history (machine : Machine σ) (actions : List (Action σ)) (ram : Region)
    (hbase : ram.base = machine.ram.base) (hsize : ram.size = machine.ram.size) :
    let used := machine.afterSession actions
    let fresh := (create machine.policy machine.rom ram machine.stackSize).setHandler used.handler
    used.afterAction .reset = fresh ∧
      (∀ later, transcript (used.afterAction .reset) later = transcript fresh later) ∧
      used.reset.IsBlank ∧ used.reset.made = machine.made ∧ used.reset.handler = used.handler := by
  intro used fresh
  have hmade : used.made = machine.made := machine.made_afterSession actions
  have hfresh : used.reset = fresh :=
    reset_eq_of_made_eq (hmade.trans (made_eq_iff.mpr ⟨rfl, rfl, hbase.symm, hsize.symm, rfl⟩))
  refine ⟨hfresh, fun later => ?_, used.isBlank_reset, ?_, rfl⟩
  · exact congrArg (transcript · later) hfresh
  · exact (used.made_afterAction .reset).trans hmade

/-- The machine that skips a `nop` and makes two system calls, with room for two words. -/
def callingWithRam : Machine Nat :=
  { calling with ram := ⟨0x8000, .replicate 8 0, by decide⟩ }

/-- What the host does to it before the reset: it writes RAM, a register and the stack, and has the
machine pause with a skip pending and stop at its first system call. -/
def meddling : List (Action Nat) :=
  [.patch 0x8001 [1, 2], .setRegister .sp 8, .push 7, .run 0 0 1, .setRegisterById 0 5, .run 0 0 5]

/-- The session leaves its traces in RAM, the registers, the count and the handler, of which only
the last is there after the reset. -/
theorem reset_erases_history_meddling :
    let used := callingWithRam.afterSession meddling
    used.ram.bytes = #[0, 1, 2, 0, 7, 0, 0, 0] ∧ used.executed = 3 ∧
      used.handler.map Handler.state = some 1 ∧
      used.reset = (create .checked callingWithRam.rom ⟨0x8000, .replicate 8 0xFF, by decide⟩
        0).setHandler used.handler ∧
      used.reset.IsBlank := by
  obtain ⟨hfresh, -, hblank, -, -⟩ := reset_erases_history callingWithRam meddling
    ⟨0x8000, .replicate 8 0xFF, by decide⟩ rfl rfl
  exact ⟨rfl, rfl, rfl, hfresh, hblank⟩

end Machine

end RegisterMachine
