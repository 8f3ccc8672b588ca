import RegisterMachine.Machine.Host
import RegisterMachine.Proofs.Machine.Runs

/-!
# Checked and unchecked machines in lockstep

Two machines that differ in their policy alone take the same steps for as long as no guard stands in
the way. `Relaxes` is the relation between the verdict of a checked machine and that of an unchecked
one: the same, but where the checked verdict is a guard fault the other may be anything that is not
a guard fault. A single guard has this relation to itself under the two policies
(`relaxes_guard`), it is kept by one verdict after the other (`Relaxes.bind`), and so a whole step
has it (`relaxes_verdict`). Effects do not depend on the policy (`after_under`), which carries the
relation to runs of any length (`runSteps_lockstep`).

The calls of the interrupt handler are part of the statements through `Machine.recording`, the
machine whose handler keeps a record of its calls in its own state.
-/

namespace RegisterMachine.Machine

variable {σ : Type}

/-- The machine with its guards in force or not. -/
def under (machine : Machine σ) (policy : Policy) : Machine σ :=
  { machine with policy }

/-- The machine whose interrupt handler also keeps the calls it has had. -/
def recording (machine : Machine σ) : Machine (σ × List Call) :=
  { policy := machine.policy
    rom := machine.rom
    ram := machine.ram
    registers := machine.registers
    skipPending := machine.skipPending
    executed := machine.executed
    handler := machine.handler.map Handler.recording
    stackSize := machine.stackSize }

/-- The policy has nothing to do with the pending skip. -/
@[simp] theorem under_skipPending (machine : Machine σ) (policy : Policy) :
    (machine.under policy).skipPending = machine.skipPending := rfl

/-! ## Verdicts -/

/-- The relation of a checked verdict to an unchecked one: they agree unless the checked one is a
guard fault, and the unchecked one is none. -/
structure Relaxes {α : Type} (checked unchecked : Except Fault α) : Prop where
  ok : ∀ value, checked = .ok value → unchecked = .ok value
  fault : ∀ fault, checked = .error fault → fault.isGuard = false → unchecked = .error fault
  unguarded : ∀ fault, unchecked = .error fault → fault.isGuard = false

/-- A verdict without guard faults relaxes itself. -/
theorem Relaxes.refl {α : Type} {verdict : Except Fault α}
    (h : ∀ fault, verdict = .error fault → fault.isGuard = false) : Relaxes verdict verdict :=
  ⟨fun _ => id, fun _ hv _ => hv, h⟩

/-- One relaxed verdict after another is a relaxed verdict. -/
theorem Relaxes.bind {α β : Type} {checked unchecked : Except Fault α}
    {f g : α → Except Fault β} (h : Relaxes checked unchecked) (hfg : ∀ a, Relaxes (f a) (g a)) :
    Relaxes (checked >>= f) (unchecked >>= g) := by
  cases checked with
  | ok a =>
    rw [h.ok a rfl]
    exact hfg a
  | error fault =>
    -- The checked verdict stands. The other one may go on, if the fault is a guard's.
    cases unchecked with
    | ok a =>
      refine ⟨fun _ hv => (nomatch hv), fun fault' hv hguard => ?_, (hfg a).unguarded⟩
      cases hv
      exact nomatch h.fault fault rfl hguard
    | error fault' =>
      have hunguarded := h.unguarded fault' rfl
      refine ⟨fun _ hv => (nomatch hv), fun fault'' hv hguard => ?_, fun fault'' hv => ?_⟩
      · cases hv
        cases h.fault fault rfl hguard
        rfl
      · cases hv
        exact hunguarded

/-- A guard that is in force for the checked machine alone. -/
theorem relaxes_guard (machine : Machine σ) (condition : Bool) {fault : Fault}
    (h : fault.isGuard = true) :
    Relaxes ((machine.under .checked).guard condition fault)
      ((machine.under .unchecked).guard condition fault) := by
  have hun : (machine.under .unchecked).guard condition fault = .ok () := rfl
  rw [hun]
  refine ⟨fun _ _ => rfl, fun fault' hv hguard => ?_, fun _ hv => (nomatch hv)⟩
  cases condition with
  | true => exact nomatch hv
  | false =>
    cases hv
    rw [h] at hguard
    cases hguard

/-- A condition that both machines demand. -/
theorem relaxes_condition (condition : Bool) {fault : Fault} (h : fault.isGuard = false) :
    Relaxes (if condition then .ok () else .error fault)
      (if condition then .ok () else .error fault) := by
  refine Relaxes.refl fun fault' hv => ?_
  split at hv
  · cases hv
  · cases hv
    exact h

/-- That a byte is no opcode is no guard's fault. -/
theorem relaxes_ofByte (byte : UInt8) : Relaxes (Opcode.ofByte byte) (Opcode.ofByte byte) := by
  refine Relaxes.refl fun fault h => ?_
  unfold Opcode.ofByte at h
  split at h
  · cases h
  · cases h
    rfl

/-- A fetch that the checked machine grants is the same without the guards. -/
theorem relaxes_fetched (machine : Machine σ) :
    Relaxes (machine.under .checked).fetched (machine.under .unchecked).fetched := by
  refine (relaxes_guard machine _ rfl).bind fun _ => ?_
  refine (relaxes_ofByte _).bind fun opcode => ?_
  refine (relaxes_guard machine _ rfl).bind fun _ => ?_
  exact Relaxes.refl fun _ h => (nomatch h)

/-- Without the guards nothing is demanded of register ids. -/
theorem relaxes_knowsRegisters (machine : Machine σ) (ids : List UInt8) :
    Relaxes ((machine.under .checked).knowsRegisters ids)
      ((machine.under .unchecked).knowsRegisters ids) := by
  induction ids with
  | nil => exact Relaxes.refl fun _ h => (nomatch h)
  | cons id ids ih => exact (relaxes_guard machine _ rfl).bind fun _ => ih

/-- What the checked machine permits is permitted without the guards. -/
theorem relaxes_permits (programSize : UInt16) (machine : Machine σ) (instruction : Instruction) :
    Relaxes ((machine.under .checked).permits programSize instruction)
      ((machine.under .unchecked).permits programSize instruction) := by
  cases instruction with
  | nop | halt | lcons | mov | ret | not | skipz | skipnz =>
    exact Relaxes.refl fun _ h => (nomatch h)
  | syscall | alu => exact relaxes_condition _ rfl
  | push src =>
    exact (relaxes_guard machine _ rfl).bind fun _ => relaxes_guard machine _ rfl
  | pop dst =>
    exact (relaxes_guard machine _ rfl).bind fun _ => relaxes_guard machine _ rfl
  | call | jmp | jr | store | load => exact relaxes_guard machine _ rfl

/-- A step is refused by both machines or by neither, guards apart. -/
theorem relaxes_verdict (programSize : UInt16) (machine : Machine σ) :
    Relaxes ((machine.under .checked).verdict programSize)
      ((machine.under .unchecked).verdict programSize) := by
  refine (relaxes_fetched machine).bind fun ⟨instruction, next⟩ => ?_
  cases h : machine.skipPending with
  | true =>
    simp only [under_skipPending, h, if_true]
    exact Relaxes.refl fun _ h => (nomatch h)
  | false =>
    simp only [under_skipPending, h, Bool.false_eq_true, if_false]
    refine (relaxes_knowsRegisters machine _).bind fun _ => ?_
    refine (relaxes_permits programSize machine instruction).bind fun _ => ?_
    exact Relaxes.refl fun _ h => (nomatch h)

/-! ## Effects -/

/-- What a step does to the machine does not depend on the policy. -/
theorem after_under (machine : Machine σ) (policy : Policy) (next : UInt32)
    (instruction : Instruction) :
    (machine.under policy).after next instruction =
      (machine.after next instruction).under policy := by
  change (machine.refitted policy machine.rom).after next instruction =
    (machine.after next instruction).refitted policy (machine.after next instruction).rom
  rw [after_refitted, rom_after]

/-- Whether the run goes on after a step does not depend on the policy. -/
theorem signal_under (machine : Machine σ) (policy : Policy) (instruction : Instruction) :
    (machine.under policy).signal instruction = machine.signal instruction :=
  signal_refitted machine policy machine.rom instruction

/-! ## Runs -/

/-- The relation of a checked result to an unchecked one: the same, unless the checked one is a
guard fault. -/
def Mirrors {α : Type} (checked unchecked : EStateM.Result Fault (Machine σ) α) : Prop :=
  match checked with
  | .ok value final => unchecked = .ok value (final.under .unchecked)
  | .error fault final =>
    fault.isGuard = false → unchecked = .error fault (final.under .unchecked)

/-- Runs of any length mirror each other. -/
theorem runSteps_mirrors (programSize : UInt16) (budget : Nat) (machine : Machine σ) :
    Mirrors ((runSteps programSize budget).run (machine.under .checked))
      ((runSteps programSize budget).run (machine.under .unchecked)) := by
  induction budget generalizing machine with
  | zero => rfl
  | succ budget ih =>
    obtain ⟨hok, hfault, -⟩ := relaxes_verdict programSize machine
    rw [runSteps_succ_run, runSteps_succ_run]
    cases hv : (machine.under .checked).verdict programSize with
    | error fault =>
      intro hguard
      rw [hfault fault hv hguard]
      rfl
    | ok taken =>
      -- Both machines take the same step and differ in their policy alone again.
      obtain ⟨instruction, next⟩ := taken
      rw [hok _ hv]
      simp only [resume_ok, after_under, signal_under]
      cases machine.signal instruction with
      | halt => rfl
      | stop => rfl
      | next => exact ih (machine.after next instruction).counted

/-- An unchecked run reports no guard fault. -/
theorem runSteps_unguarded {programSize : UInt16} {budget : Nat} {machine final : Machine σ}
    {fault : Fault}
    (h : (runSteps programSize budget).run (machine.under .unchecked) = .error fault final) :
    fault.isGuard = false := by
  -- The machine that a step leaves is unchecked again, which the induction needs.
  induction budget generalizing machine with
  | zero => cases h
  | succ budget ih =>
    rw [runSteps_succ_run] at h
    cases hv : (machine.under .unchecked).verdict programSize with
    | error fault' =>
      have hunguarded := (relaxes_verdict programSize machine).unguarded fault' hv
      rw [hv] at h
      cases h
      exact hunguarded
    | ok taken =>
      rw [hv] at h
      simp only [resume_ok, after_under, signal_under] at h
      cases hs : machine.signal taken.1 with
      | halt => rw [hs] at h; cases h
      | stop => rw [hs] at h; cases h
      | next =>
        rw [hs] at h
        have hrest : (runSteps programSize budget).run
            ((machine.after taken.2 taken.1).counted.under .unchecked) = .error fault final := h
        exact ih hrest

/-- What the run of an unchecked machine owes to the same run of the checked machine. -/
structure Lockstep (fuel : Nat) (programSize : UInt16) (budget : UInt32) (machine : Machine σ) :
    Prop where
  /-- A checked run that ends without a fault is the unchecked one. -/
  completes : ∀ outcome final,
    (run fuel programSize budget).run (machine.under .checked) = .ok outcome final →
      (run fuel programSize budget).run (machine.under .unchecked) =
        .ok outcome (final.under .unchecked)
  /-- So is one that ends with a fault that is not a guard's. -/
  faults : ∀ fault final,
    (run fuel programSize budget).run (machine.under .checked) = .error fault final →
      fault.isGuard = false →
      (run fuel programSize budget).run (machine.under .unchecked) =
        .error fault (final.under .unchecked)
  /-- Where a guard ends the checked run after `k` steps, the unchecked machine has taken the same
  `k` steps. -/
  guarded : ∀ fault final,
    (run fuel programSize budget).run (machine.under .checked) = .error fault final →
      fault.isGuard = true →
      ∃ k < stepLimit fuel budget,
        (runSteps programSize k).run (machine.under .checked) = .ok .paused final ∧
        (step programSize).run final = .error fault final ∧
        (runSteps programSize k).run (machine.under .unchecked) =
          .ok .paused (final.under .unchecked)

/-- Every run is in lockstep: the two machines go together up to the first guard that fails. -/
theorem run_lockstep (fuel : Nat) (programSize : UInt16) (budget : UInt32) (machine : Machine σ) :
    Lockstep fuel programSize budget machine := by
  have hmirrors := runSteps_mirrors programSize (stepLimit fuel budget) machine
  refine ⟨fun outcome final h => ?_, fun fault final h hguard => ?_, fun fault final h _ => ?_⟩
  · rw [run_run] at h ⊢
    cases hc : (runSteps programSize (stepLimit fuel budget)).run (machine.under .checked) with
    | error fault final => rw [hc] at h; cases h
    | ok outcome' final' =>
      rw [hc] at h hmirrors
      cases h
      rw [show (runSteps programSize (stepLimit fuel budget)).run (machine.under .unchecked) =
        .ok outcome' (final.under .unchecked) from hmirrors]
  · rw [run_eq_error_iff] at h ⊢
    rw [h] at hmirrors
    exact hmirrors hguard
  · rw [run_eq_error_iff] at h
    -- The steps before the fault are a run without a fault, which the unchecked machine mirrors.
    obtain ⟨k, hk, hpaused, hfault⟩ := runSteps_error h
    have hstate := runSteps_mirrors programSize k machine
    rw [hpaused] at hstate
    exact ⟨k, hk, hpaused, hfault, hstate⟩

/-- An unchecked machine refines a checked one in every run, the calls of its interrupt handler
included, and it never reports a guard fault. -/
theorem unchecked_refines_checked (fuel : Nat) (programSize : UInt16) (budget : UInt32)
    (machine : Machine σ) :
    Lockstep fuel programSize budget machine ∧
      Lockstep fuel programSize budget machine.recording ∧
      ∀ fault final,
        (run fuel programSize budget).run (machine.under .unchecked) = .error fault final →
          fault.isGuard = false := by
  refine ⟨run_lockstep .., run_lockstep .., fun fault final h => ?_⟩
  rw [run_eq_error_iff] at h
  exact runSteps_unguarded h

end RegisterMachine.Machine
