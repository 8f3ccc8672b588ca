import RegisterMachine.Proofs.Machine.Frame

/-!
# Machines on course

ROM holds bytes, and nothing in them tells where an instruction starts. This module is about code
that execution stays in step with. Code is `Closed` when its instructions name registers that exist,
its jumps lead to boundaries between instructions, no jump goes through a register, and no
instruction but a call sets `ra`. A machine is `OnCourse` in such code when it is checked, has the
code as its ROM, is at a boundary, has zero or the address after a call in `ra`, and has a handler
that leaves `ra` alone.

A machine that is on course fetches the instruction that starts where it is (`OnCourse.fetched`), so
its step is a step of that instruction, and whatever the instruction the machine is on course again
(`OnCourse.after`). What an instruction puts into `ip` is of no account, because a step ends with a
write to it, and a pending skip moves on by one instruction. So runs stay on course, and they report
no byte that is not an opcode and no id that is not a register (`OnCourse.isMalformed_run`).
-/

namespace RegisterMachine

open Instruction (encodeAll)

namespace Instruction

/-- The address that a jump names. -/
def target? : Instruction → Option UInt16
  | call target | jmp target => some target
  | _ => none

/-- The bytes of instructions one after the other stand one after the other. -/
@[simp] theorem encodeAll_append (front back : List Instruction) :
    encodeAll (front ++ back) = encodeAll front ++ encodeAll back :=
  List.flatMap_append

/-- Code grows by the length of an instruction that is put behind it. -/
theorem length_encodeAll_concat (front : List Instruction) (instruction : Instruction) :
    (encodeAll (front ++ [instruction])).length =
      (encodeAll front).length + instruction.opcode.encodedLength := by
  rw [encodeAll_append, List.length_append, encodeAll_cons, List.length_append, length_encode]
  rfl

end Instruction

/-- The faults of bytes that encode no instruction of the machine. -/
def Fault.isMalformed : Fault → Bool
  | unknownOpcode _ | invalidRegister _ => true
  | invalidAddress _ | stackOverflow | stackUnderflow | unhandledInterrupt _ | divisionByZero =>
    false

/-- The handler leaves the return address as it is. -/
def Handler.KeepsReturnAddress {σ : Type} (handler : Handler σ) : Prop :=
  ∀ code registers state,
    (handler.respond code registers state).registers.get .ra = registers.get .ra

/-! ## Code -/

/-- An offset where an instruction of the code starts or the last one ends. -/
def Boundary (code : List Instruction) (offset : Nat) : Prop :=
  ∃ front back, code = front ++ back ∧ offset = (encodeAll front).length

/-- The address after a call of the code, or zero. -/
def ReturnAddress (code : List Instruction) (address : UInt32) : Prop :=
  address = 0 ∨ ∃ front target back, code = front ++ .call target :: back ∧
    address.toNat = (encodeAll (front ++ [.call target])).length

/-- Code that execution stays in step with. -/
structure Closed (code : List Instruction) : Prop where
  registers : ∀ instruction ∈ code, instruction.NamesRegisters
  targets : ∀ instruction ∈ code, ∀ target, instruction.target? = some target →
    Boundary code target.toNat
  /-- No jump goes through a register. -/
  direct : ∀ instruction ∈ code, instruction.opcode ≠ .jr
  returns : ∀ instruction ∈ code, instruction.written? ≠ some Register.ra.id

variable {code : List Instruction}

/-- A boundary is the end, or an instruction starts there. -/
theorem Boundary.eq_end_or_start {offset : Nat} (h : Boundary code offset) :
    offset = (encodeAll code).length ∨
      ∃ front instruction back, code = front ++ instruction :: back ∧
        offset = (encodeAll front).length := by
  obtain ⟨front, back, hcode, hoffset⟩ := h
  rcases back with _ | ⟨instruction, back⟩
  · rw [List.append_nil] at hcode
    subst hcode
    exact .inl hoffset
  · exact .inr ⟨front, instruction, back, hcode, hoffset⟩

/-- An instruction ends at a boundary. -/
theorem boundary_after {front back : List Instruction} {instruction : Instruction}
    (h : code = front ++ instruction :: back) :
    Boundary code (encodeAll (front ++ [instruction])).length := by
  refine ⟨front ++ [instruction], back, ?_, rfl⟩
  rw [h, List.append_assoc, List.singleton_append]

/-- Code starts at a boundary. -/
theorem boundary_zero (code : List Instruction) : Boundary code 0 :=
  ⟨[], code, rfl, rfl⟩

/-- The address after a call is a boundary, and so is zero, where code starts. -/
theorem ReturnAddress.boundary {address : UInt32} (h : ReturnAddress code address) :
    Boundary code address.toNat := by
  rcases h with rfl | ⟨front, target, back, hcode, haddress⟩
  · exact boundary_zero code
  · rw [haddress]
    exact boundary_after hcode

namespace Machine

variable {σ : Type} {machine : Machine σ}

/-- A machine in step with the code in its ROM. -/
structure OnCourse (code : List Instruction) (machine : Machine σ) : Prop where
  policy : machine.policy = .checked
  rom : machine.rom.bytes.toList = encodeAll code
  ip : Boundary code (machine.register .ip).toNat
  ra : ReturnAddress code (machine.register .ra)
  handler : ∀ handler ∈ machine.handler, handler.KeepsReturnAddress

/-! ## Fetches -/

/-- Where an instruction of the code starts a fetch finds it. -/
theorem OnCourse.fetched_of_split (h : OnCourse code machine) {front back : List Instruction}
    {instruction : Instruction} (hcode : code = front ++ instruction :: back)
    (hip : (machine.register .ip).toNat = (encodeAll front).length) :
    ∃ next, machine.fetched = .ok (instruction, next) ∧
      next.toNat = (encodeAll (front ++ [instruction])).length := by
  have hdrop : machine.rom.bytes.toList.drop (machine.register .ip).toNat =
      instruction.encode ++ encodeAll back := by
    rw [h.rom, hip, hcode, Instruction.encodeAll_append, Instruction.encodeAll_cons, List.drop_left]
  obtain ⟨next, hfetched, hnext⟩ := fetched_of_encode hdrop
  refine ⟨next, hfetched, ?_⟩
  rw [hnext, hip, Instruction.length_encodeAll_concat, Instruction.length_encode]

/-- At the end of the code a fetch is refused. -/
theorem OnCourse.fetched_of_end (h : OnCourse code machine)
    (hip : (machine.register .ip).toNat = (encodeAll code).length) :
    machine.fetched = .error (.invalidAddress (machine.register .ip)) := by
  refine fetched_at_end h.policy ?_
  rw [hip, ← h.rom]
  exact Nat.le_refl _

/-- What is fetched on course is an instruction of the code, and the next one or the end comes after
it. -/
theorem OnCourse.fetched (h : OnCourse code machine) {instruction : Instruction} {next : UInt32}
    (hfetched : machine.fetched = .ok (instruction, next)) :
    ∃ front back, code = front ++ instruction :: back ∧
      next.toNat = (encodeAll (front ++ [instruction])).length := by
  rcases h.ip.eq_end_or_start with hend | ⟨front, instruction', back, hcode, hip⟩
  · rw [h.fetched_of_end hend] at hfetched
    cases hfetched
  · obtain ⟨next', hsame, hnext⟩ := h.fetched_of_split hcode hip
    rw [hsame] at hfetched
    cases hfetched
    exact ⟨front, back, hcode, hnext⟩

/-! ## Steps -/

/-- A guard reports its own fault. -/
theorem eq_of_guard_eq_error {condition : Bool} {fault fault' : Fault}
    (h : machine.guard condition fault = .error fault') : fault' = fault := by
  unfold guard at h
  split at h
  · cases h
    rfl
  · cases h

/-- The conditions of instructions are not about their encoding. -/
theorem isMalformed_of_permits {programSize : UInt16} {instruction : Instruction} {fault : Fault}
    (h : machine.permits programSize instruction = .error fault) : fault.isMalformed = false := by
  have hcondition {condition : Bool} {fault' : Fault} (h' : fault'.isMalformed = false)
      (h : (if condition then .ok () else .error fault') = (.error fault : Except Fault Unit)) :
      fault.isMalformed = false := by
    split at h
    · cases h
    · cases h
      exact h'
  -- A push and a pop have two guards, of which either may report.
  have hguards {first second : Bool} {fault₁ fault₂ : Fault} (h₁ : fault₁.isMalformed = false)
      (h₂ : fault₂.isMalformed = false)
      (h : (do machine.guard first fault₁; machine.guard second fault₂) = .error fault) :
      fault.isMalformed = false := by
    cases hfirst : machine.guard first fault₁ with
    | error fault' =>
      rw [hfirst] at h
      cases h
      rw [eq_of_guard_eq_error hfirst, h₁]
    | ok _ =>
      rw [hfirst] at h
      rw [eq_of_guard_eq_error h, h₂]
  cases instruction with
  | nop | halt | lcons | mov | ret | not | skipz | skipnz => cases h
  | syscall | alu => exact hcondition rfl h
  | push | pop => exact hguards rfl rfl h
  | call | jmp | jr | store | load =>
    rw [eq_of_guard_eq_error h]
    rfl

/-- A step from a boundary goes on at a boundary. -/
theorem OnCourse.boundary_destination (hclosed : Closed code) (h : OnCourse code machine)
    {instruction : Instruction} {next : UInt32} (hmem : instruction ∈ code)
    (hnext : Boundary code next.toNat) :
    Boundary code (machine.destination next instruction).toNat := by
  cases instruction with
  | halt => exact h.ip
  -- A return is the only instruction that goes where a register says.
  | ret => exact h.ra.boundary
  | call target | jmp target =>
    have htarget := hclosed.targets _ hmem target rfl
    unfold destination
    rw [UInt16.toNat_toUInt32]
    exact htarget
  | jr src => exact absurd rfl (hclosed.direct _ hmem)
  | _ => exact hnext

/-- Nothing but a call changes `ra`, unless it is where an instruction puts its result. -/
theorem register_ra_changed (hhandler : ∀ handler ∈ machine.handler, handler.KeepsReturnAddress)
    {instruction : Instruction} (hwritten : instruction.written? ≠ some Register.ra.id)
    (hcall : ∀ target, instruction ≠ .call target) (next : UInt32) :
    (machine.changed next instruction).register .ra = machine.register .ra := by
  by_contra hne
  cases writes_of_changed hne with
  | result h => exact hwritten h
  | call target => exact hcall target rfl
  | handler hresponse hne =>
    obtain ⟨handler, hinstalled, rfl⟩ := Option.map_eq_some_iff.mp hresponse
    exact hne (hhandler handler hinstalled _ machine.registers handler.state)

/-- A step leaves a return address in `ra`. -/
theorem OnCourse.returnAddress_after (hclosed : Closed code) (h : OnCourse code machine)
    {front back : List Instruction} {instruction : Instruction} {next : UInt32}
    (hcode : code = front ++ instruction :: back)
    (hnext : next.toNat = (encodeAll (front ++ [instruction])).length) :
    ReturnAddress code ((machine.after next instruction).register .ra) := by
  have hip : Register.ip ≠ .ra := by decide
  have hwritten : instruction.written? ≠ some Register.ra.id := by
    refine hclosed.returns instruction ?_
    rw [hcode]
    exact List.mem_append_cons_self
  unfold after
  split
  · unfold skippedTo
    rw [register_setRegister_of_ne _ hip]
    exact h.ra
  · unfold executedTo
    rw [register_setRegister_of_ne _ hip]
    by_cases hcall : ∃ target, instruction = .call target
    · -- The address after a call is what the fetch has found to follow it.
      obtain ⟨target, rfl⟩ := hcall
      right
      refine ⟨front, target, back, hcode, ?_⟩
      unfold changed
      rw [register_setRegister_self, hnext]
    · rw [register_ra_changed h.handler hwritten fun target heq => hcall ⟨target, heq⟩]
      exact h.ra

/-- Calls of a handler that leaves `ra` alone leave such a handler. -/
theorem OnCourse.handler_after (h : OnCourse code machine) (instruction : Instruction)
    (next : UInt32) :
    ∀ handler ∈ (machine.after next instruction).handler, handler.KeepsReturnAddress := by
  unfold after
  split
  · exact h.handler
  · cases instruction with
    | syscall code =>
      unfold executedTo changed interrupted
      cases hhandler : machine.handler with
      | none => exact h.handler
      | some handler =>
        rintro _ ⟨⟩
        exact h.handler handler hhandler
    | _ => exact h.handler

/-- A step keeps a machine on course. -/
theorem OnCourse.after (hclosed : Closed code) (h : OnCourse code machine)
    {instruction : Instruction} {next : UInt32}
    (hfetched : machine.fetched = .ok (instruction, next)) :
    OnCourse code (machine.after next instruction) := by
  obtain ⟨front, back, hcode, hnext⟩ := h.fetched hfetched
  have hmem : instruction ∈ code := by
    rw [hcode]
    exact List.mem_append_cons_self
  have hboundary : Boundary code next.toNat := by
    rw [hnext]
    exact boundary_after hcode
  refine ⟨?_, ?_, ?_, h.returnAddress_after hclosed hcode hnext, h.handler_after instruction next⟩
  · rw [policy_after]
    exact h.policy
  · rw [rom_after]
    exact h.rom
  · -- A skipped instruction is passed over, and any other goes where it says.
    rw [register_ip_after]
    split
    · exact hboundary
    · exact h.boundary_destination hclosed hmem hboundary

/-- A step on course is not refused for what its bytes are. -/
theorem OnCourse.isMalformed_of_verdict (hclosed : Closed code) (h : OnCourse code machine)
    {programSize : UInt16} {fault : Fault} (hv : machine.verdict programSize = .error fault) :
    fault.isMalformed = false := by
  rcases verdict_eq_error hv with hfetched | ⟨instruction, next, hfetched, hrest⟩
  · rcases h.ip.eq_end_or_start with hend | ⟨front, instruction, back, hcode, hip⟩
    · rw [h.fetched_of_end hend] at hfetched
      cases hfetched
      rfl
    · obtain ⟨next, hok, -⟩ := h.fetched_of_split hcode hip
      rw [hok] at hfetched
      cases hfetched
  · rcases hrest with hknows | hpermits
    · obtain ⟨front, back, hcode, -⟩ := h.fetched hfetched
      have hnames := hclosed.registers instruction (by
        rw [hcode]
        exact List.mem_append_cons_self)
      rw [knowsRegisters_of_forall_lt machine hnames] at hknows
      cases hknows
    · exact isMalformed_of_permits hpermits

/-! ## Runs -/

/-- Runs stay on course. -/
theorem OnCourse.ending_run (hclosed : Closed code) (h : OnCourse code machine) (fuel : Nat)
    (programSize : UInt16) (budget : UInt32) :
    OnCourse code (ending ((run fuel programSize budget).run machine)) := by
  refine Machine.ending_run (fun machine instruction next h hv => ?_) (fun machine h => ?_) fuel
    budget h
  · exact h.after hclosed (fetched_of_verdict hv)
  · exact ⟨h.policy, h.rom, h.ip, h.ra, h.handler⟩

/-- No run on course reports bytes that encode no instruction. -/
theorem OnCourse.isMalformed_run (hclosed : Closed code) (h : OnCourse code machine) {fuel : Nat}
    {programSize : UInt16} {budget : UInt32} {fault : Fault} {final : Machine σ}
    (hrun : (run fuel programSize budget).run machine = .error fault final) :
    fault.isMalformed = false := by
  have hfinal := h.ending_run hclosed fuel programSize budget
  rw [hrun] at hfinal
  rw [run_eq_error_iff] at hrun
  -- The fault is that of a step which the final machine, on course as well, could not take.
  obtain ⟨k, -, -, hfault⟩ := runSteps_error hrun
  rw [step_run] at hfault
  cases hv : final.verdict programSize with
  | error fault' =>
    rw [hv] at hfault
    cases hfault
    exact OnCourse.isMalformed_of_verdict hclosed hfinal hv
  | ok taken =>
    rw [hv] at hfault
    cases hfault

/-- A reset brings a machine to the start of its code. -/
theorem onCourse_reset (hpolicy : machine.policy = .checked)
    (hrom : machine.rom.bytes.toList = encodeAll code)
    (hhandler : ∀ handler ∈ machine.handler, handler.KeepsReturnAddress) :
    OnCourse code machine.reset := by
  refine ⟨hpolicy, hrom, ?_, .inl (register_reset_of_ne machine (by decide)), hhandler⟩
  rw [register_reset_of_ne machine (by decide)]
  exact boundary_zero code

end Machine

end RegisterMachine
