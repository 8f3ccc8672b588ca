import RegisterMachine.Proofs.Machine.Confinement
import RegisterMachine.Proofs.Machine.History
import RegisterMachine.Proofs.Memory.Words

/-!
# What a run leaves alone

An instruction writes the register that it names for its result, `push` and `pop` move the stack
pointer, `call` sets the return address, and an interrupt handler writes what it likes
(`Machine.Writes`). The words of RAM that are written are those of `push` and `store`, and a word
that is not all inside RAM is not written at all (`Machine.Touches`). Nothing else changes, in a
step (`writes_of_changed`, `touches_of_changed`) and so in a run: what a run has changed one of its
steps has (`Leads.exists_of_ne`).

The instruction pointer is apart, since every step ends with a write to it. Whatever an instruction
puts there as a result is lost (`Completes.goesOn`).
-/

namespace RegisterMachine

/-- The id of the register that an instruction names to put its result into. -/
def Instruction.written? : Instruction → Option UInt8
  | lcons dst _ | mov dst _ | pop dst | load dst _ | alu _ dst _ | not dst => some dst
  | _ => none

namespace Machine

variable {σ : Type} {machine : Machine σ} {instruction : Instruction} {next : UInt32}
  {register : Register} {offset : Nat}

/-- The instruction writes the register, the instruction pointer apart. -/
inductive Writes (machine : Machine σ) : Instruction → Register → Prop where
  | result {instruction : Instruction} {register : Register}
      (h : instruction.written? = some register.id) : Writes machine instruction register
  | push (src : UInt8) : Writes machine (.push src) .sp
  | pop (dst : UInt8) : Writes machine (.pop dst) .sp
  | call (target : UInt16) : Writes machine (.call target) .ra
  | handler {code : UInt8} {response : Response σ} {register : Register}
      (hresponse : machine.response? code = some response)
      (hne : response.registers.get register ≠ machine.register register) :
      Writes machine (.syscall code) register

/-- The instruction writes the byte of RAM at an offset: one of the four below the stack pointer, or
of the four at the address that it names. -/
inductive Touches (machine : Machine σ) : Instruction → Nat → Prop where
  | push (src : UInt8) {offset : Nat}
      (hholds : machine.ram.holdsWord (machine.register .sp - 4).toNat = true)
      (hlt : offset < (machine.register .sp).toNat)
      (hle : (machine.register .sp).toNat ≤ offset + wordBytes) : Touches machine (.push src) offset
  | store {address : UInt16} (src : UInt8) {offset : Nat}
      (hholds : machine.ram.holdsWord address.toNat = true)
      (hle : address.toNat ≤ offset) (hlt : offset < address.toNat + wordBytes) :
      Touches machine (.store address src) offset

/-! ## Instructions -/

/-- A register that an instruction changes is one that it writes. -/
theorem writes_of_changed
    (h : (machine.changed next instruction).register register ≠ machine.register register) :
    machine.Writes instruction register := by
  -- A result shows in no register but its own.
  have hresult {dst : UInt8} {value : UInt32}
      (hne : (machine.writeId dst value).register register ≠ machine.register register) :
      dst = register.id := by
    by_contra hdst
    exact hne (register_writeId_of_ne machine hdst value)
  cases instruction with
  | lcons | mov | load | alu | not => exact .result (congrArg some (hresult h))
  | push src =>
    by_cases hsp : register = .sp
    · rw [hsp]
      exact .push src
    · exact absurd (register_setRegister_of_ne _ (Ne.symm hsp) _) h
  | pop dst =>
    by_cases hsp : register = .sp
    · rw [hsp]
      exact .pop dst
    · unfold changed at h
      rw [register_setRegister_of_ne _ (Ne.symm hsp)] at h
      exact .result (congrArg some (hresult h))
  | call target =>
    by_cases hra : register = .ra
    · rw [hra]
      exact .call target
    · exact absurd (register_setRegister_of_ne _ (Ne.symm hra) _) h
  | syscall code =>
    unfold changed interrupted at h
    cases hhandler : machine.handler with
    | none =>
      rw [hhandler] at h
      exact absurd rfl h
    | some handler =>
      rw [hhandler] at h
      refine .handler ?_ h
      unfold response?
      rw [hhandler]
      rfl
  | _ => exact absurd rfl h

/-- A byte of RAM that an instruction changes is one that it writes. -/
theorem touches_of_changed
    (h : (machine.changed next instruction).ram.byte? offset ≠ machine.ram.byte? offset) :
    machine.Touches instruction offset := by
  cases instruction with
  | push src =>
    obtain ⟨hholds, hle, hlt⟩ := Region.holdsWord_of_byte?_writeWord_ne h
    -- The word below the stack pointer is inside RAM, so its address has not wrapped around.
    have hsp := Region.toNat_add_four hholds
    rw [UInt32.sub_add_cancel] at hsp
    exact .push src hholds (by omega) (by omega)
  | store address src =>
    obtain ⟨hholds, hle, hlt⟩ := Region.holdsWord_of_byte?_writeWord_ne h
    rw [UInt16.toNat_toUInt32] at hholds hle hlt
    exact .store src hholds hle hlt
  | syscall code =>
    have hram := congrArg Machine.ram (machine.interrupted_eq code)
    exact absurd (congrArg (·.byte? offset) hram) h
  | _ => exact absurd rfl h

end Machine

/-! ## Steps -/

namespace Event

variable {σ : Type} {event : Event σ} {programSize : UInt16} {register : Register} {offset : Nat}

/-- The step executes an instruction that writes the register. -/
def Writes (event : Event σ) (register : Register) : Prop :=
  event.before.skipPending = false ∧ event.before.Writes event.instruction register

/-- The step executes an instruction that writes the byte of RAM. -/
def Touches (event : Event σ) (offset : Nat) : Prop :=
  event.before.skipPending = false ∧ event.before.Touches event.instruction offset

/-- The step executes an instruction that chooses where the run goes on: a jump, a `call`, a `ret`,
or a `halt`, which stays. -/
def Redirects (event : Event σ) : Prop :=
  ∃ instruction, event.Executes instruction ∧
    (instruction.jumps = true ∨ instruction = .ret ∨ instruction = .halt)

/-- Where the run goes on after a step. -/
structure GoesOn (event : Event σ) : Prop where
  /-- Behind the instruction, unless the instruction says something else. -/
  behind : ¬ event.Redirects → event.after.register .ip =
    event.before.register .ip + UInt32.ofNat event.instruction.encode.length
  halt : event.Executes .halt → event.after.register .ip = event.before.register .ip

variable (h : event.Completes programSize)
include h

/-- A register that a step changes is one that it writes. -/
theorem Completes.writes_of_ne (hip : register ≠ .ip)
    (hne : event.after.register register ≠ event.before.register register) :
    event.Writes register := by
  rcases h.after_cases with ⟨hskip, hafter⟩ | ⟨hskip, hafter⟩
  · rw [hafter, Machine.register_leaving, Machine.skippedTo,
      Machine.register_setRegister_of_ne _ (Ne.symm hip)] at hne
    exact absurd rfl hne
  · rw [hafter, Machine.register_leaving, Machine.executedTo,
      Machine.register_setRegister_of_ne _ (Ne.symm hip)] at hne
    exact ⟨hskip, Machine.writes_of_changed hne⟩

/-- A byte of RAM that a step changes is one that it writes. -/
theorem Completes.touches_of_ne
    (hne : event.after.ram.byte? offset ≠ event.before.ram.byte? offset) :
    event.Touches offset := by
  rcases h.after_cases with ⟨hskip, hafter⟩ | ⟨hskip, hafter⟩
  · rw [hafter, Machine.ram_leaving] at hne
    exact absurd rfl hne
  · rw [hafter, Machine.ram_leaving] at hne
    exact ⟨hskip, Machine.touches_of_changed hne⟩

/-- Every step goes on behind its instruction, unless the instruction says something else. -/
theorem Completes.goesOn : event.GoesOn := by
  obtain ⟨hverdict, -, -⟩ := completes_iff.mp h
  have hip := h.register_ip_after
  have hnext := (Machine.encode_of_fetched (Machine.fetched_of_verdict hverdict)).2
  refine ⟨fun hredirects => ?_, fun ⟨hskip, hhalt⟩ => ?_⟩
  · rw [hip, ← hnext]
    cases hskip : event.before.skipPending with
    | true => rw [if_pos rfl]
    | false =>
      have hexecutes : event.Executes event.instruction := ⟨hskip, rfl⟩
      rw [if_neg Bool.false_ne_true]
      refine Machine.destination_of_not_jumps (Bool.eq_false_iff.mpr fun hjumps => ?_)
        (fun hret => ?_) (fun hhalt => ?_) _ _
      · exact hredirects ⟨_, hexecutes, .inl hjumps⟩
      · exact hredirects ⟨_, hexecutes, .inr (.inl hret)⟩
      · exact hredirects ⟨_, hexecutes, .inr (.inr hhalt)⟩
  · rw [hip, hskip, hhalt, if_neg Bool.false_ne_true]
    rfl

end Event

namespace Machine

variable {σ : Type} {machine final : Machine σ} {events : List (Event σ)} {programSize : UInt16}

/-! ## Runs -/

/-- Steps account for the difference of two machines. -/
structure AccountsFor (events : List (Event σ)) (machine final : Machine σ) : Prop where
  fixed : final.fixed = machine.fixed
  /-- A byte of RAM that is not as before has been written by one of them. -/
  ram : ∀ offset, final.ram.byte? offset ≠ machine.ram.byte? offset →
    ∃ event ∈ events, event.Touches offset
  /-- So has a register, the instruction pointer apart. -/
  registers : ∀ register ≠ .ip, final.register register ≠ machine.register register →
    ∃ event ∈ events, event.Writes register

/-- Steps that lead from one machine to another account for their difference. -/
theorem Leads.accountsFor (h : Leads programSize machine events final) :
    AccountsFor events machine final where
  fixed := h.fixed
  ram offset hne := by
    obtain ⟨event, hmem, hchanged⟩ := h.exists_of_ne (·.ram.byte? offset) hne
    exact ⟨event, hmem, (h.completes hmem).touches_of_ne hchanged⟩
  registers register hip hne := by
    obtain ⟨event, hmem, hchanged⟩ := h.exists_of_ne (·.register register) hne
    exact ⟨event, hmem, (h.completes hmem).writes_of_ne hip hchanged⟩

/-- The steps of a run account for what it changes, and each of them goes on behind its instruction,
unless the instruction says something else. -/
theorem run_is_framed (fuel : Nat) (programSize : UInt16) (budget : UInt32)
    (machine : Machine σ) :
    let events := history programSize (stepLimit fuel budget) machine
    let final := ending ((run fuel programSize budget).run machine)
    Leads programSize machine events final ∧ AccountsFor events machine final ∧
      ∀ event ∈ events, event.GoesOn := by
  have hleads := leads_run fuel programSize budget machine
  exact ⟨hleads, hleads.accountsFor, fun event hevent => (hleads.completes hevent).goesOn⟩

end Machine

end RegisterMachine
