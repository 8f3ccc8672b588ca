import RegisterMachine.Machine.Run
import RegisterMachine.Proofs.Computations

/-!
# A step as a verdict and an effect

`Machine.step` runs in a monad that would let an instruction change the machine and then fail. Here
a step is taken apart into a verdict, which reads the machine and decides whether the step happens,
and an effect, which cannot fail: `Machine.verdict` collects every guard and every other condition
in the order in which a step meets them, and `Machine.after` is the machine once they all hold.
`step_run` says that this is what a step does. Only `Machine.guard` looks at the policy, so what
depends on the policy is a fact about verdicts, and so is what depends on ROM (`after_refitted`).

The conditions of one instruction are `Machine.permits`, and its effect is a change of its own
(`Machine.changed`) followed by a move of the instruction pointer (`Machine.destination`).
-/

namespace RegisterMachine.Machine

variable {σ : Type}

/-! ## Verdicts -/

/-- A guard as a value: what a checked machine demands, and an unchecked one grants. -/
def guard (machine : Machine σ) (condition : Bool) (fault : Fault) : Except Fault Unit :=
  if machine.policy = .checked && !condition then .error fault else .ok ()

/-- Goes on from a verdict, which leaves the machine as it was. -/
def resume {α β : Type} (machine : Machine σ) (verdict : Except Fault α)
    (rest : α → EStateM.Result Fault (Machine σ) β) : EStateM.Result Fault (Machine σ) β :=
  match verdict with
  | .ok value => rest value
  | .error fault => .error fault machine

/-- A verdict that grants hands its value on. -/
@[simp] theorem resume_ok {α β : Type} (machine : Machine σ) (value : α)
    (rest : α → EStateM.Result Fault (Machine σ) β) :
    machine.resume (.ok value) rest = rest value := rfl

/-- A value without a condition is handed on. -/
@[simp] theorem resume_pure {α β : Type} (machine : Machine σ) (value : α)
    (rest : α → EStateM.Result Fault (Machine σ) β) :
    machine.resume (pure value) rest = rest value := rfl

/-- A verdict that refuses ends the computation where it stands. -/
@[simp] theorem resume_error {α β : Type} (machine : Machine σ) (fault : Fault)
    (rest : α → EStateM.Result Fault (Machine σ) β) :
    machine.resume (.error fault) rest = .error fault machine := rfl

/-- Two verdicts one after the other are one. -/
@[simp] theorem resume_bind {α β γ : Type} (machine : Machine σ) (verdict : Except Fault α)
    (then_ : α → Except Fault β) (rest : β → EStateM.Result Fault (Machine σ) γ) :
    machine.resume (verdict >>= then_) rest =
      machine.resume verdict fun value => machine.resume (then_ value) rest := by
  cases verdict <;> rfl

/-- The address after the instruction at `ip`, given its opcode. -/
def addressAfter (machine : Machine σ) (opcode : Opcode) : UInt32 :=
  machine.register .ip + 1 + UInt32.ofNat opcode.operandBytes

/-- The instruction at `ip`, given its opcode. -/
def instructionOf (machine : Machine σ) (opcode : Opcode) : Instruction :=
  opcode.decode ((List.range opcode.operandBytes).map fun i =>
    machine.romByte ((machine.register .ip).toNat + 1 + i))

/-- The instruction at `ip` and the address after it, unless the fetch is refused. -/
def fetched (machine : Machine σ) : Except Fault (Instruction × UInt32) := do
  let ip := machine.register .ip
  machine.guard (ip.toNat < machine.rom.size) (.invalidAddress ip)
  let opcode ← Opcode.ofByte (machine.romByte ip.toNat)
  let next := machine.addressAfter opcode
  machine.guard (next.toNat ≤ machine.rom.size) (.invalidAddress (next - 1))
  return (machine.instructionOf opcode, next)

/-- The demand that every register id belongs to a register. -/
def knowsRegisters (machine : Machine σ) : List UInt8 → Except Fault Unit
  | [] => return
  | id :: ids => do
    machine.guard (id.toNat < Register.count) (.invalidRegister id)
    machine.knowsRegisters ids

/-- The demand that an address lies in ROM. -/
def reaches (machine : Machine σ) (target : UInt32) : Except Fault Unit :=
  machine.guard (target.toNat < machine.rom.size) (.invalidAddress target)

/-- The demand that a word at this offset lies in RAM. -/
def spans (machine : Machine σ) (offset : UInt32) : Except Fault Unit :=
  machine.guard (machine.ram.holdsWord offset.toNat) (.invalidAddress offset)

/-- The conditions of an instruction itself, once its registers are known. -/
def permits (programSize : UInt16) (machine : Machine σ) : Instruction → Except Fault Unit
  | .syscall code =>
    if machine.handler.isSome then .ok () else .error (.unhandledInterrupt code)
  | .push _ => do
    machine.guard (4 ≤ machine.register .sp) .stackOverflow
    machine.spans (machine.register .sp - 4)
  | .pop _ => do
    machine.guard (machine.ram.holdsWord (machine.register .sp).toNat) .stackUnderflow
    machine.guard (programSize.toUInt32 ≤ machine.register .sp) .stackOverflow
  | .call target | .jmp target => machine.reaches target.toUInt32
  | .jr src => machine.reaches (machine.registers.read src &&& 0xFFFF)
  | .store address _ | .load _ address => machine.spans address.toUInt32
  | .alu op dst src =>
    if (op.eval? (machine.registers.read dst) (machine.registers.read src)).isSome then .ok ()
    else .error .divisionByZero
  | .nop | .halt | .lcons _ _ | .mov _ _ | .ret | .not _ | .skipz _ | .skipnz _ => .ok ()

/-- Whether a step happens: the instruction it takes and the address after it, or the fault. -/
def verdict (programSize : UInt16) (machine : Machine σ) :
    Except Fault (Instruction × UInt32) := do
  let (instruction, next) ← machine.fetched
  unless machine.skipPending do
    machine.knowsRegisters instruction.registerIds
    machine.permits programSize instruction
  return (instruction, next)

/-! ## Effects -/

/-- The machine with a word put into the register with an id, if there is one. -/
def writeId (machine : Machine σ) (id : UInt8) (value : UInt32) : Machine σ :=
  { machine with registers := machine.registers.write id value }

/-- The machine with a word of RAM written, if it is all there. -/
def writeWord (machine : Machine σ) (offset value : UInt32) : Machine σ :=
  { machine with ram := machine.ram.writeWord offset.toNat value }

/-- The word of RAM at an offset, zero if it is not all there. -/
def readWord (machine : Machine σ) (offset : UInt32) : UInt32 :=
  (machine.ram.word? offset.toNat).getD 0

/-- What the interrupt handler answers, if one is installed. -/
def response? (machine : Machine σ) (code : UInt8) : Option (Response σ) :=
  machine.handler.map fun handler => handler.respond code machine.registers handler.state

/-- The machine after its interrupt handler has answered. -/
def interrupted (machine : Machine σ) (code : UInt8) : Machine σ :=
  match machine.handler with
  | none => machine
  | some handler =>
    let response := handler.respond code machine.registers handler.state
    { machine with
      registers := response.registers
      handler := some { handler with state := response.state } }

/-- What an instruction changes besides the instruction pointer. -/
def changed (machine : Machine σ) (next : UInt32) : Instruction → Machine σ
  | .syscall code => machine.interrupted code
  | .lcons dst value => machine.writeId dst value
  | .mov dst src => machine.writeId dst (machine.registers.read src)
  | .push src =>
    let top := machine.register .sp - 4
    (machine.writeWord top (machine.registers.read src)).setRegister .sp top
  | .pop dst =>
    let sp := machine.register .sp
    (machine.writeId dst (machine.readWord sp)).setRegister .sp (sp + 4)
  | .call _ => machine.setRegister .ra next
  | .store address src => machine.writeWord address.toUInt32 (machine.registers.read src)
  | .load dst address => machine.writeId dst (machine.readWord address.toUInt32)
  | .alu op dst src =>
    machine.writeId dst
      ((op.eval? (machine.registers.read dst) (machine.registers.read src)).getD 0)
  | .not dst => machine.writeId dst (~~~ machine.registers.read dst)
  | .skipz id => { machine with skipPending := id == 0 }
  | .skipnz id => { machine with skipPending := id != 0 }
  | .nop | .halt | .ret | .jmp _ | .jr _ => machine

/-- Where the run goes on after an instruction. -/
def destination (machine : Machine σ) (next : UInt32) : Instruction → UInt32
  | .halt => machine.register .ip
  | .call target | .jmp target => target.toUInt32
  | .ret => machine.register .ra
  | .jr src => machine.registers.read src &&& 0xFFFF
  | .nop | .syscall _ | .lcons _ _ | .mov _ _ | .push _ | .pop _ | .store _ _ | .load _ _
  | .alu _ _ _ | .not _ | .skipz _ | .skipnz _ => next

/-- Whether the run goes on after an instruction. -/
def flow (machine : Machine σ) : Instruction → Flow
  | .halt => .halt
  | .syscall code => if (machine.response? code).any Response.proceed then .next else .stop
  | _ => .next

/-- The machine after an instruction that nothing forbids. -/
def executedTo (machine : Machine σ) (next : UInt32) (instruction : Instruction) : Machine σ :=
  (machine.changed next instruction).setRegister .ip (machine.destination next instruction)

/-- The machine after passing over an instruction. -/
def skippedTo (machine : Machine σ) (next : UInt32) : Machine σ :=
  { machine with skipPending := false }.setRegister .ip next

/-- The machine after a step. -/
def after (machine : Machine σ) (next : UInt32) (instruction : Instruction) : Machine σ :=
  if machine.skipPending then machine.skippedTo next else machine.executedTo next instruction

/-- How the run goes on after a step. -/
def signal (machine : Machine σ) (instruction : Instruction) : Flow :=
  if machine.skipPending then .next else machine.flow instruction

/-! ## A step is both

What each operation of the execution monad does when another one follows it: it reads, it writes,
or it comes to a verdict. The plain ones are proved by the tactic and not by the term `rfl`, so that
`simp` leaves a step of rewriting behind, which is checked faster than an unfolding. -/

section

variable {α : Type} (machine : Machine σ)

/-- To look at the machine hands it on. -/
@[simp] theorem get_bind_run (rest : Machine σ → Exec σ α) :
    (get >>= rest).run machine = (rest machine).run machine := by rfl

/-- To read a register hands on its word. -/
@[simp] theorem getRegister_bind_run (register : Register) (rest : UInt32 → Exec σ α) :
    (Exec.getRegister register >>= rest).run machine =
      (rest (machine.register register)).run machine := by rfl

/-- What follows a write to a register runs on the machine with the word in it. -/
@[simp] theorem setRegister_bind_run (register : Register) (value : UInt32)
    (rest : Unit → Exec σ α) :
    (Exec.setRegister register value >>= rest).run machine =
      (rest ()).run (machine.setRegister register value) := by rfl

/-- To read by id hands on what the register file has under it. -/
@[simp] theorem readId_bind_run (id : UInt8) (rest : UInt32 → Exec σ α) :
    (Exec.readId id >>= rest).run machine = (rest (machine.registers.read id)).run machine := by rfl

/-- What follows a write by id runs on the machine with the word written. -/
@[simp] theorem writeId_bind_run (id : UInt8) (value : UInt32) (rest : Unit → Exec σ α) :
    (Exec.writeId id value >>= rest).run machine =
      (rest ()).run (machine.writeId id value) := by rfl

/-- To read a word of RAM hands it on. -/
@[simp] theorem readWord_bind_run (offset : UInt32) (rest : UInt32 → Exec σ α) :
    (Exec.readWord offset >>= rest).run machine = (rest (machine.readWord offset)).run machine := by
  rfl

/-- What follows a write to RAM runs on the machine with the word written. -/
@[simp] theorem writeWord_bind_run (offset value : UInt32) (rest : Unit → Exec σ α) :
    (Exec.writeWord offset value >>= rest).run machine =
      (rest ()).run (machine.writeWord offset value) := by rfl

/-- The guard on words of RAM hands on whether all the bytes are there. -/
@[simp] theorem ramHoldsWord_bind_run (offset : UInt32) (rest : Bool → Exec σ α) :
    (Exec.ramHoldsWord offset >>= rest).run machine =
      (rest (machine.ram.holdsWord offset.toNat)).run machine := by
  rw [← Region.fitsWord_eq_holdsWord]
  rfl

/-- The guard on ROM hands on whether the offset is inside. -/
@[simp] theorem romHolds_bind_run (offset : UInt32) (rest : Bool → Exec σ α) :
    (Exec.romHolds offset >>= rest).run machine =
      (rest (decide (offset.toNat < machine.rom.size))).run machine := by rfl

/-- What follows a verdict runs if the verdict grants. -/
@[simp] theorem ofExcept_bind_run {β : Type} (verdict : Except Fault β) (rest : β → Exec σ α) :
    EStateM.run (MonadExcept.ofExcept verdict >>= rest) machine =
      machine.resume verdict fun value => (rest value).run machine := by
  cases verdict <;> rfl

/-- What follows a guard runs if the guard grants. -/
@[simp] theorem require_bind_run (condition : Bool) (fault : Fault) (rest : Unit → Exec σ α) :
    (Exec.require condition fault >>= rest).run machine =
      machine.resume (machine.guard condition fault) fun _ => (rest ()).run machine := by
  simp only [Exec.require, bind_assoc, get_bind_run, guard]
  split <;> rfl

/-- To go on at an address sets the instruction pointer and nothing else. -/
@[simp] theorem goOn_run (target : UInt32) :
    (Exec.goOn target).run machine = .ok .next (machine.setRegister .ip target) := by rfl

/-- To skip spends the pending skip and moves the instruction pointer. -/
@[simp] theorem skip_run (next : UInt32) :
    (Exec.skip next).run machine = .ok .next (machine.skippedTo next) := by rfl

/-- What follows a fetch runs on the instruction and the address after it, unless the fetch is
refused. -/
@[simp] theorem fetch_bind_run (rest : Instruction × UInt32 → Exec σ α) :
    (Exec.fetch >>= rest).run machine =
      machine.resume machine.fetched fun value => (rest value).run machine := by
  simp only [Exec.fetch, fetched, addressAfter, instructionOf, bind_assoc, pure_bind, resume_bind,
    getRegister_bind_run, romHolds_bind_run, require_bind_run, get_bind_run, ofExcept_bind_run,
    resume_pure]
  rfl

/-- What follows the demand on the register ids runs if they all belong to registers. -/
@[simp] theorem requireRegisters_bind_run (ids : List UInt8) (rest : Unit → Exec σ α) :
    (Exec.requireRegisters ids >>= rest).run machine =
      machine.resume (machine.knowsRegisters ids) fun _ => (rest ()).run machine := by
  induction ids with
  | nil => rfl
  | cons id ids ih =>
    simp only [Exec.requireRegisters, knowsRegisters, bind_assoc, require_bind_run, resume_bind, ih]

end

/-- A halt puts the instruction pointer back where it was, and the machine stays as it is. -/
theorem executedTo_halt (machine : Machine σ) (next : UInt32) :
    machine.executedTo next .halt = machine := by
  simp only [executedTo, changed, destination, setRegister, register, Registers.set_get_self]

/-- An instruction whose registers are known: its conditions, then its effect. -/
theorem execute_run (programSize : UInt16) (next : UInt32) (machine : Machine σ)
    (instruction : Instruction) :
    (Exec.execute programSize next instruction).run machine =
      machine.resume (machine.permits programSize instruction) fun _ =>
        .ok (machine.flow instruction) (machine.executedTo next instruction) := by
  -- Each instruction is a chain of small actions, which their laws run one after the other.
  cases instruction with
  | nop | lcons | mov | ret | not | skipz | skipnz => rfl
  | halt =>
    rw [executedTo_halt]
    rfl
  | syscall code =>
    simp only [Exec.execute, Exec.interrupt, permits, bind_assoc, get_bind_run]
    cases h : machine.handler with
    | none => rfl
    | some handler =>
      simp only [executedTo, changed, destination, interrupted, flow, response?, h]
      rfl
  | push src =>
    simp only [Exec.execute, Exec.push, permits, spans, bind_assoc, getRegister_bind_run,
      require_bind_run, ramHoldsWord_bind_run, readId_bind_run, writeWord_bind_run,
      setRegister_bind_run, goOn_run, resume_bind, executedTo, changed, destination, flow]
  | pop dst =>
    simp only [Exec.execute, Exec.pop, permits, bind_assoc, getRegister_bind_run,
      require_bind_run, ramHoldsWord_bind_run, readWord_bind_run, writeId_bind_run,
      setRegister_bind_run, goOn_run, resume_bind, executedTo, changed, destination, flow]
  | call target =>
    simp only [Exec.execute, permits, reaches, romHolds_bind_run, require_bind_run,
      setRegister_bind_run, goOn_run, executedTo, changed, destination, flow]
  | store address src =>
    simp only [Exec.execute, permits, spans, ramHoldsWord_bind_run, require_bind_run,
      readId_bind_run, writeWord_bind_run, goOn_run, executedTo, changed, destination, flow]
  | load dst address =>
    simp only [Exec.execute, permits, spans, ramHoldsWord_bind_run, require_bind_run,
      readWord_bind_run, writeId_bind_run, goOn_run, executedTo, changed, destination, flow]
  | alu op dst src =>
    simp only [Exec.execute, Exec.binary, permits, bind_assoc, readId_bind_run]
    cases h : op.eval? (machine.registers.read dst) (machine.registers.read src) with
    | none => rfl
    | some value =>
      simp only [executedTo, changed, destination, flow, h]
      rfl
  | jmp target =>
    simp only [Exec.execute, Exec.jump, permits, reaches, romHolds_bind_run, require_bind_run,
      goOn_run, executedTo, changed, destination, flow]
  | jr src =>
    simp only [Exec.execute, Exec.jump, permits, reaches, readId_bind_run, romHolds_bind_run,
      require_bind_run, goOn_run, executedTo, changed, destination, flow]

/-- A step is its verdict, and then its effect. -/
theorem step_run (programSize : UInt16) (machine : Machine σ) :
    (step programSize).run machine =
      machine.resume (machine.verdict programSize) fun (instruction, next) =>
        .ok (machine.signal instruction) (machine.after next instruction) := by
  simp only [step, verdict, fetch_bind_run, resume_bind, get_bind_run]
  congr 1
  funext ⟨instruction, next⟩
  cases h : machine.skipPending with
  | true => simp only [after, signal, skip_run, resume_pure, h, if_true]
  | false =>
    simp only [after, signal, requireRegisters_bind_run, execute_run, resume_bind, resume_pure, h,
      Bool.false_eq_true, if_false]

/-- A step completes when its verdict grants it, and then its signal and its effect are what it
comes to. -/
theorem step_eq_ok_iff {programSize : UInt16} {machine stepped : Machine σ} {flow : Flow} :
    (step programSize).run machine = .ok flow stepped ↔
      ∃ instruction next, machine.verdict programSize = .ok (instruction, next) ∧
        machine.signal instruction = flow ∧ machine.after next instruction = stepped := by
  rw [step_run]
  rcases machine.verdict programSize with fault | ⟨instruction, next⟩
  · simp
  · constructor
    · rintro ⟨⟩
      exact ⟨instruction, next, rfl, rfl, rfl⟩
    · rintro ⟨_, _, ⟨⟩, rfl, rfl⟩
      rfl

/-- A step that is refused leaves the machine as it was. -/
theorem step_eq_error_iff {programSize : UInt16} {machine stepped : Machine σ} {fault : Fault} :
    (step programSize).run machine = .error fault stepped ↔
      machine.verdict programSize = .error fault ∧ stepped = machine := by
  rw [step_run]
  rcases machine.verdict programSize with fault' | ⟨instruction, next⟩
  · simp [eq_comm]
  · simp

/-! ## What a verdict tells -/

section

variable {programSize : UInt16} {machine : Machine σ}

/-- The verdict on an instruction that has been fetched. -/
theorem verdict_of_fetched {instruction : Instruction} {next : UInt32}
    (h : machine.fetched = .ok (instruction, next)) :
    machine.verdict programSize =
      if machine.skipPending then .ok (instruction, next)
      else do
        machine.knowsRegisters instruction.registerIds
        machine.permits programSize instruction
        return (instruction, next) := by
  unfold verdict
  rw [h]
  cases machine.skipPending <;> rfl

/-- Only an instruction that has been fetched is taken. -/
theorem fetched_of_verdict {taken : Instruction × UInt32}
    (h : machine.verdict programSize = .ok taken) : machine.fetched = .ok taken := by
  obtain ⟨instruction, next⟩ := taken
  rcases hfetched : machine.fetched with fault | ⟨instruction', next'⟩
  · unfold verdict at h
    rw [hfetched] at h
    cases h
  · rw [verdict_of_fetched hfetched] at h
    split at h
    · rw [h]
    · obtain ⟨-, -, hrest⟩ := bind_eq_ok_iff.mp h
      obtain ⟨-, -, htaken⟩ := bind_eq_ok_iff.mp hrest
      cases htaken
      rfl

/-- Only an instruction that is permitted is executed. -/
theorem permits_of_verdict {instruction : Instruction} {next : UInt32}
    (hskip : machine.skipPending = false)
    (h : machine.verdict programSize = .ok (instruction, next)) :
    machine.permits programSize instruction = .ok () := by
  rw [verdict_of_fetched (fetched_of_verdict h), hskip, if_neg Bool.false_ne_true] at h
  obtain ⟨-, -, hrest⟩ := bind_eq_ok_iff.mp h
  obtain ⟨⟨⟩, hpermits, -⟩ := bind_eq_ok_iff.mp hrest
  exact hpermits

/-- A step is refused because its fetch is, because it names a register that does not exist, or
because its instruction is not permitted. -/
theorem verdict_eq_error {fault : Fault} (h : machine.verdict programSize = .error fault) :
    machine.fetched = .error fault ∨
      ∃ instruction next, machine.fetched = .ok (instruction, next) ∧
        (machine.knowsRegisters instruction.registerIds = .error fault ∨
          machine.permits programSize instruction = .error fault) := by
  -- The checks come one after the other, and the first that fails gives the fault.
  rcases hfetched : machine.fetched with fault' | ⟨instruction, next⟩
  · unfold verdict at h
    rw [hfetched] at h
    cases h
    exact .inl rfl
  · refine .inr ⟨instruction, next, rfl, ?_⟩
    rw [verdict_of_fetched hfetched] at h
    split at h
    · cases h
    · rcases hknows : machine.knowsRegisters instruction.registerIds with fault' | known
      · rw [hknows] at h
        cases h
        exact .inl rfl
      · rcases hpermits : machine.permits programSize instruction with fault' | permitted
        · rw [hknows, hpermits] at h
          cases h
          exact .inr rfl
        · rw [hknows, hpermits] at h
          cases h

end

/-! ## What a step leaves alone -/

section

variable (machine : Machine σ)

/-- A register has the word that has been put into it. -/
@[simp] theorem register_setRegister_self (register : Register) (value : UInt32) :
    (machine.setRegister register value).register register = value :=
  Registers.get_set_self ..

/-- A word put into a register changes no other one. -/
theorem register_setRegister_of_ne {r s : Register} (h : r ≠ s) (value : UInt32) :
    (machine.setRegister r value).register s = machine.register s :=
  Registers.get_set_of_ne _ h _

/-- A register after another one has been set. -/
theorem register_setRegister (r s : Register) (value : UInt32) :
    (machine.setRegister r value).register s =
      if s = r then value else machine.register s := by
  split
  · rename_i h
    subst h
    exact machine.register_setRegister_self s value
  · rename_i h
    exact machine.register_setRegister_of_ne (Ne.symm h) value

/-- A write to a register by id shows in no other register. -/
theorem register_writeId_of_ne {id : UInt8} {register : Register} (h : id ≠ register.id)
    (value : UInt32) :
    (machine.writeId id value).register register = machine.register register := by
  unfold Machine.register writeId Registers.get
  rw [Registers.read_write, if_neg fun hid => h hid.1]

/-- A reset leaves zero in every register but the stack pointer. -/
theorem register_reset_of_ne {register : Register} (h : .sp ≠ register) :
    machine.reset.register register = 0 :=
  (Registers.get_set_of_ne .zero h _).trans (Registers.read_zero _)

/-- The answer of the interrupt handler goes to the registers and to the handler itself. -/
theorem interrupted_eq (code : UInt8) :
    machine.interrupted code =
      { machine with
        registers := (machine.interrupted code).registers
        handler := (machine.interrupted code).handler } := by
  unfold interrupted
  split <;> rfl

/-- What no instruction changes: the policy, ROM, and the address and the size of RAM. -/
def fixed : Policy × Region × UInt16 × Nat :=
  (machine.policy, machine.rom, machine.ram.base, machine.ram.size)

variable (next : UInt32) (instruction : Instruction)

/-- An instruction changes nothing of what is fixed. -/
theorem fixed_changed : (machine.changed next instruction).fixed = machine.fixed := by
  have hword (offset value : UInt32) : (machine.writeWord offset value).fixed = machine.fixed := by
    unfold writeWord fixed Region.writeWord
    split
    · rw [Region.size_overwrite]
      rfl
    · rfl
  cases instruction with
  | push src => exact hword _ _
  | store address src => exact hword _ _
  | syscall code =>
    have hinterrupted := congrArg fixed (machine.interrupted_eq code)
    exact hinterrupted
  | _ => rfl

/-- A step changes nothing of what is fixed. -/
theorem fixed_after : (machine.after next instruction).fixed = machine.fixed := by
  unfold after
  split
  · rfl
  · exact machine.fixed_changed next instruction

/-- A step keeps the policy. -/
@[simp] theorem policy_after : (machine.after next instruction).policy = machine.policy :=
  congrArg Prod.fst (machine.fixed_after next instruction)

/-- A step keeps ROM. -/
@[simp] theorem rom_after : (machine.after next instruction).rom = machine.rom :=
  congrArg (·.2.1) (machine.fixed_after next instruction)

/-- The instruction pointer after a step, whatever the instruction itself has put into it. -/
theorem register_ip_after :
    (machine.after next instruction).register .ip =
      if machine.skipPending then next else machine.destination next instruction := by
  unfold after
  split
  · exact register_setRegister_self _ _ _
  · exact register_setRegister_self _ _ _

end

/-! ## What effects do not depend on -/

/-- The machine with another policy and another ROM. -/
def refitted (machine : Machine σ) (policy : Policy) (rom : Region) : Machine σ :=
  { machine with policy, rom }

/-- The policy and ROM decide whether a step happens, but not what it does. -/
theorem after_refitted (machine : Machine σ) (policy : Policy) (rom : Region) (next : UInt32)
    (instruction : Instruction) :
    (machine.refitted policy rom).after next instruction =
      (machine.after next instruction).refitted policy rom := by
  have hchanged : (machine.refitted policy rom).changed next instruction =
      (machine.changed next instruction).refitted policy rom := by
    cases instruction with
    | syscall code =>
      cases h : machine.handler with
      | none => simp only [changed, interrupted, refitted, h]
      | some handler => simp only [changed, interrupted, refitted, h]
    | _ => rfl
  have hdestination : (machine.refitted policy rom).destination next instruction =
      machine.destination next instruction := by
    cases instruction <;> rfl
  unfold after executedTo
  rw [hchanged, hdestination]
  change (if machine.skipPending then _ else _) = _
  split <;> rfl

/-- Whether a run goes on does not depend on the policy and ROM either. -/
theorem signal_refitted (machine : Machine σ) (policy : Policy) (rom : Region)
    (instruction : Instruction) :
    (machine.refitted policy rom).signal instruction = machine.signal instruction := by
  cases instruction <;> rfl

end RegisterMachine.Machine
