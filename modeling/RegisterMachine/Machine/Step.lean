import RegisterMachine.Isa.Instruction
import RegisterMachine.Machine.Basic

/-!
# One step

A step fetches the instruction at the instruction pointer and then skips or executes it. Every
guard of a step stands before its first change to the machine, so a step that ends in a fault leaves
the machine as it was.

The order of the guards decides which fault a doubly faulty instruction reports: the opcode byte
must lie in ROM and be known, then the operand bytes must lie in ROM, then the registers named must
exist, then the instruction's own conditions apply. A skipped instruction needs only the first two.
-/

namespace RegisterMachine

/-- How the run goes on after a step. -/
inductive Flow where
  /-- With the next instruction. -/
  | next
  /-- Not at all: a `halt` was reached, which stays the current instruction. -/
  | halt
  /-- Not for now: the interrupt handler asked to stop. -/
  | stop
  deriving DecidableEq, Repr

/-- The byte of ROM at an offset, zero past the end. -/
def Machine.romByte {σ : Type} (machine : Machine σ) (offset : Nat) : UInt8 :=
  (machine.rom.byte? offset).getD 0

namespace Exec

variable {σ : Type}

/-- The instruction at the instruction pointer and the address after it. -/
def fetch : Exec σ (Instruction × UInt32) := do
  let ip ← getRegister .ip
  require (← romHolds ip) (.invalidAddress ip)
  let machine ← get
  let opcode ← MonadExcept.ofExcept (Opcode.ofByte (machine.romByte ip.toNat))
  let next := ip + 1 + UInt32.ofNat opcode.operandBytes
  -- The last operand byte is the one reported, wherever ROM ends before it.
  require (next.toNat ≤ machine.rom.size) (.invalidAddress (next - 1))
  let bytes := (List.range opcode.operandBytes).map fun i => machine.romByte (ip.toNat + 1 + i)
  return (opcode.decode bytes, next)

/-- Every register id that an instruction names must belong to a register. -/
def requireRegisters : List UInt8 → Exec σ Unit
  | [] => return
  | id :: ids => do
    require (id.toNat < Register.count) (.invalidRegister id)
    requireRegisters ids

/-- Goes on at an address. -/
def goOn (target : UInt32) : Exec σ Flow := do
  setRegister .ip target
  return .next

/-- Goes on at an address that must lie in ROM. -/
def jump (target : UInt32) : Exec σ Flow := do
  require (← romHolds target) (.invalidAddress target)
  goOn target

/-- Has the handler answer a system call; the result tells whether the run goes on. -/
def interrupt (code : UInt8) : Exec σ Bool := do
  let machine ← get
  match machine.handler with
  | none => throw (.unhandledInterrupt code)
  | some handler =>
    let response := handler.respond code machine.registers handler.state
    set { machine with
      registers := response.registers
      handler := some { handler with state := response.state } }
    return response.proceed

/-- Pushes a register onto the stack. The register is read before the stack pointer moves. -/
def push (src : UInt8) : Exec σ Unit := do
  let sp ← getRegister .sp
  require (4 ≤ sp) .stackOverflow
  let top := sp - 4
  require (← ramHoldsWord top) (.invalidAddress top)
  writeWord top (← readId src)
  setRegister .sp top

/-- Pops the top of the stack into a register. No word below offset `programSize` is popped. A pop
into the stack pointer is overridden by its advance. -/
def pop (programSize : UInt16) (dst : UInt8) : Exec σ Unit := do
  let sp ← getRegister .sp
  require (← ramHoldsWord sp) .stackUnderflow
  require (programSize.toUInt32 ≤ sp) .stackOverflow
  writeId dst (← readWord sp)
  setRegister .sp (sp + 4)

/-- Applies a binary operation to two registers and puts the result into the first. -/
def binary (op : Alu) (dst src : UInt8) : Exec σ Unit := do
  match op.eval? (← readId dst) (← readId src) with
  | some value => writeId dst value
  | none => throw .divisionByZero

/-- Executes an instruction, where `next` is the address after it. -/
def execute (programSize : UInt16) (next : UInt32) : Instruction → Exec σ Flow
  | .nop => goOn next
  | .halt => return .halt
  | .syscall code => do
    let proceed ← interrupt code
    -- What the handler has put into `ip` is lost.
    setRegister .ip next
    return if proceed then .next else .stop
  | .lcons dst value => do
    writeId dst value
    goOn next
  | .mov dst src => do
    writeId dst (← readId src)
    goOn next
  | .push src => do
    push src
    goOn next
  | .pop dst => do
    pop programSize dst
    goOn next
  | .call target => do
    require (← romHolds target.toUInt32) (.invalidAddress target.toUInt32)
    setRegister .ra next
    goOn target.toUInt32
  | .ret => do
    -- No guard stands here; an address outside ROM is refused by the fetch that follows.
    goOn (← getRegister .ra)
  | .store address src => do
    require (← ramHoldsWord address.toUInt32) (.invalidAddress address.toUInt32)
    writeWord address.toUInt32 (← readId src)
    goOn next
  | .load dst address => do
    require (← ramHoldsWord address.toUInt32) (.invalidAddress address.toUInt32)
    writeId dst (← readWord address.toUInt32)
    goOn next
  | .alu op dst src => do
    binary op dst src
    goOn next
  | .not dst => do
    writeId dst (~~~(← readId dst))
    goOn next
  | .jmp target => jump target.toUInt32
  | .jr src => do
    -- A target has 16 bits, and the higher bits of the word are dropped.
    jump ((← readId src) &&& 0xFFFF)
  | .skipz id => do
    -- The condition is on the id and not on the word in the register.
    modify fun machine => { machine with skipPending := id == 0 }
    goOn next
  | .skipnz id => do
    modify fun machine => { machine with skipPending := id != 0 }
    goOn next

/-- Passes over an instruction, which ends the pending skip. -/
def skip (next : UInt32) : Exec σ Flow := do
  modify fun machine => { machine with skipPending := false }
  goOn next

end Exec

/-- Fetches one instruction, and skips or executes it. -/
def Machine.step {σ : Type} (programSize : UInt16) : Exec σ Flow := do
  let (instruction, next) ← Exec.fetch
  if (← get).skipPending then
    Exec.skip next
  else
    Exec.requireRegisters instruction.registerIds
    Exec.execute programSize next instruction

end RegisterMachine
