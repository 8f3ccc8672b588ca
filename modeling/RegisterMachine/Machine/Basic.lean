import RegisterMachine.Isa.Registers
import RegisterMachine.Memory.Region

/-!
# The machine and its execution monad

A `Machine` is a register file, a ROM region with the program, a RAM region with stack and data,
and the bookkeeping of a run: the pending skip, the count of executed instructions, and the
interrupt handler that the host installed. The handler keeps state of its own type `σ`.

Execution happens in `Exec`: a computation ends with a result or a fault, and in both cases with a
machine. A computation that fails late may have changed the machine before, so that a failing
instruction changes nothing is a fact about the instructions and not about the monad.

The guards of a machine depend on its policy: `require` is the only place where it matters.
-/

namespace RegisterMachine

/-- Whether the guards on registers, addresses and the stack are in force. -/
inductive Policy where
  /-- A guard that does not hold is a fault. -/
  | checked
  /-- There are no guards: reads out of range give zero and writes out of range go nowhere. -/
  | unchecked
  deriving DecidableEq, Repr

/-- What an interrupt handler answers. -/
structure Response (σ : Type) where
  /-- The registers as the handler leaves them. -/
  registers : Registers
  /-- The handler's own state after the call. -/
  state : σ
  /-- Whether the run goes on. -/
  proceed : Bool

/-- The host's side of system calls. -/
structure Handler (σ : Type) where
  /-- Answers a call with a code, from the registers and the handler's own state. -/
  respond : UInt8 → Registers → σ → Response σ
  /-- The handler's own state. -/
  state : σ

/-- A machine whose interrupt handler keeps a state of type `σ`. -/
structure Machine (σ : Type) where
  policy : Policy
  rom : Region
  ram : Region
  registers : Registers
  /-- Whether the next instruction is skipped. -/
  skipPending : Bool
  /-- The instructions executed since the last reset, modulo `2 ^ 64`. -/
  executed : UInt64
  handler : Option (Handler σ)
  /-- A hint to the host about the size of the stack; the machine does not use it. -/
  stackSize : UInt16

/-- Computations on a machine that may end in a fault. -/
abbrev Exec (σ : Type) : Type → Type := EStateM Fault (Machine σ)

namespace Machine

variable {σ : Type}

/-- The machine with its RAM and registers zero, but for the stack pointer, which is at the end of
RAM. No skip is pending and nothing has been executed. The handler stays installed. -/
def reset (machine : Machine σ) : Machine σ :=
  { machine with
    ram := machine.ram.clear
    registers := Registers.zero.set .sp (UInt32.ofNat machine.ram.size)
    skipPending := false
    executed := 0 }

/-- A machine on two regions, reset and without a handler. -/
def create (policy : Policy) (rom ram : Region) (stackSize : UInt16) : Machine σ :=
  reset ⟨policy, rom, ram, .zero, false, 0, none, stackSize⟩

/-- The word that a register holds. -/
def register (machine : Machine σ) (register : Register) : UInt32 :=
  machine.registers.get register

/-- The machine with a word put into a register. -/
def setRegister (machine : Machine σ) (register : Register) (value : UInt32) : Machine σ :=
  { machine with registers := machine.registers.set register value }

/-- The machine with its interrupt handler installed, replaced or removed. -/
def setHandler (machine : Machine σ) (handler : Option (Handler σ)) : Machine σ :=
  { machine with handler }

end Machine

namespace Exec

variable {σ : Type}

/-- A guard: on a checked machine the condition must hold. -/
def require (condition : Bool) (fault : Fault) : Exec σ Unit := do
  if (← get).policy = .checked && !condition then
    throw fault

/-- Reads a register. -/
def getRegister (register : Register) : Exec σ UInt32 :=
  return (← get).register register

/-- Puts a word into a register. -/
def setRegister (register : Register) (value : UInt32) : Exec σ Unit :=
  modify (·.setRegister register value)

/-- Reads the register with an id, zero if there is none. -/
def readId (id : UInt8) : Exec σ UInt32 :=
  return (← get).registers.read id

/-- Puts a word into the register with an id, if there is one. -/
def writeId (id : UInt8) (value : UInt32) : Exec σ Unit :=
  modify fun machine => { machine with registers := machine.registers.write id value }

/-- Reads a word of RAM, zero if it is not all there. -/
def readWord (offset : UInt32) : Exec σ UInt32 :=
  return ((← get).ram.word? offset.toNat).getD 0

/-- Writes a word of RAM, if it is all there. -/
def writeWord (offset value : UInt32) : Exec σ Unit :=
  modify fun machine => { machine with ram := machine.ram.writeWord offset.toNat value }

/-- Whether a word at this offset lies inside RAM, calculated with words. -/
def ramHoldsWord (offset : UInt32) : Exec σ Bool :=
  return (← get).ram.fitsWord offset

/-- Whether an offset lies inside ROM. -/
def romHolds (offset : UInt32) : Exec σ Bool :=
  return offset.toNat < (← get).rom.size

end Exec

end RegisterMachine
