/-!
# Faults

What can go wrong when a machine is set up, run, or accessed by its host. A fault carries the value
that was refused, and `message` words it.
-/

namespace RegisterMachine

/-- The reasons for which the machine refuses to go on. -/
inductive Fault where
  /-- No instruction has this opcode byte. -/
  | unknownOpcode (byte : UInt8)
  /-- No register has this id. -/
  | invalidRegister (id : UInt8)
  /-- The address or offset lies outside its region. -/
  | invalidAddress (address : UInt32)
  /-- The stack pointer is too low: for a further word, or for the stack to have been there. -/
  | stackOverflow
  /-- No whole word lies at the stack pointer. -/
  | stackUnderflow
  /-- A system call ran with no handler installed. -/
  | unhandledInterrupt (code : UInt8)
  /-- The divisor is zero. -/
  | divisionByZero
  deriving DecidableEq, Repr

namespace Fault

/-- The wording of a fault. -/
def message : Fault → String
  | unknownOpcode byte => s!"byte {byte} is not a valid opcode"
  | invalidRegister id => s!"register id {id} is out of range"
  | invalidAddress address => s!"address {address} is out of the region bounds"
  | stackOverflow => "attempted opperation would overflow the stack"
  | stackUnderflow => "attempted opperation would underflow the stack"
  | unhandledInterrupt code => s!"no interrupt handler installed for syscall {code}"
  | divisionByZero => "division by zero"

/-- The faults that only the guards of a checked machine report. -/
def isGuard : Fault → Bool
  | invalidRegister _ | invalidAddress _ | stackOverflow | stackUnderflow => true
  | unknownOpcode _ | unhandledInterrupt _ | divisionByZero => false

end Fault

end RegisterMachine
