import RegisterMachine.Machine.Basic

/-!
# The host's view

What a host may do to a machine between runs: reach registers by id, push words for a program and
pop its results, and look at memory by absolute address. Where ROM and RAM overlap, ROM is seen.
-/

namespace RegisterMachine

/-- One call of the interrupt handler: its code, and the registers before it ran. -/
structure Call where
  code : UInt8
  registers : Registers

/-- The handler that also keeps the calls it has had, oldest first. -/
def Handler.recording {σ : Type} (handler : Handler σ) : Handler (σ × List Call) where
  respond code registers state :=
    let response := handler.respond code registers state.1
    ⟨response.registers, (response.state, state.2 ++ [⟨code, registers⟩]), response.proceed⟩
  state := (handler.state, [])

namespace Machine

open Exec

variable {σ : Type}

/-- The word in the register with an id; an id past the last register is a fault. -/
def registerById (id : UInt8) : Exec σ UInt32 := do
  getRegister (← MonadExcept.ofExcept (Register.ofId id))

/-- Puts a word into the register with an id; an id past the last register is a fault. -/
def setRegisterById (id : UInt8) (value : UInt32) : Exec σ Unit := do
  Exec.setRegister (← MonadExcept.ofExcept (Register.ofId id)) value

/-- Pushes a word onto the stack, wherever RAM has room for it. -/
def hostPush (value : UInt32) : Exec σ Unit := do
  let top := (← getRegister .sp) - 4
  require (← ramHoldsWord top) (.invalidAddress top)
  writeWord top value
  Exec.setRegister .sp top

/-- Pops a word off the stack, wherever RAM has one. -/
def hostPop : Exec σ UInt32 := do
  let sp ← getRegister .sp
  require (← ramHoldsWord sp) (.invalidAddress sp)
  let value ← readWord sp
  Exec.setRegister .sp (sp + 4)
  return value

/-- The bytes between the stack pointer and the end of RAM. -/
def stackCount (machine : Machine σ) : Nat :=
  machine.ram.size - (machine.register .sp).toNat

/-- Where an absolute address leads. -/
def locate (machine : Machine σ) (address : UInt16) : Location :=
  match machine.rom.offset? address with
  | some offset => .rom offset
  | none =>
    match machine.ram.offset? address with
    | some offset => .ram offset
    | none => .unmapped

/-- The bytes from an absolute address to the end of its region. -/
def bytesFrom (machine : Machine σ) (address : UInt16) : Except Fault (List UInt8) :=
  match machine.locate address with
  | .rom offset => .ok (machine.rom.drop offset.toNat)
  | .ram offset => .ok (machine.ram.drop offset.toNat)
  | .unmapped => .error (.invalidAddress address.toUInt32)

/-- Lays bytes over RAM from an absolute address on, as many as there is room for. The answer is the
room: the number of bytes from there to the end of RAM. An address that leads to ROM or nowhere is a
fault. -/
def patch (address : UInt16) (bytes : List UInt8) : Exec σ Nat := do
  let machine ← get
  match machine.locate address with
  | .ram offset =>
    set { machine with ram := machine.ram.overwrite offset.toNat bytes }
    return machine.ram.size - offset.toNat
  | .rom _ | .unmapped => throw (.invalidAddress address.toUInt32)

end Machine

end RegisterMachine
