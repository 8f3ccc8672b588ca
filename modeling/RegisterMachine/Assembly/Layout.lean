import RegisterMachine.Assembly.Assembler
import RegisterMachine.Bytes.Overwrite

/-!
# Laying out the image

Statements are laid out one after the other from address zero. An instruction takes its opcode byte
and operands, constants take their bytes, and labels and reservations take none. A first pass
(`place`) gives every statement and symbol its address and writes the bytes; a second one (`link`)
then fills the fields that refer to symbols, which may be defined later in the source.

Both passes write into an output buffer and never past its end. What a pass has done when it fails
stays: the addresses given so far.
-/

namespace RegisterMachine.Assembly

/-- An assembled program. -/
structure Program where
  /-- The output buffer; the image stands at its start. -/
  buffer : Array UInt8
  /-- The bytes of the image, code and constants. -/
  romSize : Nat
  /-- The bytes reserved in RAM. -/
  ramSize : Nat
  /-- The bytes of constants in the image. -/
  constantsSize : Nat

/-- A layout in progress. -/
structure Layout where
  buffer : Array UInt8
  /-- The bytes written so far, which is the address of the next statement. -/
  cursor : Nat
  symbols : SymbolTable
  /-- The statements that have their address. -/
  placed : Array Statement
  ramSize : Nat
  constantsSize : Nat

namespace Layout

/-- A layout with nothing placed. -/
def start (buffer : Array UInt8) (symbols : SymbolTable) : Layout :=
  ⟨buffer, 0, symbols, #[], 0, 0⟩

/-- Writes bytes at the cursor and moves it past them. -/
def emit (bytes : List UInt8) : EStateM Cause Layout Unit := do
  let layout ← get
  if layout.cursor + bytes.length > layout.buffer.size then
    throw .programTooLarge
  set { layout with
    buffer := Bytes.overwrite layout.buffer layout.cursor bytes
    cursor := layout.cursor + bytes.length }

/-- Gives a statement the address at the cursor. -/
def locate (statement : Statement) : EStateM Cause Layout UInt16 := do
  let layout ← get
  if layout.cursor > 0xFFFF then
    throw .programTooLarge
  let address := UInt16.ofNat layout.cursor
  set { layout with placed := layout.placed.push { statement with address } }
  return address

/-- Gives a symbol its address. -/
def assign (name : Name) (address : UInt16) : EStateM Cause Layout Unit :=
  modify fun layout => { layout with symbols := layout.symbols.assign name address }

/-- Places a statement at the cursor, where the pool has the bytes of all constants. -/
def place (pool : Array UInt8) (statement : Statement) : EStateM Cause Layout Unit := do
  let address ← locate statement
  match statement.body with
  | .operation opcode _ operands _ => emit (opcode.byte :: operands)
  | .label => assign statement.name address
  | .reservation width count => do
    assign statement.name address
    modify fun layout => { layout with ramSize := layout.ramSize + count.toNat * width.bytes }
  | .constants _ first length => do
    assign statement.name address
    if first + length > pool.size then
      throw .dataTooLarge
    emit (pool.extract first (first + length)).toList
    modify fun layout => { layout with constantsSize := layout.constantsSize + length }

/-- Places statements one after the other. -/
def placeAll (pool : Array UInt8) : List Statement → EStateM Error Layout Unit
  | [] => return
  | statement :: rest => do
    (place pool statement).adaptExcept (⟨some statement.line, ·⟩)
    placeAll pool rest

/-- Fills the field of a statement that refers to a symbol. Operands start after the opcode byte. -/
def link (symbols : SymbolTable) (buffer : Array UInt8) (statement : Statement) :
    Except Cause (Array UInt8) :=
  match statement.body with
  | .operation _ _ _ (some reference) =>
    match symbols.address? reference.symbol.chars with
    | none => .error (.labelNotFound reference.symbol)
    | some address =>
      match Bytes.write? buffer (statement.address.toNat + 1 + reference.offset)
          (reference.width.encodeNat address.toNat) with
      | none => .error .programTooLarge
      | some buffer => .ok buffer
  | _ => .ok buffer

/-- Fills the fields of all statements that refer to symbols. -/
def linkAll (symbols : SymbolTable) : List Statement → Array UInt8 → Except Error (Array UInt8)
  | [], buffer => .ok buffer
  | statement :: rest, buffer =>
    match link symbols buffer statement with
    | .error cause => .error ⟨some statement.line, cause⟩
    | .ok buffer => linkAll symbols rest buffer

end Layout

namespace Assembler

/-- The assembler with the addresses that a layout has given. -/
def adopt (assembler : Assembler) (layout : Layout) : Assembler :=
  { assembler with
    statements := layout.placed ++ assembler.statements.extract layout.placed.size
    symbols := layout.symbols }

/-- Lays out what has been parsed at the start of an output buffer. -/
def build (buffer : Array UInt8) : EStateM Error Assembler Program := do
  let assembler ← get
  match (Layout.placeAll assembler.pool assembler.statements.toList).run
      (.start buffer assembler.symbols) with
  | .error error layout => do
    set (assembler.adopt layout)
    throw error
  | .ok () layout => do
    set (assembler.adopt layout)
    match Layout.linkAll layout.symbols layout.placed.toList layout.buffer with
    | .error error => throw error
    | .ok buffer => return ⟨buffer, layout.cursor, layout.ramSize, layout.constantsSize⟩

/-- Parses a source and lays it out. -/
def assemble (source : String) (buffer : Array UInt8) : EStateM Error Assembler Program := do
  parse source
  build buffer

end Assembler

end RegisterMachine.Assembly
