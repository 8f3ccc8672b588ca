import RegisterMachine.Assembly.Statement
import RegisterMachine.Isa.Register
import RegisterMachine.Text.Pieces

/-!
# Operands

The fields of an instruction line are its operands, one for each entry of the opcode's table. Each
becomes the bytes that its kind says. A word that starts with `.` or `$` where a 32-bit literal may
stand, and any word that is no literal where a jump target may stand, refers to a symbol.
-/

namespace RegisterMachine.Assembly

/-- An operand: its bytes, or the width of the field that a symbol will fill. -/
inductive Operand where
  | bytes (bytes : List UInt8)
  | symbol (width : Width)

/-- A word with the mark of a symbol. -/
def isSymbol (word : List Char) : Bool :=
  word.head? = some '.' || word.head? = some '$'

/-- Reads an operand of a given kind. -/
def Operand.ofName (kind : OperandKind) (word : Name) : Except Cause Operand :=
  match kind with
  | .register =>
    match Register.ofName? word.chars with
    | some register => .ok (.bytes [register.id])
    | none => .error (.badRegister word)
  | .immediate8 => bytes <$> Width.byte.encodeLiteral word.chars
  | .address => bytes <$> Width.half.encodeLiteral word.chars
  | .immediate32 =>
    if isSymbol word.chars then .ok (.symbol .word)
    else bytes <$> Width.word.encodeLiteral word.chars
  | .target =>
    match Text.integer? word.chars with
    | some value => bytes <$> Width.half.encode value
    | none => .ok (.symbol .half)

/-- The operands read so far, from the left. -/
structure Operands where
  /-- The operands as written. -/
  args : List Name
  /-- The operands as encoded. -/
  bytes : List UInt8
  /-- The field that a symbol will fill. -/
  reference? : Option Reference

namespace Operands

/-- No operands. -/
def empty : Operands := ⟨[], [], none⟩

/-- Reads one more operand. A field for a symbol is zero until its address is known. -/
def add (operands : Operands) (kind : OperandKind) (word : List Char) : Except Cause Operands := do
  let name ← Name.ofChars word
  match ← Operand.ofName kind name with
  | .bytes bytes => return { operands with
      args := operands.args ++ [name]
      bytes := operands.bytes ++ bytes }
  | .symbol width => return {
      args := operands.args ++ [name]
      bytes := operands.bytes ++ width.encodeNat 0
      reference? := some ⟨name, operands.bytes.length, width⟩ }

/-- Reads the operands of an opcode, which must be as many as its table has. -/
def ofWords (opcode : Opcode) (words : List (List Char)) : Except Cause Operands := do
  if words.length ≠ opcode.operands.length then
    throw (.badParameterCount opcode.operands.length words.length)
  (opcode.operands.zip words).foldlM (fun operands (kind, word) => operands.add kind word) empty

end Operands

/-- Reads an instruction line, given its mnemonic as written and what follows it. -/
def Statement.operation (line : Nat) (opcode : Opcode) (mnemonic rest : List Char) :
    Except Cause Statement := do
  let operands ← Operands.ofWords opcode (Text.fields rest)
  let name ← Name.ofChars mnemonic
  return ⟨line, name, .operation opcode operands.args operands.bytes operands.reference?, 0⟩

end RegisterMachine.Assembly
