import RegisterMachine.Assembly.Statement
import RegisterMachine.Text.Pieces
import RegisterMachine.Text.Quotation

/-!
# Data directives

A data directive gives a symbol, a type and values. The types `DC8`, `DC16` and `DC32` emit
constants into the image, `DV8`, `DV16` and `DV32` reserve RAM; the letters may be of either case.
The values of a reservation are one number, its elements. Those of constants are items between
commas, each a literal of the type's width or a quoted text, which stands for its UTF-8 bytes and a
zero byte whatever the width.
-/

namespace RegisterMachine.Assembly

/-- Where the data of a directive lives. -/
inductive Storage where
  /-- In the image, as constants. -/
  | rom
  /-- In RAM, as a reservation. -/
  | ram
  deriving DecidableEq, Repr

/-- The type of a data directive. -/
structure DataType where
  storage : Storage
  width : Width
  deriving DecidableEq, Repr

/-- The data type that a word names, whatever the case of its ASCII letters. -/
def DataType.ofChars? (word : List Char) : Option DataType :=
  match word.map Char.toLower with
  | 'd' :: 'c' :: bits => (Width.ofBits? bits).map (⟨.rom, ·⟩)
  | 'd' :: 'v' :: bits => (Width.ofBits? bits).map (⟨.ram, ·⟩)
  | _ => none

/-- A data directive, its values as written. -/
structure Directive where
  name : Name
  type : DataType
  values : List Char

/-- Reads a data directive, given its symbol and what follows it. -/
def Directive.ofChars (symbol rest : List Char) : Except Cause Directive := do
  let (type, values) := Text.firstWord rest
  if type.isEmpty || values.isEmpty then
    throw .missingDataValues
  match DataType.ofChars? type with
  | none => throw .badDataType
  | some type => return ⟨← Name.ofChars symbol, type, values⟩

/-- The number of elements to reserve. -/
def elementCount (values : List Char) : Except Cause UInt16 :=
  match Text.integer? values with
  | none => .error .invalidNumber
  | some count =>
    if count < 0 then .error (.integerTooLow count)
    else if count > 0xFFFF then .error (.integerTooHigh count)
    else .ok (UInt16.ofNat count.toNat)

/-- The pieces of bytes that an item of constants stands for, which enter the pool one by one. -/
def constantBytes (width : Width) (item : List Char) : Except Cause (List (List UInt8)) :=
  match Text.unquote? item with
  -- The zero byte is a piece of its own: a full pool may keep the text without it.
  | some text => .ok [Text.utf8Bytes text, [0]]
  | none => (fun bytes => [bytes]) <$> width.encodeLiteral item

end RegisterMachine.Assembly
