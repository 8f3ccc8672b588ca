import RegisterMachine.Assembly.Directive
import RegisterMachine.Assembly.Operands

/-!
# The assembler and parsing

An `Assembler` holds what has been parsed: the statements, the symbols, and the pool with the bytes
of all constants. Each store has a capacity. `parse` fills them line by line from a source; it stops
at the first line that is refused, and what was stored up to then stays.

The lines of a source count from one. Within a line, a symbol is defined before the rest of the line
is read, so a refused line may leave its symbol behind, and a refused line of constants some of
their bytes.
-/

namespace RegisterMachine.Assembly

/-- A bound on the size of a store; `none` is no bound. -/
abbrev Limit : Type := Option Nat

/-- Whether a store may have a given size. -/
def Limit.admits (limit : Limit) (size : Nat) : Bool :=
  Option.all (fun most => decide (size ≤ most)) limit

/-- The bounds on the stores of an assembler. -/
structure Capacities where
  statements : Limit
  symbols : Limit
  /-- The bound on the bytes of all constants. -/
  constants : Limit
  deriving DecidableEq

/-- What has been parsed, and within which bounds. -/
structure Assembler where
  capacities : Capacities
  statements : Array Statement
  symbols : SymbolTable
  /-- The bytes of all constants, in source order. -/
  pool : Array UInt8

/-- Parsing within a line. -/
abbrev Parse : Type → Type := EStateM Cause Assembler

namespace Assembler

/-- An assembler that has parsed nothing. -/
def empty (capacities : Capacities) : Assembler :=
  ⟨capacities, #[], .empty, #[]⟩

/-- The assembler with all its stores empty. -/
def clear (assembler : Assembler) : Assembler :=
  empty assembler.capacities

/-- The address of a symbol, zero until an image is laid out. -/
def address? (assembler : Assembler) (name : List Char) : Option UInt16 :=
  assembler.symbols.address? name

end Assembler

namespace Parse

/-- Defines a symbol, which must be new. -/
def define (name : Name) : Parse Unit := do
  let assembler ← get
  if assembler.symbols.defines name then
    throw (.duplicatedLabel name)
  if !assembler.capacities.symbols.admits (assembler.symbols.entries.length + 1) then
    throw .tooManyLabels
  set { assembler with symbols := assembler.symbols.add name }

/-- Stores a statement. -/
def store (statement : Statement) : Parse Unit := do
  let assembler ← get
  if !assembler.capacities.statements.admits (assembler.statements.size + 1) then
    throw .tooManyInstructions
  set { assembler with statements := assembler.statements.push statement }

/-- Stores bytes of constants, all of them or none. -/
def storeBytes (bytes : List UInt8) : Parse Unit := do
  let assembler ← get
  if !assembler.capacities.constants.admits (assembler.pool.size + bytes.length) then
    throw .dataTooLarge
  set { assembler with pool := assembler.pool ++ bytes }

/-- Stores the bytes of one item of constants. -/
def constant (width : Width) (item : List Char) : Parse Unit := do
  let pieces ← MonadExcept.ofExcept (constantBytes width item)
  pieces.forM storeBytes

/-- The name of a label: a single word that ends in a colon and has more than its dot before it. -/
def labelName (word rest : List Char) : Except Cause Name :=
  if word.getLast? = some ':' ∧ rest = [] ∧ 2 ≤ word.dropLast.length then
    Name.ofChars word.dropLast
  else .error .invalidLabel

/-- Parses a label. -/
def label (line : Nat) (word rest : List Char) : Parse Unit := do
  let name ← MonadExcept.ofExcept (labelName word rest)
  define name
  store ⟨line, name, .label, 0⟩

/-- Parses an instruction. -/
def operation (line : Nat) (opcode : Opcode) (mnemonic rest : List Char) : Parse Unit := do
  store (← MonadExcept.ofExcept (Statement.operation line opcode mnemonic rest))

/-- Parses a data directive. -/
def directive (line : Nat) (symbol rest : List Char) : Parse Unit := do
  let ⟨name, ⟨storage, width⟩, values⟩ ← MonadExcept.ofExcept (Directive.ofChars symbol rest)
  define name
  match storage with
  | .ram =>
    let count ← MonadExcept.ofExcept (elementCount values)
    store ⟨line, name, .reservation width count, 0⟩
  | .rom =>
    let start := (← get).pool.size
    (Text.items values).forM fun item => constant width (Text.trim item)
    let stop := (← get).pool.size
    store ⟨line, name, .constants width start (stop - start), 0⟩

/-- Parses one line. Its first word decides what it is: a word with a dot is a label, the name of an
instruction starts an instruction, and a word with a dollar sign starts a data directive. -/
def line (number : Nat) (text : List Char) : Parse Unit := do
  let text := Text.trim (Text.withoutComment text)
  if text = [] then
    return
  let (word, rest) := Text.firstWord text
  if word.head? = some '.' then
    label number word rest
  else
    match Opcode.ofMnemonic? word with
    | some opcode => operation number opcode word rest
    | none =>
      -- No mnemonic starts with a dollar sign, so the order of the last two does not matter.
      if word.head? = some '$' then
        directive number word rest
      else
        throw .notAValidLine

end Parse

namespace Assembler

/-- The greatest number that a line can have. -/
def maxLine : Nat := 0xFFFFFFFF

/-- Parses the lines after the first `number` ones. -/
def parseLines (number : Nat) : List (List Char) → EStateM Error Assembler Unit
  | [] => return
  | text :: rest => do
    if number = maxLine then
      throw ⟨none, .lineNumberOverflow⟩
    (Parse.line (number + 1) text).adaptExcept (⟨some (number + 1), ·⟩)
    parseLines (number + 1) rest

/-- Parses a source, in place of what was parsed before. -/
def parse (source : String) : EStateM Error Assembler Unit := do
  modify clear
  parseLines 0 (Text.lines source.toList)

end Assembler

end RegisterMachine.Assembly
