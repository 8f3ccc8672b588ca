import RegisterMachine.Assembly.Name

/-!
# Assembly errors

A source is refused for a `Cause`, at the line that has it. `Error.message` words both.
-/

namespace RegisterMachine.Assembly

/-- Why a source is refused. -/
inductive Cause where
  /-- The line is no label, instruction or data directive. -/
  | notAValidLine
  /-- The label is not a single word that ends in a colon. -/
  | invalidLabel
  /-- The symbol is defined already. -/
  | duplicatedLabel (name : Name)
  /-- The instruction has another number of operands. -/
  | badParameterCount (expected found : Nat)
  /-- The operand is not the name of a register. -/
  | badRegister (name : Name)
  /-- The text is not an integer literal. -/
  | invalidNumber
  /-- The value is above the range of its field. -/
  | integerTooHigh (value : Int)
  /-- The value is below the range of its field. -/
  | integerTooLow (value : Int)
  /-- The directive has no known type. -/
  | badDataType
  /-- The directive lacks its type or its values. -/
  | missingDataValues
  /-- No line defines the symbol. -/
  | labelNotFound (name : Name)
  /-- The name takes too many bytes. -/
  | nameTooLong
  /-- There is no room for the instruction. -/
  | tooManyInstructions
  /-- There is no room for the symbol. -/
  | tooManyLabels
  /-- There is no room for the constants. -/
  | dataTooLarge
  /-- The image leaves the output buffer, or an instruction starts outside the address space. -/
  | programTooLarge
  /-- The source has too many lines to number them. -/
  | lineNumberOverflow
  deriving DecidableEq

/-- The wording of a cause. -/
def Cause.message : Cause → String
  | notAValidLine => "not a valid line"
  | invalidLabel => "label must be a single token ending with ':'"
  | duplicatedLabel name => s!"duplicated label: {name}"
  | badParameterCount expected found =>
    s!"bad number of parameters, required {expected}, got {found}"
  | badRegister name => s!"bad register name: {name}"
  | invalidNumber => "invalid number"
  | integerTooHigh value => s!"integer too high: {value}"
  | integerTooLow value => s!"integer too low: {value}"
  | badDataType => "bad data type, must be DC8/16/32 or DV8/16/32"
  | missingDataValues => "data directive needs a type and values"
  | labelNotFound name => s!"label not found: {name}"
  | nameTooLong => "name is too long"
  | tooManyInstructions => "too many instructions"
  | tooManyLabels => "too many labels"
  | dataTooLarge => "constant data does not fit"
  | programTooLarge => "program does not fit in the output buffer"
  | lineNumberOverflow => "line number overflow"

/-- A cause with the number of the line that has it, where there is one. -/
structure Error where
  line? : Option Nat
  cause : Cause
  deriving DecidableEq

/-- The wording of an error, which starts with its line. -/
def Error.message (error : Error) : String :=
  match error.line? with
  | some line => s!"line {line}: {error.cause.message}"
  | none => error.cause.message

/-- A name, or the refusal of one that is too long. -/
def Name.ofChars (chars : List Char) : Except Cause Name :=
  match Name.ofChars? chars with
  | some name => .ok name
  | none => .error .nameTooLong

/-- A name is short enough to be taken. -/
@[simp] theorem Name.ofChars_chars (name : Name) : Name.ofChars name.chars = .ok name := by
  unfold Name.ofChars
  rw [Name.ofChars?_eq_some_iff.mpr rfl]

end RegisterMachine.Assembly
