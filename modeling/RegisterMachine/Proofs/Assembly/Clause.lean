import RegisterMachine.Assembly.Assembler
import RegisterMachine.Proofs.Assembly.Linking

/-!
# What a line says

A `Clause` is a line that is not blank, read by itself: without regard to the lines before it and to
the capacities of the assembler, and with the bytes of constants in place. `Clause.ofLine` reads it.
`Clause.statement` is the statement that the assembler stores for it, and the rest of the module
tells what the passes over statements see of a clause: the bytes it has in the image once symbols
have addresses (`Clause.bytes`), the symbol it defines, the symbols it refers to, and the RAM it
reserves.
-/

namespace RegisterMachine.Assembly

/-- What a line says besides its name. -/
inductive Content where
  /-- An instruction with its fields. -/
  | operation (opcode : Opcode) (fields : Fields opcode)
  /-- A label. -/
  | label
  /-- Constants to emit. -/
  | constants (width : Width) (bytes : List UInt8)
  /-- RAM to reserve for a number of elements. -/
  | reservation (width : Width) (count : UInt16)

/-- A line that is not blank, as it reads by itself. -/
structure Clause where
  /-- The mnemonic as written, or the symbol that the line defines. -/
  name : Name
  content : Content

namespace Clause

/-! ## Reading a line -/

/-- Reads a label. -/
def ofLabel (word rest : List Char) : Except Cause Clause := do
  let name ← Parse.labelName word rest
  return ⟨name, .label⟩

/-- Reads an instruction. -/
def ofOperation (opcode : Opcode) (mnemonic rest : List Char) : Except Cause Clause := do
  let fields ← Fields.ofWords opcode (Text.fields rest)
  let name ← Name.ofChars mnemonic
  return ⟨name, .operation opcode fields⟩

/-- Reads items of constants. -/
def constantsOf (width : Width) : List (List Char) → Except Cause (List UInt8)
  | [] => .ok []
  | item :: items => do
    let pieces ← constantBytes width (Text.trim item)
    let bytes ← constantsOf width items
    return pieces.flatten ++ bytes

/-- Reads a data directive. -/
def ofDirective (symbol rest : List Char) : Except Cause Clause := do
  let directive ← Directive.ofChars symbol rest
  match directive.type.storage with
  | .ram =>
    let count ← elementCount directive.values
    return ⟨directive.name, .reservation directive.type.width count⟩
  | .rom =>
    let bytes ← constantsOf directive.type.width (Text.items directive.values)
    return ⟨directive.name, .constants directive.type.width bytes⟩

/-- Reads a line, which may be blank. -/
def ofLine (text : List Char) : Except Cause (Option Clause) :=
  let text := Text.trim (Text.withoutComment text)
  if text = [] then .ok none
  else
    let (word, rest) := Text.firstWord text
    if word.head? = some '.' then some <$> ofLabel word rest
    else
      match Opcode.ofMnemonic? word with
      | some opcode => some <$> ofOperation opcode word rest
      | none =>
        if word.head? = some '$' then some <$> ofDirective word rest
        else .error .notAValidLine

/-! ## The statement of a clause -/

/-- The body that the assembler stores for what a line says, where its constants start in the pool
at `start`. -/
def body (start : Nat) (clause : Clause) : Body :=
  match clause.content with
  | .operation opcode fields =>
    .operation opcode fields.kept.args fields.kept.bytes fields.kept.reference?
  | .label => .label
  | .constants width bytes => .constants width start bytes.length
  | .reservation width count => .reservation width count

/-- The statement that the assembler stores for the line with a given number. -/
def statement (number start : Nat) (clause : Clause) : Statement :=
  ⟨number, clause.name, clause.body start, 0⟩

/-- Whether a clause defines a symbol. -/
def defines (clause : Clause) : Bool :=
  match clause.content with
  | .operation _ _ => false
  | .label | .constants _ _ | .reservation _ _ => true

/-- The bytes of constants of a clause. -/
def constants (clause : Clause) : List UInt8 :=
  match clause.content with
  | .constants _ bytes => bytes
  | .operation _ _ | .label | .reservation _ _ => []

/-- The bytes of RAM that a clause reserves. -/
def reserved (clause : Clause) : Nat :=
  match clause.content with
  | .reservation width count => count.toNat * width.bytes
  | .operation _ _ | .label | .constants _ _ => 0

/-- The bytes of a clause in the image, given the addresses of symbols: an instruction is its opcode
byte and its fields, constants are themselves, and labels and reservations take no room. -/
def bytes (addressOf : List Char → Nat) (clause : Clause) : List UInt8 :=
  match clause.content with
  | .operation opcode fields => opcode.byte :: fields.bytes addressOf
  | .constants _ bytes => bytes
  | .label | .reservation _ _ => []

/-- The fields of a clause that are symbols. -/
def openFields (clause : Clause) : List Field :=
  match clause.content with
  | .operation _ fields => fields.opened
  | .label | .constants _ _ | .reservation _ _ => []

/-- A field that is a symbol takes two bytes of a jump or four of a constant. -/
theorem bytes_of_mem_openFields {clause : Clause} {field : Field} (h : field ∈ clause.openFields)
    (addressOf : List Char → Nat) :
    field.kind = .target ∧
        field.bytes addressOf = LittleEndian.toBytes 2 (addressOf field.word.chars) ∨
      field.kind = .immediate32 ∧
        field.bytes addressOf = LittleEndian.toBytes 4 (addressOf field.word.chars) := by
  obtain ⟨name, ⟨opcode, fields⟩ | _ | _ | _⟩ := clause
  · obtain ⟨width, hwidth⟩ := Option.isSome_iff_exists.mp (List.mem_filter.mp h).2
    rw [Field.bytes_of_opens? hwidth]
    rcases Field.opens?_eq_some hwidth with ⟨hkind, rfl⟩ | ⟨hkind, rfl⟩
    · exact .inl ⟨hkind, rfl⟩
    · exact .inr ⟨hkind, rfl⟩
  · cases h
  · cases h
  · cases h

section

variable (number start : Nat) (clause : Clause)

/-- A clause and its statement define a symbol or do not. -/
@[simp] theorem defines_statement :
    (clause.statement number start).defines = clause.defines := by
  obtain ⟨name, _ | _ | _ | _⟩ := clause <;> rfl

/-- A clause and its statement reserve the same bytes. -/
@[simp] theorem reserved_statement :
    (clause.statement number start).reserved = clause.reserved := by
  obtain ⟨name, _ | _ | _ | _⟩ := clause <;> rfl

/-- A statement emits as many bytes as its clause has constants. -/
@[simp] theorem emitted_statement :
    (clause.statement number start).emitted = clause.constants.length := by
  obtain ⟨name, _ | _ | _ | _⟩ := clause <;> rfl

/-- The length of a clause does not depend on the addresses of symbols. -/
theorem length_bytes (addressOf addressOf' : List Char → Nat) :
    (clause.bytes addressOf).length = (clause.bytes addressOf').length := by
  obtain ⟨name, ⟨opcode, fields⟩ | _ | _ | _⟩ := clause
  · rw [bytes, bytes, List.length_cons, List.length_cons, Fields.length_bytes, Fields.length_bytes]
  · rfl
  · rfl
  · rfl

/-- The field that a clause leaves open lies inside its operands. -/
theorem encloses_statement : (clause.statement number start).Encloses := by
  obtain ⟨name, ⟨opcode, fields⟩ | _ | _ | _⟩ := clause
  · unfold statement body Statement.Encloses
    dsimp only
    rcases fields.split with hclosed | ⟨front, field, back, width, hlist, hfield, hfront, hback⟩
    · rw [(Fields.kept_of_closed hclosed).1]
      trivial
    · obtain ⟨reference, hreference, -, -, hinside, -⟩ :=
        Fields.kept_of_open hlist hfield hfront hback
      rw [hreference]
      exact hinside
  · trivial
  · trivial
  · trivial

/-- A statement resolves when all symbols have addresses that its clause refers to. -/
theorem resolves_statement_iff (symbols : SymbolTable) :
    (clause.statement number start).Resolves symbols ↔
      ∀ field ∈ clause.openFields, (symbols.address? field.word.chars).isSome := by
  obtain ⟨name, ⟨opcode, fields⟩ | _ | _ | _⟩ := clause
  · unfold Statement.Resolves openFields
    change (∀ reference, fields.kept.reference? = some reference → _) ↔ _
    rcases fields.split with hclosed | ⟨front, field, back, width, hlist, hfield, hfront, hback⟩
    · rw [(Fields.kept_of_closed hclosed).1]
      simp [Fields.opened_of_closed hclosed]
    · obtain ⟨reference, hreference, hsymbol, -, -, -⟩ :=
        Fields.kept_of_open hlist hfield hfront hback
      rw [hreference]
      simp [Fields.opened_of_open hlist hfield hfront hback, hsymbol]
  · simp [Statement.Resolves, Statement.reference?, statement, body, openFields]
  · simp [Statement.Resolves, Statement.reference?, statement, body, openFields]
  · simp [Statement.Resolves, Statement.reference?, statement, body, openFields]

variable {number start clause}

/-- The constants of a clause are in the pool where its statement says. -/
def HeldBy (clause : Clause) (pool : Array UInt8) (start : Nat) : Prop :=
  start + clause.constants.length ≤ pool.size ∧
    (pool.extract start (start + clause.constants.length)).toList = clause.constants

/-- Where the pool holds the constants of a clause, those of its statement are in the pool. -/
theorem inPool_statement {pool : Array UInt8} (h : clause.HeldBy pool start) :
    (clause.statement number start).InPool pool := by
  obtain ⟨name, _ | _ | _ | _⟩ := clause
  · trivial
  · trivial
  · exact h.1
  · trivial

/-- A statement is drafted as its clause would be if all symbols were at address zero. -/
theorem draft_statement {pool : Array UInt8} (h : clause.HeldBy pool start) :
    (clause.statement number start).draft pool = clause.bytes fun _ => 0 := by
  obtain ⟨name, ⟨opcode, fields⟩ | _ | ⟨width, constants⟩ | _⟩ := clause
  · exact congrArg (opcode.byte :: ·) fields.bytes_kept
  · rfl
  · exact h.2
  · rfl

/-- A statement has the bytes of its clause. -/
theorem bytes_statement {pool : Array UInt8} (symbols : SymbolTable)
    (h : clause.HeldBy pool start) :
    (clause.statement number start).bytes symbols pool = clause.bytes symbols.addressOf := by
  obtain ⟨name, ⟨opcode, fields⟩ | _ | ⟨width, constants⟩ | _⟩ := clause
  · unfold statement body Statement.bytes bytes
    dsimp only
    rcases fields.split with hclosed | ⟨front, field, back, width, hlist, hfield, hfront, hback⟩
    · obtain ⟨hnone, hbytes⟩ := Fields.kept_of_closed hclosed
      rw [hnone, hbytes]
      rfl
    · obtain ⟨reference, hreference, hsymbol, -, -, hbytes⟩ :=
        Fields.kept_of_open hlist hfield hfront hback
      rw [hreference, hbytes, ← hsymbol]
  · rfl
  · exact h.2
  · rfl

end

end Clause

end RegisterMachine.Assembly
