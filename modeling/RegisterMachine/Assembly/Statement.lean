import RegisterMachine.Assembly.Width
import RegisterMachine.Isa.Opcode

/-!
# Statements and symbols

A source line that is not blank becomes a statement: an instruction with its operands encoded, a
label, constants to emit, or RAM to reserve. Where an operand is a symbol its bytes are zero, and a
`Reference` tells where the address goes once it is known. Labels and data define symbols, which
the symbol table holds in the order of their definition.
-/

namespace RegisterMachine.Assembly

/-- A field of an instruction that takes the address of a symbol. -/
structure Reference where
  symbol : Name
  /-- Where the field starts, counted from the first operand byte. -/
  offset : Nat
  width : Width
  deriving DecidableEq

/-- What a source line says. -/
inductive Body where
  /-- An instruction: its operands as written and as encoded, and the field left open. -/
  | operation (opcode : Opcode) (args : List Name) (operands : List UInt8)
      (reference? : Option Reference)
  /-- A label. -/
  | label
  /-- Constants to emit: the stretch of the pool that holds their bytes. -/
  | constants (width : Width) (start length : Nat)
  /-- RAM to reserve for a number of elements. -/
  | reservation (width : Width) (count : UInt16)
  deriving DecidableEq

/-- A source line that is not blank. -/
structure Statement where
  /-- The number of the line, counted from one. -/
  line : Nat
  /-- The mnemonic as written, or the symbol that the line defines. -/
  name : Name
  body : Body
  /-- The address of the statement in the image, zero until the image is laid out. -/
  address : UInt16
  deriving DecidableEq

/-- A symbol with its address, zero until the image is laid out. -/
structure Symbol where
  name : Name
  address : UInt16
  deriving DecidableEq

/-- The symbols in the order of their definition. -/
structure SymbolTable where
  entries : List Symbol
  deriving DecidableEq

namespace SymbolTable

/-- The table without symbols. -/
def empty : SymbolTable := ⟨[]⟩

/-- Whether a symbol is defined. -/
def defines (table : SymbolTable) (name : Name) : Bool :=
  table.entries.any fun symbol => symbol.name == name

/-- The table with a further symbol at the end. -/
def add (table : SymbolTable) (name : Name) : SymbolTable :=
  ⟨table.entries ++ [⟨name, 0⟩]⟩

/-- The table with a new address for a symbol. -/
def assign (table : SymbolTable) (name : Name) (address : UInt16) : SymbolTable :=
  ⟨table.entries.map fun symbol =>
    if symbol.name = name then { symbol with address } else symbol⟩

/-- The address of the symbol with a given name. -/
def address? (table : SymbolTable) (name : List Char) : Option UInt16 :=
  (table.entries.find? fun symbol => symbol.name.chars == name).map Symbol.address

/-- Assigning addresses defines no symbols and keeps their order. -/
@[simp] theorem map_name_assign (table : SymbolTable) (name : Name) (address : UInt16) :
    (table.assign name address).entries.map Symbol.name = table.entries.map Symbol.name := by
  simp only [assign, List.map_map]
  apply List.map_congr_left
  intro symbol _
  simp only [Function.comp_apply]
  split <;> rfl

/-- A table has an address for exactly the symbols it lists. -/
theorem address?_isSome_iff {table : SymbolTable} {name : Name} :
    (table.address? name.chars).isSome ↔ name ∈ table.entries.map Symbol.name := by
  unfold address?
  rw [Option.isSome_map, List.find?_isSome, List.mem_map]
  constructor
  · rintro ⟨symbol, hmem, hname⟩
    exact ⟨symbol, hmem, Name.chars_injective (beq_iff_eq.mp hname)⟩
  · rintro ⟨symbol, hmem, rfl⟩
    exact ⟨symbol, hmem, beq_self_eq_true _⟩

/-- A new address for a symbol shows under its own name only, and only if the table lists it. -/
theorem address?_assign (table : SymbolTable) (name : Name) (address : UInt16)
    (chars : List Char) :
    (table.assign name address).address? chars =
      if name.chars = chars then (table.address? chars).map fun _ => address
      else table.address? chars := by
  have hkeep : ((fun symbol : Symbol => symbol.name.chars == chars) ∘ fun symbol =>
      if symbol.name = name then { symbol with address } else symbol) =
      fun symbol => symbol.name.chars == chars := by
    funext symbol
    rw [Function.comp_apply]
    split <;> rfl
  simp only [address?, assign, List.find?_map, hkeep, Option.map_map]
  cases hfind : table.entries.find? fun symbol => symbol.name.chars == chars with
  | none => split <;> rfl
  | some symbol =>
    have hchars : symbol.name.chars = chars := by simpa using List.find?_some hfind
    subst hchars
    by_cases hname : symbol.name = name
    · subst hname
      simp
    · have hne : name.chars ≠ symbol.name.chars := fun h => hname (Name.chars_injective h.symm)
      simp [hname, hne]

end SymbolTable

end RegisterMachine.Assembly
