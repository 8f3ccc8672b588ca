import RegisterMachine.Text.Utf8

/-!
# Names

The names an assembler stores, of mnemonics, operands and symbols, take at most 32 bytes in UTF-8.
Symbols keep the mark they are written with: `.` for a place in the code, `$` for data.
-/

namespace RegisterMachine.Assembly

/-- The most bytes that a name may take in UTF-8. -/
def Name.capacity : Nat := 32

/-- A text of at most 32 bytes. -/
structure Name where
  chars : List Char
  /-- The name is short enough to be stored. -/
  short : Text.utf8Length chars ≤ Name.capacity
  deriving DecidableEq

namespace Name

/-- The name with the given characters, if it is short enough. -/
def ofChars? (chars : List Char) : Option Name :=
  if h : Text.utf8Length chars ≤ capacity then some ⟨chars, h⟩ else none

/-- The text of a name. -/
def toString (name : Name) : String :=
  String.ofList name.chars

/-- A name is shown as its text. -/
instance : ToString Name := ⟨toString⟩

/-- A name is its characters. -/
theorem chars_injective {a b : Name} (h : a.chars = b.chars) : a = b := by
  obtain ⟨chars, short⟩ := a
  obtain ⟨chars', short'⟩ := b
  cases h
  rfl

/-- A text becomes a name of the same characters, if it becomes one. -/
theorem ofChars?_eq_some_iff {chars : List Char} {name : Name} :
    ofChars? chars = some name ↔ name.chars = chars := by
  unfold ofChars?
  split
  · rw [Option.some.injEq]
    constructor
    · rintro rfl
      rfl
    · rintro rfl
      rfl
  · rename_i h
    simp only [reduceCtorEq, false_iff]
    rintro rfl
    exact h name.short

end Name

end RegisterMachine.Assembly
