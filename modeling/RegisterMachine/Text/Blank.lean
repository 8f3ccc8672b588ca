/-!
# Blank characters

The characters that separate words are those with the Unicode property `White_Space`: 25 code
points in ten ranges (`blankRanges`). `trim` removes them from both ends of a text, and
`firstWord` splits a text after its first word.
-/

namespace RegisterMachine.Text

/-- The code points with the property `White_Space`, as closed ranges in ascending order. -/
def blankRanges : List (Nat × Nat) :=
  [(0x0009, 0x000D), (0x0020, 0x0020), (0x0085, 0x0085), (0x00A0, 0x00A0), (0x1680, 0x1680),
    (0x2000, 0x200A), (0x2028, 0x2029), (0x202F, 0x202F), (0x205F, 0x205F), (0x3000, 0x3000)]

/-- A character is blank when it has the property `White_Space`. -/
def isBlank (c : Char) : Bool :=
  blankRanges.any fun range => range.1 ≤ c.toNat && c.toNat ≤ range.2

/-- The table lists 25 code points. -/
example : (blankRanges.map fun range => range.2 - range.1 + 1).sum = 25 := by decide

/-- Drops the blanks at the start of a text. -/
def trimStart (cs : List Char) : List Char :=
  cs.dropWhile isBlank

/-- Drops the blanks at both ends of a text. -/
def trim (cs : List Char) : List Char :=
  (trimStart (trimStart cs).reverse).reverse

/-- The characters up to the first blank, and what follows them without blanks at its ends. -/
def firstWord (cs : List Char) : List Char × List Char :=
  (cs.takeWhile fun c => !isBlank c, trim (cs.dropWhile fun c => !isBlank c))

end RegisterMachine.Text
