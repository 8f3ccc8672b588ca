import RegisterMachine.Text.Blank

/-!
# Lines and fields

A source is cut into lines at line feeds, and the operands of a line into fields at commas and
blanks. A final line feed opens no further line, and runs of separators count as one.
-/

namespace RegisterMachine.Text

/-- The lines of a text: a line feed ends a line, so one at the very end opens no line after it. -/
def lines (cs : List Char) : List (List Char) :=
  let pieces := cs.splitOn '\n'
  if pieces.getLast? = some [] then pieces.dropLast else pieces

/-- Commas and blanks stand between fields. -/
def isSeparator (c : Char) : Bool :=
  c == ',' || isBlank c

/-- The maximal runs of characters that are no separators. -/
def fields (cs : List Char) : List (List Char) :=
  (cs.splitOnP isSeparator).filter fun piece => !piece.isEmpty

end RegisterMachine.Text
