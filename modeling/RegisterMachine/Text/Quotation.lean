/-!
# Quoted text

A double quote opens quoted text and the next one closes it; a quote that is never closed reaches
to the end. A separator inside quotes is an ordinary character. `marked` tells for every character
whether it stands inside quotes, and both users of quotes read it: `withoutComment` cuts a line at
its first free semicolon, and `items` splits a list at its free commas. `unquote?` takes the text
out of a quoted item.
-/

namespace RegisterMachine.Text

/-- Whether the text after `c` is quoted, when the text before it is quoted or not. -/
def toggle (quoted : Bool) (c : Char) : Bool :=
  quoted != (c == '"')

/-- Each character with whether it stands inside quotes, in a text that starts inside quotes or
not. -/
def marked (quoted : Bool) (cs : List Char) : List (Char × Bool) :=
  cs.zip (cs.scanl toggle quoted)

/-- The first character is quoted as the text is, and it decides for those after it. -/
@[simp] theorem marked_cons (quoted : Bool) (c : Char) (cs : List Char) :
    marked quoted (c :: cs) = (c, quoted) :: marked (toggle quoted c) cs := by
  simp [marked, List.scanl_cons]

/-- Marking keeps the characters and their order. -/
@[simp] theorem map_fst_marked (quoted : Bool) (cs : List Char) :
    (marked quoted cs).map Prod.fst = cs := by
  induction cs generalizing quoted with
  | nil => rfl
  | cons c cs ih => simp [ih]

/-- A marked character is a free `separator` when it is that character and stands outside quotes. -/
def isFree (separator : Char) (entry : Char × Bool) : Bool :=
  entry.1 == separator && !entry.2

/-- The line up to its first semicolon outside quotes. -/
def withoutComment (line : List Char) : List Char :=
  ((marked false line).takeWhile fun entry => !isFree ';' entry).map Prod.fst

/-- The pieces between commas outside quotes; there is always at least one. -/
def items (cs : List Char) : List (List Char) :=
  ((marked false cs).splitOnP (isFree ',')).map fun piece => piece.map Prod.fst

/-- The text between a quote at the start and another quote at the end. -/
def unquote? : List Char → Option (List Char)
  | '"' :: rest => if rest.getLast? = some '"' then some rest.dropLast else none
  | _ => none

end RegisterMachine.Text
