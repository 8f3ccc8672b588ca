/-!
# UTF-8 bytes of a text

Text is handled as characters. Its bytes matter in two places: names are limited by their length in
bytes, and quoted constants are emitted as bytes.
-/

namespace RegisterMachine.Text

/-- The UTF-8 bytes of a text. -/
def utf8Bytes (cs : List Char) : List UInt8 :=
  cs.flatMap String.utf8EncodeChar

/-- How many bytes a text takes in UTF-8. -/
def utf8Length (cs : List Char) : Nat :=
  (utf8Bytes cs).length

/-- A character takes as many bytes as the standard library counts for it. -/
theorem utf8Length_cons (c : Char) (cs : List Char) :
    utf8Length (c :: cs) = c.utf8Size + utf8Length cs := by
  simp [utf8Length, utf8Bytes, String.length_utf8EncodeChar]

/-- Characters of one byte take as many bytes as there are of them. -/
theorem utf8Length_replicate (n : Nat) {c : Char} (hsize : c.utf8Size = 1) :
    utf8Length (List.replicate n c) = n := by
  induction n with
  | zero => rfl
  | succ n ih => rw [List.replicate_succ, utf8Length_cons, hsize, ih, Nat.add_comm]

end RegisterMachine.Text
