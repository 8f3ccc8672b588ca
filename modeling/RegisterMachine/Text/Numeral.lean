/-!
# Integer literals

A literal is an optional sign followed by digits: hexadecimal after `0x` or `0X`, octal after a
leading `0` that is not the whole literal, decimal otherwise. Its magnitude is at most `2 ^ 63 - 1`.
`magnitude?` reads the digits of one base, and `integer?` reads a whole literal.
-/

namespace RegisterMachine.Text

/-- The value of an ASCII digit, with the letters of either case counting from ten. -/
def digitValue? (c : Char) : Option Nat :=
  if '0' ≤ c ∧ c ≤ '9' then some (c.toNat - '0'.toNat)
  else if 'a' ≤ c ∧ c ≤ 'z' then some (c.toNat - 'a'.toNat + 10)
  else if 'A' ≤ c ∧ c ≤ 'Z' then some (c.toNat - 'A'.toNat + 10)
  else none

/-- Appends a digit to a number written in `base`, if it is a digit of that base. -/
def appendDigit (base value : Nat) (c : Char) : Option Nat :=
  match digitValue? c with
  | some digit => if digit < base then some (value * base + digit) else none
  | none => none

/-- The number that a nonempty run of digits denotes in `base`. -/
def natural? (base : Nat) : List Char → Option Nat
  | [] => none
  | digits => digits.foldlM (appendDigit base) 0

/-- The largest magnitude of a literal. -/
def maxMagnitude : Nat := 0x7FFFFFFFFFFFFFFF

/-- The base of an unsigned literal and the digits after what marks that base. -/
def baseAndDigits : List Char → Nat × List Char
  | '0' :: 'x' :: digits => (16, digits)
  | '0' :: 'X' :: digits => (16, digits)
  | '0' :: c :: digits => (8, c :: digits)
  | digits => (10, digits)

/-- The number that an unsigned literal denotes. -/
def magnitude? (literal : List Char) : Option Nat :=
  let (base, digits) := baseAndDigits literal
  (natural? base digits).filter (· ≤ maxMagnitude)

/-- The integer that a literal denotes, `none` for any other text. -/
def integer? : List Char → Option Int
  | '-' :: literal => (magnitude? literal).map fun m => -(m : Int)
  | '+' :: literal => (magnitude? literal).map Int.ofNat
  | literal => (magnitude? literal).map Int.ofNat

example : integer? "-0x1F".toList = some (-31) := by decide
example : integer? "017".toList = some 15 := by decide
example : integer? "0".toList = some 0 := by decide
example : integer? "08".toList = none := by decide
example : integer? "0x".toList = none := by decide
example : integer? "+-1".toList = none := by decide

end RegisterMachine.Text
