/-!
# Arithmetic and logic

The binary operations on 32-bit words. Sums, differences and products wrap around. A shift by 32 or
more shifts everything out, so that every shift is a multiplication or a division by a power of two.
Division by zero has no result.
-/

namespace RegisterMachine

/-- The binary operations of the machine. -/
inductive Alu where
  | add | sub | mul | div | shl | shr | ishr | and | or | xor
  deriving DecidableEq, Repr

namespace Alu

/-- A signed word as a count, unless it is negative. -/
def count? (word : Int32) : Option UInt32 :=
  if 0 ≤ word then some word.toUInt32 else none

/-- A right shift of a signed word, unless all its bits would be shifted out. -/
def shiftSigned? (word : Int32) (count : UInt32) : Option Int32 :=
  if count < 32 then some (word >>> count.toInt32) else none

/-- A right shift that copies the sign bit. Both operands are read as signed words; where the second
one is not a count below 32, the sign bit is all that is left. -/
def arithmeticShift (x y : UInt32) : UInt32 :=
  let word := x.toInt32
  let saturated : Int32 := if word < 0 then -1 else 0
  let shifted := ((count? y.toInt32).bind (shiftSigned? word)).getD saturated
  shifted.toUInt32

/-- The result of an operation, `none` for a division by zero. -/
def eval? : Alu → UInt32 → UInt32 → Option UInt32
  | add, x, y => some (x + y)
  | sub, x, y => some (x - y)
  | mul, x, y => some (x * y)
  | div, x, y => if y = 0 then none else some (x / y)
  | shl, x, y => some (if y < 32 then x <<< y else 0)
  | shr, x, y => some (if y < 32 then x >>> y else 0)
  | ishr, x, y => some (arithmeticShift x y)
  | and, x, y => some (x &&& y)
  | or, x, y => some (x ||| y)
  | xor, x, y => some (x ^^^ y)

/-- Only a division by zero has no result. -/
theorem eval?_eq_none_iff {op : Alu} {x y : UInt32} :
    op.eval? x y = none ↔ op = div ∧ y = 0 := by
  cases op <;> simp [eval?]

end Alu

end RegisterMachine
