import Mathlib.Algebra.GroupWithZero.Nat
import Mathlib.Algebra.Ring.Int.Defs
import RegisterMachine.Isa.Alu

/-!
# What the operations compute

The operations on words are related here to the integers (`Alu.Denotes`). Sums, differences,
products and left shifts are those of integers, brought back to 32 bits. Quotients and right shifts
are rounded down. The shifts take the second operand as it stands, without a bound: a shift to the
left multiplies by a power of two, one to the right divides by it, and the arithmetic one divides
the number that the first operand stands for in two's complement (`signed`).

The result of an operation is what it denotes (`Alu.denotes_of_eval?`). An arithmetic shift by 31 or
more leaves nothing but the sign (`Alu.Denotes.saturates`).
-/

namespace RegisterMachine

/-- The number that 32 bits stand for in two's complement. -/
def signed (bits : Nat) : Int :=
  if bits < 2 ^ 31 then bits else (bits : Int) - 2 ^ 32

/-- The bits of a value are those of two others, combined one by one. -/
def Bitwise (combine : Bool → Bool → Bool) (x y value : Nat) : Prop :=
  ∀ i, value.testBit i = combine (x.testBit i) (y.testBit i)

/-- The value has the 32 bits of a number inverted. -/
def Inverts (x value : Nat) : Prop :=
  ∀ i, value.testBit i = (decide (i < 32) && !x.testBit i)

/-- The value is what an operation makes of two numbers below `2 ^ 32`. -/
def Alu.Denotes : Alu → Nat → Nat → Nat → Prop
  | add, x, y, value => value = (x + y) % 2 ^ 32
  | sub, x, y, value => (value : Int) = ((x : Int) - y) % 2 ^ 32
  | mul, x, y, value => value = x * y % 2 ^ 32
  | div, x, y, value => y ≠ 0 ∧ value = x / y
  | shl, x, y, value => value = x * 2 ^ y % 2 ^ 32
  | shr, x, y, value => value = x / 2 ^ y
  | ishr, x, y, value => (value : Int) = (signed x).fdiv (2 ^ y) % 2 ^ 32
  | and, x, y, value => Bitwise (· && ·) x y value
  | or, x, y, value => Bitwise (· || ·) x y value
  | xor, x, y, value => Bitwise (· ^^ ·) x y value

/-! ## Two's complement -/

/-- A word in two's complement is less than `2 ^ 31` away from zero, or at `-2 ^ 31`. -/
theorem signed_bounds {bits : Nat} (h : bits < 2 ^ 32) :
    -2 ^ 31 ≤ signed bits ∧ signed bits < 2 ^ 31 := by
  unfold signed
  split <;> omega

/-- A word in two's complement is the word itself, up to the modulus. -/
theorem signed_emod {bits : Nat} (h : bits < 2 ^ 32) : signed bits % 2 ^ 32 = bits := by
  unfold signed
  split <;> omega

/-- The signed value of the bits of a word is what they stand for in two's complement. -/
theorem toInt_toBitVec (x : UInt32) : x.toBitVec.toInt = signed x.toNat := by
  rw [BitVec.toInt_eq_toNat_cond, UInt32.toNat_toBitVec]
  unfold signed
  split <;> split <;> omega

namespace Alu

/-! ## Shifts -/

variable (x y : UInt32)

/-- A left shift multiplies by a power of two, also where it shifts out all bits. -/
theorem toNat_shl :
    (if y < 32 then x <<< y else 0).toNat = x.toNat * 2 ^ y.toNat % 2 ^ 32 := by
  by_cases h : y < 32
  · have hy : y.toNat < 32 := UInt32.lt_iff_toNat_lt.mp h
    rw [if_pos h, UInt32.toNat_shiftLeft, Nat.mod_eq_of_lt hy, Nat.shiftLeft_eq]
  · -- All bits are shifted out, and the product is a multiple of the modulus.
    have hy : 32 ≤ y.toNat := Nat.le_of_not_lt fun hlt => h (UInt32.lt_iff_toNat_lt.mpr hlt)
    have hdvd : 2 ^ 32 ∣ x.toNat * 2 ^ y.toNat :=
      Nat.dvd_mul_left_of_dvd (Nat.pow_dvd_pow 2 hy) x.toNat
    rw [if_neg h, Nat.mod_eq_zero_of_dvd hdvd]
    rfl

/-- A right shift divides by a power of two, also where it shifts out all bits. -/
theorem toNat_shr : (if y < 32 then x >>> y else 0).toNat = x.toNat / 2 ^ y.toNat := by
  by_cases h : y < 32
  · have hy : y.toNat < 32 := UInt32.lt_iff_toNat_lt.mp h
    rw [if_pos h, UInt32.toNat_shiftRight, Nat.mod_eq_of_lt hy, Nat.shiftRight_eq_div_pow]
  · -- The divisor is greater than any word.
    have hy : 32 ≤ y.toNat := Nat.le_of_not_lt fun hlt => h (UInt32.lt_iff_toNat_lt.mpr hlt)
    have hlt : x.toNat < 2 ^ y.toNat :=
      Nat.lt_of_lt_of_le x.toNat_lt (Nat.pow_le_pow_right (by decide) hy)
    rw [if_neg h, Nat.div_eq_of_lt hlt]
    rfl

/-- A shift of a signed word by a count below 32 is one of its bits. -/
theorem toBitVec_shiftRight (word : Int32) {count : UInt32} (h : count.toNat < 32) :
    (word >>> count.toInt32).toBitVec = word.toBitVec.sshiftRight count.toNat := by
  -- The count is not negative, so it is its own remainder by the width.
  have hmsb : count.toBitVec.msb = false := by
    rw [BitVec.msb_eq_false_iff_two_mul_lt, UInt32.toNat_toBitVec]
    omega
  have hcount : (count.toBitVec.smod 32).toNat = count.toNat := by
    have hwidth : (32 : BitVec 32).msb = false := rfl
    rw [BitVec.toNat_smod, hmsb, hwidth]
    exact Nat.mod_eq_of_lt h
  change word.toBitVec.sshiftRight' (count.toBitVec.smod 32) = _
  rw [BitVec.sshiftRight_eq', hcount]

/-- A shift by 32 or more leaves nothing but copies of the sign bit. -/
theorem sshiftRight_of_le (bits : BitVec 32) {n : Nat} (h : 32 ≤ n) :
    bits.sshiftRight n = if bits.toInt < 0 then BitVec.allOnes 32 else 0#32 := by
  ext i hi
  -- Every bit comes from beyond the width, where there is only the sign.
  rw [BitVec.getElem_sshiftRight, dif_neg (by omega), BitVec.msb_eq_toInt]
  split
  · rename_i hnegative
    rw [decide_eq_true hnegative, BitVec.getElem_allOnes]
  · rename_i hpositive
    rw [decide_eq_false hpositive, BitVec.getElem_zero]

/-- The second operand is a count below 32 when it is below 32 as it stands. From `2 ^ 31` on it is
negative as a signed word. -/
theorem bind_shiftSigned? (word : Int32) :
    (count? y.toInt32).bind (shiftSigned? word) =
      if y < 32 then some (word >>> y.toInt32) else none := by
  unfold count? shiftSigned?
  by_cases h : y < 32
  · have hpositive : 0 ≤ y.toInt32 := by
      have hlt : y.toNat < 32 := UInt32.lt_iff_toNat_lt.mp h
      rw [Int32.le_iff_toInt_le]
      change 0 ≤ y.toBitVec.toInt
      rw [toInt_toBitVec, signed, if_pos (by omega)]
      omega
    rw [if_pos hpositive, if_pos h]
    exact if_pos h
  · -- Whether it is negative or too large, there is no shift.
    rw [if_neg h]
    split
    · exact if_neg h
    · rfl

/-- An arithmetic shift is one of the bits, by the second operand as it stands. -/
theorem toBitVec_arithmeticShift :
    (arithmeticShift x y).toBitVec = x.toBitVec.sshiftRight y.toNat := by
  unfold arithmeticShift
  dsimp only
  rw [bind_shiftSigned?]
  by_cases h : y < 32
  · rw [if_pos h]
    exact toBitVec_shiftRight x.toInt32 (UInt32.lt_iff_toNat_lt.mp h)
  · have hfar : 32 ≤ y.toNat := Nat.le_of_not_lt fun hlt => h (UInt32.lt_iff_toNat_lt.mpr hlt)
    have hsign : x.toInt32 < 0 ↔ x.toBitVec.toInt < 0 := Int32.lt_iff_toInt_lt
    rw [if_neg h, Option.getD_none, sshiftRight_of_le _ hfar]
    simp only [hsign]
    split <;> rfl

/-- An arithmetic shift divides the signed number by a power of two and rounds down. -/
theorem toNat_arithmeticShift :
    ((arithmeticShift x y).toNat : Int) = (signed x.toNat).fdiv (2 ^ y.toNat) % 2 ^ 32 := by
  have hpow : (0 : Int) ≤ 2 ^ y.toNat := Int.pow_nonneg (by decide)
  have hsigned : signed (arithmeticShift x y).toNat = (signed x.toNat).fdiv (2 ^ y.toNat) := by
    rw [← toInt_toBitVec, ← toInt_toBitVec, Int.fdiv_eq_ediv_of_nonneg _ hpow,
      toBitVec_arithmeticShift, BitVec.toInt_sshiftRight, Int.shiftRight_eq_div_pow,
      Int.natCast_pow]
    rfl
  rw [← hsigned, signed_emod (UInt32.toNat_lt _)]

/-- A shift by 31 or more leaves the sign alone, however large it is. -/
theorem Denotes.saturates {x y value : Nat} (h : ishr.Denotes x y value) (hx : x < 2 ^ 32)
    (hy : 31 ≤ y) : value = if x < 2 ^ 31 then 0 else 2 ^ 32 - 1 := by
  have hpow : (2 : Int) ^ 31 ≤ 2 ^ y := by
    exact_mod_cast Nat.pow_le_pow_right (by decide : 0 < 2) hy
  have hvalue : (value : Int) = (signed x).fdiv (2 ^ y) % 2 ^ 32 := h
  obtain ⟨hlow, hhigh⟩ := signed_bounds hx
  rw [Int.fdiv_eq_ediv_of_nonneg _ (by omega)] at hvalue
  split
  · rename_i hpositive
    have hsigned : 0 ≤ signed x := by
      unfold signed
      rw [if_pos hpositive]
      omega
    rw [Int.ediv_eq_zero_of_lt hsigned (by omega)] at hvalue
    omega
  · rename_i hnegative
    have hsigned : signed x < 0 := by
      unfold signed
      rw [if_neg hnegative]
      omega
    -- The quotient is above `-1` and below zero, and it is rounded down.
    have hquotient : signed x / 2 ^ y = -1 := by
      have hadd := Int.add_ediv_of_dvd_right (a := signed x) (Int.dvd_refl (2 ^ y))
      rw [Int.ediv_self (by omega), Int.ediv_eq_zero_of_lt (by omega) (by omega)] at hadd
      omega
    rw [hquotient] at hvalue
    omega

/-! ## All operations -/

variable {x y}

/-- The result of an operation is what it denotes. -/
theorem denotes_of_eval? {op : Alu} {value : UInt32} (h : op.eval? x y = some value) :
    op.Denotes x.toNat y.toNat value.toNat := by
  cases op with
  | add =>
    cases h
    exact UInt32.toNat_add ..
  | sub =>
    cases h
    -- The difference borrows from the modulus.
    have hx := x.toNat_lt
    have hy := y.toNat_lt
    have hsub : (x - y).toNat = (2 ^ 32 - y.toNat + x.toNat) % 2 ^ 32 := UInt32.toNat_sub ..
    unfold Denotes
    omega
  | mul =>
    cases h
    exact UInt32.toNat_mul ..
  | div =>
    -- There is a result, so the divisor is not zero.
    have hy : y ≠ 0 := fun hzero => by
      rw [eval?_eq_none_iff.mpr ⟨rfl, hzero⟩] at h
      cases h
    have hquotient : div.eval? x y = some (x / y) := if_neg hy
    rw [hquotient] at h
    cases h
    exact ⟨fun hzero => hy (UInt32.toNat_inj.mp hzero), UInt32.toNat_div ..⟩
  | shl =>
    cases h
    exact toNat_shl x y
  | shr =>
    cases h
    exact toNat_shr x y
  | ishr =>
    cases h
    exact toNat_arithmeticShift x y
  | and =>
    cases h
    intro i
    rw [UInt32.toNat_and, Nat.testBit_and]
  | or =>
    cases h
    intro i
    rw [UInt32.toNat_or, Nat.testBit_or]
  | xor =>
    cases h
    intro i
    rw [UInt32.toNat_xor, Nat.testBit_xor]

/-- The complement of a word inverts its bits. -/
theorem inverts_complement (x : UInt32) : Inverts x.toNat (~~~x).toNat := by
  intro i
  have hsub : UInt32.size - 1 - x.toNat = 2 ^ 32 - (x.toNat + 1) := by
    unfold UInt32.size
    omega
  rw [UInt32.toNat_not, hsub, Nat.testBit_two_pow_sub_succ x.toNat_lt]

end Alu

end RegisterMachine
