import RegisterMachine.Assembly.Error
import RegisterMachine.Bytes.LittleEndian
import RegisterMachine.Text.Numeral

/-!
# Fields

A field of the image is a byte, a half word or a word. It takes signed and unsigned values alike:
with `m` values to tell apart, those from `-(m / 2)` to `m - 1`. A value is stored modulo `m` in
little-endian order.
-/

namespace RegisterMachine.Assembly

/-- The sizes of a field. -/
inductive Width where
  | byte
  | half
  | word
  deriving DecidableEq, Repr

namespace Width

/-- The bytes of a field. -/
def bytes : Width → Nat
  | byte => 1
  | half => 2
  | word => 4

/-- The bits of a field. -/
def bits (width : Width) : Nat :=
  8 * width.bytes

/-- How many values a field tells apart. -/
def modulus (width : Width) : Nat :=
  LittleEndian.modulus width.bytes

/-- The least value of a field. -/
def minimum (width : Width) : Int :=
  -(width.modulus / 2 : Nat)

/-- The greatest value of a field. -/
def maximum (width : Width) : Int :=
  width.modulus - 1

example : (byte.minimum, byte.maximum) = (-0x80, 0xFF) := by decide
example : (half.minimum, half.maximum) = (-0x8000, 0xFFFF) := by decide
example : (word.minimum, word.maximum) = (-0x80000000, 0xFFFFFFFF) := by decide

/-- The width with a number of bits, written in decimal. -/
def ofBits? : List Char → Option Width
  | ['8'] => some byte
  | ['1', '6'] => some half
  | ['3', '2'] => some word
  | _ => none

/-- The bytes of a field that holds an address, or nothing yet. -/
def encodeNat (width : Width) (value : Nat) : List UInt8 :=
  LittleEndian.toBytes width.bytes value

/-- The bytes of a field that holds an integer in its range. -/
def encode (width : Width) (value : Int) : Except Cause (List UInt8) :=
  if value > width.maximum then .error (.integerTooHigh value)
  else if value < width.minimum then .error (.integerTooLow value)
  else .ok (width.encodeNat (value % width.modulus).toNat)

/-- The bytes of a field that holds the integer a literal denotes. -/
def encodeLiteral (width : Width) (literal : List Char) : Except Cause (List UInt8) :=
  match Text.integer? literal with
  | some value => width.encode value
  | none => .error .invalidNumber

/-- A number takes up the bytes of its width. -/
@[simp] theorem length_encodeNat (width : Width) (value : Nat) :
    (width.encodeNat value).length = width.bytes :=
  LittleEndian.length_toBytes _ _

/-- A field takes exactly the values of its range. -/
theorem encode_eq_ok_iff {width : Width} {value : Int} {bytes : List UInt8} :
    width.encode value = .ok bytes ↔
      width.minimum ≤ value ∧ value ≤ width.maximum ∧
        bytes = width.encodeNat (value % width.modulus).toNat := by
  unfold encode
  split
  · simp
    omega
  · split
    · simp
      omega
    · rw [Except.ok.injEq]
      constructor
      · rintro rfl
        exact ⟨by omega, by omega, rfl⟩
      · rintro ⟨_, _, rfl⟩
        rfl

/-- A literal is taken when it denotes an integer in the range of the field. -/
theorem encodeLiteral_eq_ok_iff {width : Width} {literal : List Char} {bytes : List UInt8} :
    width.encodeLiteral literal = .ok bytes ↔
      ∃ value, Text.integer? literal = some value ∧ width.encode value = .ok bytes := by
  unfold encodeLiteral
  split
  · rename_i value h
    simp [h]
  · rename_i h
    simp [h]

/-- What a field takes has the bytes of the field. -/
theorem length_of_encode {width : Width} {value : Int} {bytes : List UInt8}
    (h : width.encode value = .ok bytes) : bytes.length = width.bytes := by
  obtain ⟨-, -, rfl⟩ := encode_eq_ok_iff.mp h
  exact length_encodeNat ..

end Width

end RegisterMachine.Assembly
