import RegisterMachine.Bytes.LittleEndian
import RegisterMachine.Bytes.Overwrite
import RegisterMachine.Fault

/-!
# Memory regions

The address space has `2 ^ 16` addresses. A region is a run of bytes placed at a base address and
ending inside the address space, which its type records (`Region.fits`). Instructions reach the
bytes by their offset in the region, the host also by absolute address (`offset?`).

A word takes four bytes in little-endian order. It can be read (`word?`) and written (`writeWord?`)
at exactly the offsets where `holdsWord` says that all four bytes are there. The guard of the
machine asks the same as a calculation with words, which could pass the last one (`fitsWord`).
-/

namespace RegisterMachine

/-- The number of addresses. -/
def addressSpace : Nat := 0x10000

/-- The bytes of a word. -/
def wordBytes : Nat := 4

/-- The sum of two words, if it is a word. -/
def addWords? (a b : UInt32) : Option UInt32 :=
  if a.toNat + b.toNat < UInt32.size then some (a + b) else none

/-- Bytes placed in the address space. -/
structure Region where
  /-- The address of the first byte. -/
  base : UInt16
  bytes : Array UInt8
  /-- The last byte has an address. -/
  fits : base.toNat + bytes.size ≤ addressSpace

namespace Region

/-- Places bytes at a base address; a region that would leave the address space is a fault. -/
def place (base : UInt16) (bytes : Array UInt8) : Except Fault Region :=
  if h : base.toNat + bytes.size ≤ addressSpace then .ok ⟨base, bytes, h⟩
  else .error (.invalidAddress base.toUInt32)

/-- The number of bytes in a region. -/
def size (region : Region) : Nat :=
  region.bytes.size

/-- The offset in a region of an absolute address, if the region covers it. -/
def offset? (region : Region) (address : UInt16) : Option UInt16 :=
  if region.base ≤ address ∧ (address - region.base).toNat < region.size then
    some (address - region.base)
  else none

/-- The bytes from an offset to the end. -/
def drop (region : Region) (offset : Nat) : List UInt8 :=
  (region.bytes.extract offset region.size).toList

/-- Whether a word at this offset lies inside the region. -/
def holdsWord (region : Region) (offset : Nat) : Bool :=
  offset + wordBytes ≤ region.size

/-- The number of bytes as a word. -/
def sizeWord (region : Region) : UInt32 :=
  UInt32.ofNat region.size

/-- Whether a word at this offset lies inside the region, calculated with words: its end is compared
with the size, and a word whose end is past the last word does not fit. -/
def fitsWord (region : Region) (offset : UInt32) : Bool :=
  (addWords? offset (UInt32.ofNat wordBytes)).any (· ≤ region.sizeWord)

/-- The byte at an offset. -/
def byte? (region : Region) (offset : Nat) : Option UInt8 :=
  region.bytes[offset]?

/-- The word at an offset, if all its bytes are there. -/
def word? (region : Region) (offset : Nat) : Option UInt32 := do
  let b0 ← region.byte? offset
  let b1 ← region.byte? (offset + 1)
  let b2 ← region.byte? (offset + 2)
  let b3 ← region.byte? (offset + 3)
  return UInt32.ofNat (LittleEndian.ofBytes [b0, b1, b2, b3])

/-- Lays bytes over the region from an offset on; what would pass the end is dropped. -/
def overwrite (region : Region) (offset : Nat) (bytes : List UInt8) : Region :=
  ⟨region.base, Bytes.overwrite region.bytes offset bytes, by simpa using region.fits⟩

/-- Writes a word at an offset; a word that is not all there is dropped. -/
def writeWord (region : Region) (offset : Nat) (value : UInt32) : Region :=
  if region.holdsWord offset then
    region.overwrite offset (LittleEndian.toBytes wordBytes value.toNat)
  else region

/-- Writes a word at an offset, if all its bytes are there. -/
def writeWord? (region : Region) (offset : Nat) (value : UInt32) : Option Region :=
  if region.holdsWord offset then some (region.writeWord offset value) else none

/-- The region with all its bytes zero. -/
def clear (region : Region) : Region :=
  ⟨region.base, Array.replicate region.size 0, by simpa [size] using region.fits⟩

/-- A region that has been placed has its base and its bytes as given. -/
theorem place_eq_ok_iff {base : UInt16} {bytes : Array UInt8} {region : Region} :
    place base bytes = .ok region ↔ region.base = base ∧ region.bytes = bytes := by
  unfold place
  split
  · constructor
    · rintro ⟨⟩
      exact ⟨rfl, rfl⟩
    · rintro ⟨rfl, rfl⟩
      rfl
  · rename_i h
    simp only [reduceCtorEq, false_iff]
    rintro ⟨rfl, rfl⟩
    exact h region.fits

/-- A region has no more bytes than there are addresses. -/
theorem size_le (region : Region) : region.size ≤ addressSpace := by
  have := region.fits
  simp only [size]
  omega

/-- No region has more bytes than a word can count. -/
theorem toNat_sizeWord (region : Region) : region.sizeWord.toNat = region.size := by
  have hsize : region.size ≤ 0x10000 := region.size_le
  refine UInt32.toNat_ofNat_of_lt' ?_
  change _ < 0x100000000
  omega

/-- A region holds a word where the last byte of it is inside. -/
theorem holdsWord_eq_true_iff {region : Region} {offset : Nat} :
    region.holdsWord offset = true ↔ offset + wordBytes ≤ region.size :=
  decide_eq_true_iff

/-- To calculate with words gives the same as to calculate with numbers of any size. -/
theorem fitsWord_eq_holdsWord (region : Region) (offset : UInt32) :
    region.fitsWord offset = region.holdsWord offset.toNat := by
  have hsize : region.size ≤ 0x10000 := region.size_le
  rw [Bool.eq_iff_iff, holdsWord_eq_true_iff]
  unfold fitsWord addWords?
  by_cases h : offset.toNat + (UInt32.ofNat wordBytes).toNat < UInt32.size
  · have hend : (offset + UInt32.ofNat wordBytes).toNat = offset.toNat + wordBytes := by
      rw [UInt32.toNat_add]
      exact Nat.mod_eq_of_lt h
    rw [if_pos h, Option.any_some, decide_eq_true_iff, UInt32.le_iff_toNat_le, hend,
      toNat_sizeWord]
  · -- A word that would end past the last word is far outside the region.
    have hpast : ¬ offset.toNat + wordBytes < 0x100000000 := h
    rw [if_neg h, Option.any_none]
    exact iff_of_false Bool.false_ne_true (by omega)

/-- Laying bytes over a region keeps its size. -/
@[simp] theorem size_overwrite (region : Region) (offset : Nat) (bytes : List UInt8) :
    (region.overwrite offset bytes).size = region.size := by
  simp [overwrite, size]

/-- Writing a word keeps the size. -/
@[simp] theorem size_writeWord (region : Region) (offset : Nat) (value : UInt32) :
    (region.writeWord offset value).size = region.size := by
  unfold writeWord
  split <;> simp

/-- Clearing keeps the size. -/
@[simp] theorem size_clear (region : Region) : region.clear.size = region.size := by
  simp [clear, size]

/-- There is a byte at every offset below the size. -/
theorem byte?_isSome_iff {region : Region} {offset : Nat} :
    (region.byte? offset).isSome ↔ offset < region.size := by
  simp [byte?, size]

/-- A word can be read where the region holds one. -/
theorem word?_isSome_iff {region : Region} {offset : Nat} :
    (region.word? offset).isSome ↔ region.holdsWord offset = true := by
  simp only [word?, byte?, holdsWord, wordBytes, size]
  by_cases h : offset + 4 ≤ region.bytes.size
  · simp [h, show offset < region.bytes.size by omega, show offset + 1 < region.bytes.size by omega,
      show offset + 2 < region.bytes.size by omega, show offset + 3 < region.bytes.size by omega]
  · have : region.bytes[offset + 3]? = none := by simp; omega
    simp only [this, h]
    cases region.bytes[offset]? <;> cases region.bytes[offset + 1]? <;>
      cases region.bytes[offset + 2]? <;> simp

/-- A word can be written where the region holds one. -/
theorem writeWord?_isSome_iff {region : Region} {offset : Nat} {value : UInt32} :
    (region.writeWord? offset value).isSome ↔ region.holdsWord offset = true := by
  simp [writeWord?]

end Region

/-- Where an absolute address leads. -/
inductive Location where
  /-- To an offset in ROM. -/
  | rom (offset : UInt16)
  /-- To an offset in RAM. -/
  | ram (offset : UInt16)
  /-- To neither. -/
  | unmapped
  deriving DecidableEq, Repr

end RegisterMachine
