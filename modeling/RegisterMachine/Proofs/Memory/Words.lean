import Mathlib.Data.List.Range
import RegisterMachine.Memory.Region

/-!
# Words of a region

A word is told by its four bytes (`word?_eq_some_iff`), of which it is the little-endian number
(`word?_eq_some_iff_toNat`). A word that has been written is read back (`word?_writeWord_self`), and
a word beside it reads as before (`word?_writeWord_of_disjoint`).

`Region.wordsFrom` lists the words from an offset on, one after the other, as far as they fit. The
list has a first word where the region holds one at the offset, and the words from the offset after
it are the rest (`wordsFrom_eq_cons`).
-/

namespace RegisterMachine

/-- A byte of a word, counted from the least significant one. -/
def byteOf (value : UInt32) (i : Nat) : UInt8 :=
  UInt8.ofNat (value.toNat >>> (8 * i))

/-- Words with the same bytes are the same. -/
theorem eq_of_byteOf_eq {a b : UInt32} (h : ∀ i < wordBytes, byteOf a i = byteOf b i) : a = b := by
  have hbytes : LittleEndian.toBytes wordBytes a.toNat = LittleEndian.toBytes wordBytes b.toNat := by
    apply List.ext_getElem?
    intro i
    rcases Nat.lt_or_ge i wordBytes with hi | hi
    · rw [LittleEndian.getElem?_toBytes hi, LittleEndian.getElem?_toBytes hi]
      exact congrArg some (h i hi)
    · rw [List.getElem?_eq_none (by rwa [LittleEndian.length_toBytes]),
        List.getElem?_eq_none (by rwa [LittleEndian.length_toBytes])]
  have hvalue (value : UInt32) :
      LittleEndian.ofBytes (LittleEndian.toBytes wordBytes value.toNat) = value.toNat := by
    rw [LittleEndian.ofBytes_toBytes]
    exact Nat.mod_eq_of_lt value.toNat_lt
  rw [← UInt32.toNat_inj, ← hvalue a, ← hvalue b, hbytes]

namespace Region

variable {region : Region} {offset : Nat} {value : UInt32}

/-- Writing a word moves no offset into or out of the region. -/
@[simp] theorem holdsWord_writeWord (region : Region) (offset : Nat) (value : UInt32)
    (other : Nat) : (region.writeWord offset value).holdsWord other = region.holdsWord other := by
  unfold holdsWord
  rw [size_writeWord]

/-- The address after a word does not wrap around. -/
theorem toNat_add_four {address : UInt32} (h : region.holdsWord address.toNat = true) :
    (address + 4).toNat = address.toNat + wordBytes := by
  have hholds := holdsWord_eq_true_iff.mp h
  have hsize := region.size_le
  unfold addressSpace at hsize
  unfold wordBytes at hholds ⊢
  rw [UInt32.toNat_add]
  change (_ + 4) % 2 ^ 32 = _
  omega

/-! ## One word -/

/-- Offsets with the same four bytes have the same word. -/
theorem word?_congr {region' : Region} {offset' : Nat}
    (h : ∀ i < wordBytes, region.byte? (offset + i) = region'.byte? (offset' + i)) :
    region.word? offset = region'.word? offset' := by
  have h0 : region.byte? offset = region'.byte? offset' := h 0 (by decide)
  have h1 := h 1 (by decide)
  have h2 := h 2 (by decide)
  have h3 := h 3 (by decide)
  unfold word?
  rw [h0, h1, h2, h3]

/-- A word is the little-endian number of its four bytes. -/
theorem word?_eq_some_iff_toNat :
    region.word? offset = some value ↔ ∃ b0 b1 b2 b3 : UInt8,
      region.byte? offset = some b0 ∧ region.byte? (offset + 1) = some b1 ∧
        region.byte? (offset + 2) = some b2 ∧ region.byte? (offset + 3) = some b3 ∧
        value.toNat =
          b0.toNat + 0x100 * b1.toNat + 0x10000 * b2.toNat + 0x1000000 * b3.toNat := by
  have hword (b0 b1 b2 b3 : UInt8) :
      (UInt32.ofNat (LittleEndian.ofBytes [b0, b1, b2, b3])).toNat =
        b0.toNat + 0x100 * b1.toNat + 0x10000 * b2.toNat + 0x1000000 * b3.toNat := by
    rw [UInt32.toNat_ofNat_of_lt' (LittleEndian.ofBytes_lt [b0, b1, b2, b3]),
      LittleEndian.ofBytes_four]
  unfold word?
  constructor
  · intro h
    obtain ⟨b0, h0, h⟩ := Option.bind_eq_some_iff.mp h
    obtain ⟨b1, h1, h⟩ := Option.bind_eq_some_iff.mp h
    obtain ⟨b2, h2, h⟩ := Option.bind_eq_some_iff.mp h
    obtain ⟨b3, h3, h⟩ := Option.bind_eq_some_iff.mp h
    cases h
    exact ⟨b0, b1, b2, b3, h0, h1, h2, h3, hword ..⟩
  · rintro ⟨b0, b1, b2, b3, h0, h1, h2, h3, hvalue⟩
    rw [h0, h1, h2, h3]
    exact congrArg some (UInt32.toNat_inj.mp ((hword ..).trans hvalue.symm))

/-- The bytes of the word that is read are those that are there. -/
theorem byte?_of_word? (h : region.word? offset = some value) {i : Nat} (hi : i < wordBytes) :
    region.byte? (offset + i) = some (byteOf value i) := by
  obtain ⟨b0, b1, b2, b3, h0, h1, h2, h3, hvalue⟩ := word?_eq_some_iff_toNat.mp h
  have hbytes : LittleEndian.toBytes wordBytes value.toNat = [b0, b1, b2, b3] := by
    rw [hvalue, ← LittleEndian.ofBytes_four]
    exact LittleEndian.toBytes_ofBytes [b0, b1, b2, b3]
  have hbyte := LittleEndian.getElem?_toBytes hi value.toNat
  rw [hbytes] at hbyte
  refine Eq.trans ?_ hbyte
  match i with
  | 0 => exact h0
  | 1 => exact h1
  | 2 => exact h2
  | 3 => exact h3

/-- A word is told by its four bytes. -/
theorem word?_eq_some_iff :
    region.word? offset = some value ↔
      ∀ i < wordBytes, region.byte? (offset + i) = some (byteOf value i) := by
  constructor
  · intro h i hi
    exact byte?_of_word? h hi
  · intro h
    have hlast : offset + 3 < region.size :=
      byte?_isSome_iff.mp (Option.isSome_of_eq_some (h 3 (by decide)))
    obtain ⟨found, hfound⟩ := Option.isSome_iff_exists.mp
      (word?_isSome_iff.mpr (holdsWord_eq_true_iff.mpr (show offset + 4 ≤ region.size by omega)))
    have heq : found = value := eq_of_byteOf_eq fun i hi =>
      Option.some.inj ((byte?_of_word? hfound hi).symm.trans (h i hi))
    rw [hfound, heq]

/-- The bytes after a word has been written: its own four at the offset, and the old ones
elsewhere. -/
theorem byte?_writeWord (h : region.holdsWord offset = true) (value : UInt32) (i : Nat) :
    (region.writeWord offset value).byte? i =
      if offset ≤ i ∧ i < offset + wordBytes then some (byteOf value (i - offset))
      else region.byte? i := by
  have hfits : offset + wordBytes ≤ region.bytes.size := holdsWord_eq_true_iff.mp h
  unfold writeWord byte? overwrite
  rw [if_pos h]
  dsimp only
  rw [Bytes.getElem?_overwrite, LittleEndian.length_toBytes]
  by_cases hi : offset ≤ i ∧ i < offset + wordBytes
  · rw [if_pos hi, if_pos ⟨hi.1, hi.2, by omega⟩, LittleEndian.getElem?_toBytes (by omega)]
    rfl
  · rw [if_neg hi, if_neg fun hinside => hi ⟨hinside.1, hinside.2.1⟩]

/-- A byte that writing a word changes is one of the word, which is all there. -/
theorem holdsWord_of_byte?_writeWord_ne {i : Nat}
    (h : (region.writeWord offset value).byte? i ≠ region.byte? i) :
    region.holdsWord offset = true ∧ offset ≤ i ∧ i < offset + wordBytes := by
  by_cases hholds : region.holdsWord offset = true
  · rw [byte?_writeWord hholds] at h
    by_cases hi : offset ≤ i ∧ i < offset + wordBytes
    · exact ⟨hholds, hi⟩
    · rw [if_neg hi] at h
      exact absurd rfl h
  · unfold writeWord at h
    rw [if_neg hholds] at h
    exact absurd rfl h

/-- A word that has been written is read back. -/
theorem word?_writeWord_self (h : region.holdsWord offset = true) (value : UInt32) :
    (region.writeWord offset value).word? offset = some value := by
  refine word?_eq_some_iff.mpr fun i hi => ?_
  rw [byte?_writeWord h, if_pos ⟨by omega, by omega⟩, Nat.add_sub_cancel_left]

/-- A word beside the one that has been written reads as before. -/
theorem word?_writeWord_of_disjoint {other : Nat}
    (h : other + wordBytes ≤ offset ∨ offset + wordBytes ≤ other) (value : UInt32) :
    (region.writeWord offset value).word? other = region.word? other := by
  by_cases hholds : region.holdsWord offset = true
  · refine word?_congr fun i hi => ?_
    rw [byte?_writeWord hholds, if_neg (by omega)]
  · unfold writeWord
    rw [if_neg hholds]

/-! ## Words one after the other -/

/-- The words from an offset on, as far as they fit. -/
def wordsFrom (region : Region) (offset : Nat) : List UInt32 :=
  (List.range ((region.size - offset) / wordBytes)).filterMap fun i =>
    region.word? (offset + wordBytes * i)

/-- The first of the words is the one at the offset. -/
theorem wordsFrom_eq_cons (h : region.word? offset = some value) :
    region.wordsFrom offset = value :: region.wordsFrom (offset + wordBytes) := by
  have hholds : region.holdsWord offset = true := word?_isSome_iff.mp (by rw [h]; rfl)
  have hcount : (region.size - offset) / wordBytes =
      (region.size - (offset + wordBytes)) / wordBytes + 1 := by
    have hfits := holdsWord_eq_true_iff.mp hholds
    unfold wordBytes at hfits ⊢
    omega
  have hnext (i : Nat) : offset + wordBytes * (i + 1) = offset + wordBytes + wordBytes * i := by
    unfold wordBytes
    omega
  unfold wordsFrom
  rw [hcount, List.range_succ_eq_map, List.filterMap_cons, Nat.mul_zero, Nat.add_zero, h,
    List.filterMap_map]
  simp only [Function.comp_def, Nat.succ_eq_add_one, hnext]

/-- There are no words from an offset on where the region holds none. -/
theorem wordsFrom_eq_nil (h : region.holdsWord offset = false) : region.wordsFrom offset = [] := by
  have hcount : (region.size - offset) / wordBytes = 0 := by
    have hfits : ¬ offset + wordBytes ≤ region.size := of_decide_eq_false h
    unfold wordBytes at hfits ⊢
    omega
  unfold wordsFrom
  rw [hcount]
  rfl

/-- There are words from an offset on where the region holds one. -/
theorem exists_wordsFrom_eq_cons (h : region.holdsWord offset = true) :
    ∃ value, region.word? offset = some value ∧
      region.wordsFrom offset = value :: region.wordsFrom (offset + wordBytes) := by
  obtain ⟨value, hvalue⟩ := Option.isSome_iff_exists.mp (word?_isSome_iff.mpr h)
  exact ⟨value, hvalue, wordsFrom_eq_cons hvalue⟩

/-- As many words are listed as the region has room for. -/
theorem length_wordsFrom (region : Region) (offset : Nat) :
    (region.wordsFrom offset).length = (region.size - offset) / wordBytes := by
  -- Every offset of the range holds a word, so none of them is left out.
  have hlisted (n : Nat) (h : n ≤ (region.size - offset) / wordBytes) :
      ((List.range n).filterMap fun i => region.word? (offset + wordBytes * i)).length = n := by
    induction n with
    | zero => rfl
    | succ n ih =>
      have hholds : region.holdsWord (offset + wordBytes * n) = true := by
        rw [holdsWord_eq_true_iff]
        unfold wordBytes at h ⊢
        omega
      obtain ⟨value, hvalue, -⟩ := exists_wordsFrom_eq_cons hholds
      rw [List.range_succ, List.filterMap_append, List.length_append, ih (by omega),
        List.filterMap_cons, hvalue]
      rfl
  exact hlisted _ (Nat.le_refl _)

/-- Writing a word keeps the words after it. -/
theorem wordsFrom_writeWord {start : Nat} (h : offset + wordBytes ≤ start) (value : UInt32) :
    (region.writeWord offset value).wordsFrom start = region.wordsFrom start := by
  unfold wordsFrom
  rw [size_writeWord]
  refine List.filterMap_congr fun i _ => ?_
  exact word?_writeWord_of_disjoint (.inr (by omega)) value

end Region

end RegisterMachine
