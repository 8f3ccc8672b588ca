import RegisterMachine.Proofs.Memory.Words

/-!
# Regions as intervals and lists

A region covers an interval of addresses (`Region.Covers`), and translating an address is to ask
whether it is in the interval, and how far it is from the start (`offset?_eq_some_iff`,
`offset?_eq_none_iff`). The end of the interval need not be an address itself: a region may end with
the address space.

What there is in a region is a list of bytes. A word is read off the list (`word?_eq_some`), to
write one is to lay its four bytes over it (`toList_writeWord`), and a run of bytes is laid over it
as far as there is room (`toList_overwrite`).
-/

namespace RegisterMachine

namespace Bytes

/-- Bytes laid over others from an offset on; what would pass the end is dropped. -/
def laidOver (old : List UInt8) (offset : Nat) (bytes : List UInt8) : List UInt8 :=
  old.take offset ++ bytes.take (old.length - offset) ++ old.drop (offset + bytes.length)

/-- The word in the four bytes from an offset on. -/
def wordAt (bytes : List UInt8) (offset : Nat) : UInt32 :=
  UInt32.ofNat (LittleEndian.ofBytes ((bytes.drop offset).take wordBytes))

/-- Inside the run the new bytes stand, outside it the old ones. -/
theorem getElem?_laidOver {old : List UInt8} {offset : Nat} (h : offset ≤ old.length)
    (bytes : List UInt8) (i : Nat) :
    (laidOver old offset bytes)[i]? =
      if offset ≤ i ∧ i < offset + bytes.length ∧ i < old.length then bytes[i - offset]?
      else old[i]? := by
  have htake : (old.take offset).length = offset := List.length_take_of_le h
  unfold laidOver
  rcases Nat.lt_or_ge i offset with hbefore | hafter
  · rw [if_neg (by omega), List.append_assoc, List.getElem?_append_left (by omega),
      List.getElem?_take_of_lt hbefore]
  · rw [List.append_assoc, List.getElem?_append_right (by omega), htake]
    by_cases hinside : i < offset + bytes.length ∧ i < old.length
    · rw [if_pos ⟨hafter, hinside⟩,
        List.getElem?_append_left (by rw [List.length_take]; omega),
        List.getElem?_take_of_lt (by omega)]
    · rw [if_neg fun hi => hinside hi.2,
        List.getElem?_append_right (by rw [List.length_take]; omega), List.length_take,
        List.getElem?_drop]
      -- Either the run has ended before, or the list has.
      rcases Nat.lt_or_ge i old.length with hi | hi
      · congr 1
        omega
      · rw [List.getElem?_eq_none hi, List.getElem?_eq_none (by omega)]

/-- A run laid over an array, as a list. -/
theorem toList_overwrite_eq_laidOver {target : Array UInt8} {start : Nat}
    (h : start ≤ target.size) (bytes : List UInt8) :
    (overwrite target start bytes).toList = laidOver target.toList start bytes := by
  apply List.ext_getElem?
  intro i
  have hsize : target.toList.length = target.size := Array.length_toList
  have hold : target.toList[i]? = target[i]? := Array.getElem?_toList
  rw [getElem?_laidOver (by rwa [hsize]), hold, hsize, Array.getElem?_toList, getElem?_overwrite]

/-- From where a run has been laid on, there are its bytes and then the old ones behind them. -/
theorem drop_laidOver {old : List UInt8} {offset : Nat} {bytes : List UInt8}
    (h : offset + bytes.length ≤ old.length) :
    (laidOver old offset bytes).drop offset = bytes ++ old.drop (offset + bytes.length) := by
  unfold laidOver
  rw [List.take_of_length_le (show bytes.length ≤ old.length - offset by omega),
    List.append_assoc,
    List.drop_left' (List.length_take_of_le (Nat.le_of_add_right_le h))]

end Bytes

namespace Region

variable {region : Region} {address offset : UInt16}

/-- The region has a byte at the address. -/
def Covers (region : Region) (address : UInt16) : Prop :=
  region.base.toNat ≤ address.toNat ∧ address.toNat < region.base.toNat + region.size

/-- An address is compared with the two ends of a region. -/
instance (region : Region) (address : UInt16) : Decidable (region.Covers address) :=
  inferInstanceAs (Decidable (_ ∧ _))

/-- The offset of an address is its distance from the base. -/
theorem Covers.toNat_sub (h : region.Covers address) :
    (address - region.base).toNat = address.toNat - region.base.toNat :=
  UInt16.toNat_sub_of_le _ _ (UInt16.le_iff_toNat_le.mpr h.1)

/-- An address has an offset exactly if the region covers it, and the offset is its distance from
the base. -/
theorem offset?_eq_some_iff :
    region.offset? address = some offset ↔
      region.Covers address ∧ offset.toNat = address.toNat - region.base.toNat := by
  unfold offset?
  constructor
  · intro h
    split at h
    · rename_i hinside
      cases h
      have hle := UInt16.le_iff_toNat_le.mp hinside.1
      have hsub := UInt16.toNat_sub_of_le _ _ hinside.1
      have hlt := hinside.2
      rw [hsub] at hlt
      exact ⟨⟨hle, by omega⟩, hsub⟩
    · cases h
  · rintro ⟨hcovers, hoffset⟩
    have hsub := hcovers.toNat_sub
    obtain ⟨hle, hlt⟩ := hcovers
    rw [if_pos ⟨UInt16.le_iff_toNat_le.mpr hle, by omega⟩, Option.some.injEq]
    exact UInt16.toNat_inj.mp (hsub.trans hoffset.symm)

/-- An address has no offset exactly if the region does not cover it. -/
theorem offset?_eq_none_iff : region.offset? address = none ↔ ¬ region.Covers address := by
  constructor
  · intro h hcovers
    rw [offset?_eq_some_iff.mpr ⟨hcovers, hcovers.toNat_sub⟩] at h
    cases h
  · intro h
    cases hoffset : region.offset? address with
    | none => rfl
    | some offset => exact absurd (offset?_eq_some_iff.mp hoffset).1 h

/-- Every byte of a region has an address. -/
theorem exists_covers {i : Nat} (h : i < region.size) :
    ∃ address : UInt16, address.toNat = region.base.toNat + i ∧ region.Covers address := by
  have hfits : region.base.toNat + region.size ≤ 0x10000 := region.fits
  have haddress : (UInt16.ofNat (region.base.toNat + i)).toNat = region.base.toNat + i :=
    UInt16.toNat_ofNat_of_lt' (by change _ < 0x10000; omega)
  refine ⟨UInt16.ofNat (region.base.toNat + i), haddress, ?_⟩
  unfold Covers
  omega

/-- Writing a word keeps the base. -/
@[simp] theorem base_writeWord (region : Region) (offset : Nat) (value : UInt32) :
    (region.writeWord offset value).base = region.base := by
  unfold writeWord
  split <;> rfl

/-- Writing a word moves no byte to another address. -/
@[simp] theorem covers_writeWord (region : Region) (offset : Nat) (value : UInt32) :
    (region.writeWord offset value).Covers address ↔ region.Covers address := by
  unfold Covers
  rw [base_writeWord, size_writeWord]

/-- The bytes from an offset on are those of the list without as many of its first ones. -/
theorem drop_eq (region : Region) (offset : Nat) :
    region.drop offset = region.bytes.toList.drop offset := by
  unfold drop size
  rw [Array.toList_extract, List.extract_eq_take_drop, List.take_of_length_le]
  rw [List.length_drop, Array.length_toList]

/-- A word that is all there is read off the list of bytes. -/
theorem word?_eq_some {offset : Nat} (h : offset + wordBytes ≤ region.size) :
    region.word? offset = some (Bytes.wordAt region.bytes.toList offset) := by
  have hlength : offset + 4 ≤ region.bytes.toList.length := h
  have hbyte (i : Nat) (hi : i < region.bytes.toList.length) :
      region.byte? i = some region.bytes.toList[i] := by
    unfold byte?
    rw [← Array.getElem?_toList, List.getElem?_eq_getElem hi]
  unfold word? Bytes.wordAt wordBytes
  rw [hbyte offset (by omega), hbyte (offset + 1) (by omega), hbyte (offset + 2) (by omega),
    hbyte (offset + 3) (by omega), List.drop_eq_getElem_cons (by omega),
    List.drop_eq_getElem_cons (by omega), List.drop_eq_getElem_cons (by omega),
    List.drop_eq_getElem_cons (by omega)]
  rfl

/-- Bytes laid over a region are laid over the list of its bytes. -/
theorem toList_overwrite {offset : Nat} (h : offset ≤ region.size) (bytes : List UInt8) :
    (region.overwrite offset bytes).bytes.toList =
      Bytes.laidOver region.bytes.toList offset bytes :=
  Bytes.toList_overwrite_eq_laidOver h bytes

/-- A word that fits is written as its bytes laid over the list. -/
theorem toList_writeWord {offset : Nat} (h : offset + wordBytes ≤ region.size) (value : UInt32) :
    (region.writeWord offset value).bytes.toList =
      Bytes.laidOver region.bytes.toList offset (LittleEndian.toBytes wordBytes value.toNat) := by
  unfold writeWord
  rw [if_pos (holdsWord_eq_true_iff.mpr h)]
  exact toList_overwrite (Nat.le_of_add_right_le h) _

end Region

end RegisterMachine
