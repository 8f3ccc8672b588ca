import RegisterMachine.Proofs.Memory.Ranges

/-!
# One notion of a word

Whether a region has a word at an offset can be asked in four ways. A guard calculates with words
where the word would end (`Region.fitsWord`), its bytes are there or not, and to read or to write it
succeeds or fails. The answers are the same at every offset, up to the last one, where the
calculation would wrap around (`Region.coherentAt`).

A word is told by its four bytes (`word?_eq_some_iff`), and writing one replaces four bytes. A word
that overlaps the one written has the new bytes where the two overlap and its old ones elsewhere
(`exists_word?_writeWord`).

A region keeps its place and its size whatever is done to it (`TurnsInto.keepsPlace`), so the size
that it has been placed with is the one that guards may calculate with ever after.
-/

namespace RegisterMachine.Region

variable {region later : Region} {offset other : Nat} {value old : UInt32}

/-! ## Where there is a word -/

/-- The bytes of a word at the offset are there, each at an offset that is a word itself. -/
def HasWordBytes (region : Region) (offset : UInt32) : Prop :=
  ∀ i < wordBytes, ∃ place : UInt32,
    place.toNat = offset.toNat + i ∧ (region.byte? place.toNat).isSome

/-- The bytes of a word are there exactly if the region holds it. -/
theorem hasWordBytes_iff {offset : UInt32} :
    region.HasWordBytes offset ↔ region.holdsWord offset.toNat = true := by
  have hsize : region.size ≤ 0x10000 := region.size_le
  rw [holdsWord_eq_true_iff]
  unfold wordBytes
  constructor
  · intro h
    -- The last byte decides.
    obtain ⟨place, hplace, hbyte⟩ := h 3 (by decide)
    have hlt := byte?_isSome_iff.mp hbyte
    omega
  · intro h i hi
    change i < 4 at hi
    have hplace : (UInt32.ofNat (offset.toNat + i)).toNat = offset.toNat + i :=
      UInt32.toNat_ofNat_of_lt' (by change _ < 0x100000000; omega)
    exact ⟨_, hplace, byte?_isSome_iff.mpr (by omega)⟩

/-! ## What a written word does to others -/

/-- A region in which a word has been written: its four bytes are those of the word, and the others
are the old ones. -/
structure HasWritten (region : Region) (offset : Nat) (value : UInt32) (written : Region) :
    Prop where
  base : written.base = region.base
  byte : ∀ i, written.byte? i =
    if offset ≤ i ∧ i < offset + wordBytes then some (byteOf value (i - offset))
    else region.byte? i
  word : written.word? offset = some value
  /-- A word that was there before has the new bytes where it overlaps the one written, and its own
  elsewhere. -/
  mixed : ∀ other old, region.word? other = some old →
    ∃ new, written.word? other = some new ∧ ∀ i < wordBytes, byteOf new i =
      if offset ≤ other + i ∧ other + i < offset + wordBytes then byteOf value (other + i - offset)
      else byteOf old i
  /-- There are no words in other places than before. -/
  absent : ∀ other, region.word? other = none → written.word? other = none

/-- Writing a word changes nothing about where there are words. -/
theorem word?_isSome_writeWord (region : Region) (offset : Nat) (value : UInt32) (other : Nat) :
    ((region.writeWord offset value).word? other).isSome = (region.word? other).isSome := by
  rw [Bool.eq_iff_iff, word?_isSome_iff, word?_isSome_iff, holdsWord_writeWord]

/-- A word that overlaps the one that is written mixes its bytes with the new ones. -/
theorem exists_word?_writeWord (h : region.holdsWord offset = true) (value : UInt32)
    (hold : region.word? other = some old) :
    ∃ new, (region.writeWord offset value).word? other = some new ∧
      ∀ i < wordBytes, byteOf new i =
        if offset ≤ other + i ∧ other + i < offset + wordBytes then
          byteOf value (other + i - offset)
        else byteOf old i := by
  obtain ⟨new, hnew⟩ := Option.isSome_iff_exists.mp
    ((region.word?_isSome_writeWord offset value other).trans (Option.isSome_of_eq_some hold))
  refine ⟨new, hnew, fun i hi => ?_⟩
  have hbyte := byte?_of_word? hnew hi
  rw [byte?_writeWord h, byte?_of_word? hold hi, ← apply_ite some] at hbyte
  exact (Option.some.inj hbyte).symm

/-- A word that fits is written, byte by byte and nowhere else. -/
theorem hasWritten_writeWord (h : region.holdsWord offset = true) (value : UInt32) :
    region.HasWritten offset value (region.writeWord offset value) where
  base := base_writeWord ..
  byte := byte?_writeWord h value
  word := word?_writeWord_self h value
  mixed other old hold := exists_word?_writeWord h value hold
  absent other hnone := by
    have hsome := region.word?_isSome_writeWord offset value other
    rw [hnone] at hsome
    exact Option.isNone_iff_eq_none.mp (by rw [← Option.not_isSome, hsome]; rfl)

/-! ## All of it at one offset -/

/-- The accesses to a word at an offset agree with one another. -/
structure CoherentAt (region : Region) (offset : UInt32) : Prop where
  fits : region.fitsWord offset = true ↔ region.HasWordBytes offset
  /-- The calculation with words is exact. -/
  holds : region.holdsWord offset.toNat = region.fitsWord offset
  reads : (region.word? offset.toNat).isSome = region.fitsWord offset
  writes : ∀ value, (region.writeWord? offset.toNat value).isSome = region.fitsWord offset
  word : ∀ value, region.word? offset.toNat = some value ↔ ∃ b0 b1 b2 b3 : UInt8,
    region.byte? offset.toNat = some b0 ∧ region.byte? (offset.toNat + 1) = some b1 ∧
      region.byte? (offset.toNat + 2) = some b2 ∧ region.byte? (offset.toNat + 3) = some b3 ∧
      value.toNat = b0.toNat + 0x100 * b1.toNat + 0x10000 * b2.toNat + 0x1000000 * b3.toNat
  written : ∀ value written, region.writeWord? offset.toNat value = some written →
    region.writeWord offset.toNat value = written ∧
      region.HasWritten offset.toNat value written
  /-- To write a word that is not all there changes nothing. -/
  refused : ∀ value, region.writeWord? offset.toNat value = none →
    region.writeWord offset.toNat value = region

/-- All the ways to ask for a word agree, at every offset. -/
theorem coherentAt (region : Region) (offset : UInt32) : region.CoherentAt offset where
  fits := by rw [hasWordBytes_iff, fitsWord_eq_holdsWord]
  holds := (region.fitsWord_eq_holdsWord offset).symm
  reads := by rw [fitsWord_eq_holdsWord, Bool.eq_iff_iff, word?_isSome_iff]
  writes value := by rw [fitsWord_eq_holdsWord, Bool.eq_iff_iff, writeWord?_isSome_iff]
  word value := word?_eq_some_iff_toNat
  written value written h := by
    have hholds : region.holdsWord offset.toNat = true :=
      writeWord?_isSome_iff.mp (Option.isSome_of_eq_some h)
    unfold writeWord? at h
    rw [if_pos hholds] at h
    cases h
    exact ⟨rfl, hasWritten_writeWord hholds value⟩
  refused value h := by
    have hholds : ¬ region.holdsWord offset.toNat = true := fun hholds =>
      Option.isSome_iff_ne_none.mp (writeWord?_isSome_iff.mpr hholds) h
    unfold writeWord
    rw [if_neg hholds]

/-- Writing over the middle of two neighbouring words changes both. -/
example :
    let region : Region := ⟨0, #[0x10, 0x11, 0x12, 0x13, 0x14, 0x15, 0x16, 0x17], by decide⟩
    let written := region.writeWord 2 0xAABBCCDD
    written.word? 0 = some 0xCCDD1110 ∧ written.word? 4 = some 0x1716AABB ∧
      region.writeWord? 5 0xAABBCCDD = none := by
  decide

/-! ## Place and size -/

/-- What a region is turned into by what is done to it. -/
inductive TurnsInto (region : Region) : Region → Prop where
  | refl : TurnsInto region region
  | writeWord {later : Region} (h : TurnsInto region later) (offset : Nat) (value : UInt32) :
      TurnsInto region (later.writeWord offset value)
  | overwrite {later : Region} (h : TurnsInto region later) (offset : Nat) (bytes : List UInt8) :
      TurnsInto region (later.overwrite offset bytes)
  | clear {later : Region} (h : TurnsInto region later) : TurnsInto region later.clear

/-- What can be done to a region can be done to it later. -/
theorem TurnsInto.trans {last : Region} (h : region.TurnsInto later) (h' : later.TurnsInto last) :
    region.TurnsInto last := by
  induction h' with
  | refl => exact h
  | writeWord _ offset value ih => exact ih.writeWord offset value
  | overwrite _ offset bytes ih => exact ih.overwrite offset bytes
  | clear _ ih => exact ih.clear

/-- A region has the place and the size with which bytes have been placed. -/
structure KeepsPlace (base : UInt16) (bytes : Array UInt8) (region : Region) : Prop where
  base : region.base = base
  size : region.bytes.size = bytes.size
  /-- Guards may calculate with the size as it was when the bytes were placed. -/
  sizeWord : region.sizeWord = UInt32.ofNat bytes.size
  /-- No bits of it are lost in a word. -/
  toNat_sizeWord : (UInt32.ofNat bytes.size).toNat = region.bytes.size
  size_le : region.bytes.size ≤ addressSpace

/-- A region of the size of the bytes that were placed keeps to it in every form. -/
theorem KeepsPlace.of_size_eq {base : UInt16} {bytes : Array UInt8} (hbase : region.base = base)
    (hsize : region.size = bytes.size) : KeepsPlace base bytes region where
  base := hbase
  size := hsize
  sizeWord := congrArg UInt32.ofNat hsize
  toNat_sizeWord := by
    rw [← hsize]
    exact region.toNat_sizeWord
  size_le := region.size_le

/-- A region that has just been placed is where it has been placed. -/
theorem keepsPlace_of_place {base : UInt16} {bytes : Array UInt8}
    (h : place base bytes = .ok region) : KeepsPlace base bytes region := by
  obtain ⟨hbase, hbytes⟩ := place_eq_ok_iff.mp h
  exact .of_size_eq hbase (congrArg Array.size hbytes)

/-- Nothing that is done to a region changes its place or its size. -/
theorem TurnsInto.keepsPlace {base : UInt16} {bytes : Array UInt8} (h : region.TurnsInto later)
    (hplace : KeepsPlace base bytes region) : KeepsPlace base bytes later := by
  induction h with
  | refl => exact hplace
  | writeWord _ offset value ih =>
    exact .of_size_eq ((base_writeWord ..).trans ih.base) ((size_writeWord ..).trans ih.size)
  | overwrite _ offset bytes ih => exact .of_size_eq ih.base ((size_overwrite ..).trans ih.size)
  | clear _ ih => exact .of_size_eq ih.base ((size_clear _).trans ih.size)

end RegisterMachine.Region
