import RegisterMachine.Isa.Instruction
import RegisterMachine.Isa.Register

/-!
# Linear decoding

`decodeFirst` takes one instruction off the front of some bytes by the rule of a fetch: the first
byte is an opcode, and all operand bytes that its table says must follow. `decodeAll` repeats this
until no bytes are left. Both undo the encoding of instructions, and nothing else decodes
(`decodeFirst_eq_some_iff`, `decodeAll_eq_some_iff`): bytes that split into instructions do so in
one way.
-/

namespace RegisterMachine

namespace Instruction

/-- All registers that an instruction names exist. -/
def NamesRegisters (instruction : Instruction) : Prop :=
  ∀ id ∈ instruction.registerIds, id.toNat < Register.count

/-- The instruction at the front of some bytes, and the bytes after it. -/
def decodeFirst : List UInt8 → Option (Instruction × List UInt8)
  | [] => none
  | byte :: rest =>
    match Opcode.ofByte? byte with
    | none => none
    | some opcode =>
      if opcode.operandBytes ≤ rest.length then
        some (opcode.decode (rest.take opcode.operandBytes), rest.drop opcode.operandBytes)
      else none

/-- The bytes of instructions one after the other. -/
def encodeAll (instructions : List Instruction) : List UInt8 :=
  instructions.flatMap encode

/-- Bytes start with an instruction when they start with its encoding. -/
theorem decodeFirst_eq_some_iff {bytes rest : List UInt8} {instruction : Instruction} :
    decodeFirst bytes = some (instruction, rest) ↔ bytes = instruction.encode ++ rest := by
  constructor
  · intro h
    rcases bytes with _ | ⟨byte, bytes⟩
    · cases h
    · unfold decodeFirst at h
      dsimp only at h
      rcases hopcode : Opcode.ofByte? byte with _ | opcode
      · rw [hopcode] at h
        cases h
      · rw [hopcode] at h
        dsimp only at h
        split at h
        · rename_i hlength
          cases h
          -- The bytes that are decoded are all there, so encoding gives them back.
          have hbyte := Opcode.ofByte?_eq_some_iff.mp hopcode
          have htake : (bytes.take opcode.operandBytes).length = opcode.operandBytes := by
            rw [List.length_take]
            omega
          unfold encode
          rw [Opcode.opcode_decode, Opcode.operandBytes_decode htake, List.cons_append, hbyte,
            List.take_append_drop]
        · cases h
  · rintro rfl
    have hlength : instruction.opcode.operandBytes ≤ (instruction.operandBytes ++ rest).length := by
      rw [List.length_append, length_operandBytes]
      omega
    unfold encode decodeFirst
    rw [List.cons_append]
    dsimp only
    rw [Opcode.ofByte?_byte]
    dsimp only
    rw [if_pos hlength, ← length_operandBytes, List.take_left, List.drop_left,
      decode_operandBytes]

/-- Taking an instruction off shortens the bytes. -/
theorem length_lt_of_decodeFirst {bytes rest : List UInt8} {instruction : Instruction}
    (h : decodeFirst bytes = some (instruction, rest)) : rest.length < bytes.length := by
  rw [decodeFirst_eq_some_iff.mp h, List.length_append, length_encode, Opcode.encodedLength]
  omega

/-- The instructions that bytes split into, if they split into known ones with all operands. -/
def decodeAll (bytes : List UInt8) : Option (List Instruction) :=
  if bytes = [] then some []
  else
    match h : decodeFirst bytes with
    | none => none
    | some (instruction, rest) =>
      have : rest.length < bytes.length := length_lt_of_decodeFirst h
      (decodeAll rest).map (instruction :: ·)
termination_by bytes.length

/-- The bytes of the first instruction stand before those of the others. -/
@[simp] theorem encodeAll_cons (instruction : Instruction) (instructions : List Instruction) :
    encodeAll (instruction :: instructions) = instruction.encode ++ encodeAll instructions :=
  List.flatMap_cons

/-- Every instruction has an opcode byte. -/
theorem encode_ne_nil (instruction : Instruction) : instruction.encode ≠ [] :=
  List.cons_ne_nil _ _

/-- Every instruction takes a byte at least. -/
theorem length_le_length_encodeAll (instructions : List Instruction) :
    instructions.length ≤ (encodeAll instructions).length := by
  induction instructions with
  | nil => exact Nat.le_refl 0
  | cons instruction rest ih =>
    rw [encodeAll_cons, List.length_cons, List.length_append, length_encode, Opcode.encodedLength]
    omega

/-- Bytes split into instructions when they are the encodings of those instructions. -/
theorem decodeAll_eq_some_iff {bytes : List UInt8} {instructions : List Instruction} :
    decodeAll bytes = some instructions ↔ bytes = encodeAll instructions := by
  induction bytes using decodeAll.induct generalizing instructions with
  | case1 =>
    rw [decodeAll, if_pos rfl, Option.some.injEq]
    rcases instructions with _ | ⟨instruction, instructions⟩
    · exact iff_of_true rfl rfl
    · refine iff_of_false (by simp) fun h => ?_
      rw [encodeAll_cons] at h
      exact encode_ne_nil instruction (List.append_eq_nil_iff.mp h.symm).1
  | case2 bytes hne hnone =>
    rw [decodeAll, if_neg hne]
    split
    · -- An encoding that is not empty has a first instruction, which would have been decoded.
      refine iff_of_false (by simp) ?_
      rintro rfl
      rcases instructions with _ | ⟨instruction, instructions⟩
      · exact hne rfl
      · rw [decodeFirst_eq_some_iff.mpr (encodeAll_cons instruction instructions)] at hnone
        cases hnone
    · rename_i hsome
      rw [hnone] at hsome
      cases hsome
  | case3 bytes hne instruction rest hfirst _ ih =>
    rw [decodeAll, if_neg hne]
    split
    · rename_i hnone
      rw [hfirst] at hnone
      cases hnone
    · rename_i instruction' rest' hfirst'
      rw [hfirst, Option.some.injEq, Prod.mk.injEq] at hfirst'
      obtain ⟨rfl, rfl⟩ := hfirst'
      rw [Option.map_eq_some_iff, decodeFirst_eq_some_iff.mp hfirst]
      constructor
      · rintro ⟨instructions', hrest, rfl⟩
        rw [encodeAll_cons, ← ih.mp hrest]
      · intro h
        rcases instructions with _ | ⟨first, instructions⟩
        · exact absurd (List.append_eq_nil_iff.mp h).1 (encode_ne_nil instruction)
        · -- The front of the bytes decodes in one way.
          rw [encodeAll_cons] at h
          have hsame := decodeFirst_eq_some_iff.mpr h
          rw [decodeFirst_eq_some_iff.mpr rfl, Option.some.injEq, Prod.mk.injEq] at hsame
          obtain ⟨rfl, hrest⟩ := hsame
          exact ⟨instructions, ih.mpr hrest, rfl⟩

end Instruction

end RegisterMachine
