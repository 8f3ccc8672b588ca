import RegisterMachine.Bytes.LittleEndian
import RegisterMachine.Isa.Alu
import RegisterMachine.Isa.Opcode

/-!
# Instructions

An instruction with its operands, as the machine executes it. Registers appear by id, because an
image may name ids that no register has; `registerIds` lists the ids an instruction names.

`encode` gives the bytes of an instruction: its opcode byte and its operands in little-endian
order. `Opcode.decode` reads the operands of a known opcode and takes missing bytes for zero, which
is what a fetch past the end of ROM sees. Decoding undoes encoding (`decode_operandBytes`), and
encoding undoes decoding when no byte is missing (`operandBytes_decode`).
-/

namespace RegisterMachine

open LittleEndian (toBytes ofBytes)

/-- An instruction with its operands. -/
inductive Instruction where
  | nop
  | halt
  | syscall (code : UInt8)
  | lcons (dst : UInt8) (value : UInt32)
  | mov (dst src : UInt8)
  | push (src : UInt8)
  | pop (dst : UInt8)
  | call (target : UInt16)
  | ret
  | store (address : UInt16) (src : UInt8)
  | load (dst : UInt8) (address : UInt16)
  | alu (op : Alu) (dst src : UInt8)
  | not (dst : UInt8)
  | jmp (target : UInt16)
  | jr (src : UInt8)
  | skipz (id : UInt8)
  | skipnz (id : UInt8)
  deriving DecidableEq, Repr

/-- The opcode of a binary operation. -/
def Alu.opcode : Alu → Opcode
  | add => .add
  | sub => .sub
  | mul => .mul
  | div => .div
  | shl => .shl
  | shr => .shr
  | ishr => .ishr
  | and => .and
  | or => .or
  | xor => .xor

namespace Instruction

/-- The opcode of an instruction. -/
def opcode : Instruction → Opcode
  | nop => .nop
  | halt => .halt
  | syscall _ => .syscall
  | lcons _ _ => .lcons
  | mov _ _ => .mov
  | push _ => .push
  | pop _ => .pop
  | call _ => .call
  | ret => .ret
  | store _ _ => .store
  | load _ _ => .load
  | alu op _ _ => op.opcode
  | not _ => .not
  | jmp _ => .jmp
  | jr _ => .jr
  | skipz _ => .skipz
  | skipnz _ => .skipnz

/-- The operand bytes of an instruction. -/
def operandBytes : Instruction → List UInt8
  | nop | halt | ret => []
  | syscall code => [code]
  | lcons dst value => dst :: toBytes 4 value.toNat
  | mov dst src | alu _ dst src => [dst, src]
  | push id | pop id | not id | jr id | skipz id | skipnz id => [id]
  | call target | jmp target => toBytes 2 target.toNat
  | store address src => toBytes 2 address.toNat ++ [src]
  | load dst address => dst :: toBytes 2 address.toNat

/-- The bytes of an instruction in the image. -/
def encode (instruction : Instruction) : List UInt8 :=
  instruction.opcode.byte :: instruction.operandBytes

/-- The register ids that an instruction names, in operand order. -/
def registerIds : Instruction → List UInt8
  | nop | halt | ret | syscall _ | call _ | jmp _ => []
  | mov dst src | alu _ dst src => [dst, src]
  | lcons id _ | load id _ | store _ id | push id | pop id | not id | jr id | skipz id
  | skipnz id => [id]

end Instruction

/-- The instruction with a given opcode and operand bytes; bytes that are missing count as zero. -/
def Opcode.decode (opcode : Opcode) (bytes : List UInt8) : Instruction :=
  let byte (i : Nat) : UInt8 := bytes.getD i 0
  let half (i : Nat) : UInt16 := UInt16.ofNat (ofBytes [byte i, byte (i + 1)])
  let word (i : Nat) : UInt32 :=
    UInt32.ofNat (ofBytes [byte i, byte (i + 1), byte (i + 2), byte (i + 3)])
  match opcode with
  | .nop => .nop
  | .halt => .halt
  | .syscall => .syscall (byte 0)
  | .lcons => .lcons (byte 0) (word 1)
  | .mov => .mov (byte 0) (byte 1)
  | .push => .push (byte 0)
  | .pop => .pop (byte 0)
  | .call => .call (half 0)
  | .ret => .ret
  | .store => .store (half 0) (byte 2)
  | .load => .load (byte 0) (half 1)
  | .add => .alu .add (byte 0) (byte 1)
  | .sub => .alu .sub (byte 0) (byte 1)
  | .mul => .alu .mul (byte 0) (byte 1)
  | .div => .alu .div (byte 0) (byte 1)
  | .shl => .alu .shl (byte 0) (byte 1)
  | .shr => .alu .shr (byte 0) (byte 1)
  | .ishr => .alu .ishr (byte 0) (byte 1)
  | .and => .alu .and (byte 0) (byte 1)
  | .or => .alu .or (byte 0) (byte 1)
  | .xor => .alu .xor (byte 0) (byte 1)
  | .not => .not (byte 0)
  | .jmp => .jmp (half 0)
  | .jr => .jr (byte 0)
  | .skipz => .skipz (byte 0)
  | .skipnz => .skipnz (byte 0)

/-- Decoding keeps the opcode. -/
@[simp] theorem Opcode.opcode_decode (opcode : Opcode) (bytes : List UInt8) :
    (opcode.decode bytes).opcode = opcode := by
  cases opcode <;> rfl

namespace Instruction

/-- The operands of an instruction take the bytes that the table of its opcode says. -/
@[simp] theorem length_operandBytes (instruction : Instruction) :
    instruction.operandBytes.length = instruction.opcode.operandBytes := by
  cases instruction with
  | alu op dst src => cases op <;> rfl
  | _ => rfl

/-- The length of an instruction is told by its opcode. -/
theorem length_encode (instruction : Instruction) :
    instruction.encode.length = instruction.opcode.encodedLength := by
  simp [encode, Opcode.encodedLength]

/-- Decoding undoes encoding. -/
@[simp] theorem decode_operandBytes (instruction : Instruction) :
    instruction.opcode.decode instruction.operandBytes = instruction := by
  have half (v : UInt16) : UInt16.ofNat (ofBytes (toBytes 2 v.toNat)) = v := by
    have hv : v.toNat < LittleEndian.modulus 2 := v.toNat_lt
    rw [LittleEndian.ofBytes_toBytes, Nat.mod_eq_of_lt hv, UInt16.ofNat_toNat]
  have word (v : UInt32) : UInt32.ofNat (ofBytes (toBytes 4 v.toNat)) = v := by
    have hv : v.toNat < LittleEndian.modulus 4 := v.toNat_lt
    rw [LittleEndian.ofBytes_toBytes, Nat.mod_eq_of_lt hv, UInt32.ofNat_toNat]
  cases instruction with
  | alu op dst src => cases op <;> rfl
  | lcons dst value => exact congrArg (lcons dst) (word value)
  | call target => exact congrArg call (half target)
  | jmp target => exact congrArg jmp (half target)
  | store address src => exact congrArg (store · src) (half address)
  | load dst address => exact congrArg (load dst) (half address)
  | _ => rfl

end Instruction

/-- Encoding undoes decoding when every operand byte is there. -/
theorem Opcode.operandBytes_decode {opcode : Opcode} {bytes : List UInt8}
    (h : bytes.length = opcode.operandBytes) : (opcode.decode bytes).operandBytes = bytes := by
  have half (a b : UInt8) : toBytes 2 (ofBytes [a, b] % 65536) = [a, b] := by
    have hlt : ofBytes [a, b] < 65536 := LittleEndian.ofBytes_lt [a, b]
    rw [Nat.mod_eq_of_lt hlt]
    exact LittleEndian.toBytes_ofBytes [a, b]
  have word (a b c d : UInt8) :
      toBytes 4 (ofBytes [a, b, c, d] % 4294967296) = [a, b, c, d] := by
    have hlt : ofBytes [a, b, c, d] < 4294967296 := LittleEndian.ofBytes_lt [a, b, c, d]
    rw [Nat.mod_eq_of_lt hlt]
    exact LittleEndian.toBytes_ofBytes [a, b, c, d]
  cases opcode <;>
    simp only [operandBytes, operands, List.foldr_cons, List.foldr_nil,
      OperandKind.width] at h <;>
    rcases bytes with _ | ⟨a, _ | ⟨b, _ | ⟨c, _ | ⟨d, _ | ⟨e, _ | ⟨f, rest⟩⟩⟩⟩⟩⟩ <;>
    simp at h <;>
    simp [decode, Instruction.operandBytes, half, word]

end RegisterMachine
