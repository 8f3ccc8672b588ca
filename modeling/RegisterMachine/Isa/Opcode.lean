import RegisterMachine.Fault

/-!
# Opcodes

An instruction is one opcode byte followed by its operands. The table `operands` gives the operands
of every opcode in the order in which they are written in source text and encoded in the image, so
the assembler and the machine agree on the length of an instruction. Opcodes are numbered from zero
in the order of `all`; `ofByte` reads the number back (`ofByte_byte`), and `ofMnemonic?` reads the
name (`ofMnemonic?_mnemonic`).
-/

namespace RegisterMachine

/-- How an operand is written in source text and encoded in the image. -/
inductive OperandKind where
  /-- A register, encoded as its id. -/
  | register
  /-- An 8-bit literal. -/
  | immediate8
  /-- A 32-bit literal, or the address of a symbol. -/
  | immediate32
  /-- A 16-bit offset into RAM. -/
  | address
  /-- A 16-bit offset into ROM, as a literal or as the address of a symbol. -/
  | target
  deriving DecidableEq, Repr

/-- The bytes that an operand takes in the image. -/
def OperandKind.width : OperandKind → Nat
  | register | immediate8 => 1
  | address | target => 2
  | immediate32 => 4

/-- The instructions of the machine, by what they do. -/
inductive Opcode where
  /-- Does nothing. -/
  | nop
  /-- Ends the run. -/
  | halt
  /-- Calls the interrupt handler of the host. -/
  | syscall
  /-- Loads a constant into a register. -/
  | lcons
  /-- Copies the second register into the first. -/
  | mov
  /-- Pushes a register onto the stack. -/
  | push
  /-- Pops the top of the stack into a register. -/
  | pop
  /-- Saves the address of the next instruction in `ra` and jumps. -/
  | call
  /-- Jumps to the address in `ra`. -/
  | ret
  /-- Writes a register to RAM. -/
  | store
  /-- Reads a register from RAM. -/
  | load
  | add
  | sub
  | mul
  | div
  /-- Shifts left. -/
  | shl
  /-- Shifts right, filling with zeros. -/
  | shr
  /-- Shifts right, filling with the sign. -/
  | ishr
  | and
  | or
  | xor
  | not
  /-- Jumps. -/
  | jmp
  /-- Jumps to the address in a register. -/
  | jr
  /-- Skips the next instruction if the id of its register is zero. -/
  | skipz
  /-- Skips the next instruction if the id of its register is not zero. -/
  | skipnz
  deriving DecidableEq, Repr

namespace Opcode

/-- The opcodes in the order of their bytes. -/
def all : List Opcode :=
  [nop, halt, syscall, lcons, mov, push, pop, call, ret, store, load, add, sub, mul, div, shl, shr,
    ishr, and, or, xor, not, jmp, jr, skipz, skipnz]

/-- The number of opcodes. -/
def count : Nat := 26

/-- The byte that starts an instruction. -/
def byte : Opcode → UInt8
  | nop => 0 | halt => 1 | syscall => 2 | lcons => 3 | mov => 4 | push => 5 | pop => 6
  | call => 7 | ret => 8 | store => 9 | load => 10 | add => 11 | sub => 12 | mul => 13
  | div => 14 | shl => 15 | shr => 16 | ishr => 17 | and => 18 | or => 19 | xor => 20
  | not => 21 | jmp => 22 | jr => 23 | skipz => 24 | skipnz => 25

/-- The operands of an instruction, in the order of source text and of the image. -/
def operands : Opcode → List OperandKind
  | nop | halt | ret => []
  | syscall => [.immediate8]
  | lcons => [.register, .immediate32]
  | push | pop | not | jr | skipz | skipnz => [.register]
  | call | jmp => [.target]
  | store => [.address, .register]
  | load => [.register, .address]
  | mov | add | sub | mul | div | shl | shr | ishr | and | or | xor => [.register, .register]

/-- The bytes that the operands of an instruction take. -/
def operandBytes (opcode : Opcode) : Nat :=
  opcode.operands.foldr (fun kind bytes => kind.width + bytes) 0

/-- The bytes that a whole instruction takes, its opcode byte included. -/
def encodedLength (opcode : Opcode) : Nat :=
  opcode.operandBytes + 1

/-- The most bytes that the operands of any instruction take. -/
def maxOperandBytes : Nat := 5

/-- The name of an instruction in source text. -/
def mnemonic : Opcode → String
  | nop => "nop" | halt => "halt" | syscall => "syscall" | lcons => "lcons" | mov => "mov"
  | push => "push" | pop => "pop" | call => "call" | ret => "ret" | store => "store"
  | load => "load" | add => "add" | sub => "sub" | mul => "mul" | div => "div" | shl => "shl"
  | shr => "shr" | ishr => "ishr" | and => "and" | or => "or" | xor => "xor" | not => "not"
  | jmp => "jmp" | jr => "jr" | skipz => "skipz" | skipnz => "skipnz"

/-- A second name that source text may use for an instruction. -/
def alias? : Opcode → Option String
  | shl => some "shiftl"
  | shr => some "shiftr"
  | ishr => some "ishiftr"
  | jmp => some "jump"
  | jr => some "jumpr"
  | _ => none

/-- The opcode with a given byte, if there is one. -/
def ofByte? (byte : UInt8) : Option Opcode :=
  all[byte.toNat]?

/-- The opcode with a given byte; a byte past the last one is a fault. -/
def ofByte (byte : UInt8) : Except Fault Opcode :=
  match ofByte? byte with
  | some opcode => .ok opcode
  | none => .error (.unknownOpcode byte)

/-- An opcode answers to its mnemonic and to its alias. -/
def answersTo (opcode : Opcode) (name : List Char) : Bool :=
  opcode.mnemonic.toList == name || opcode.alias?.any fun other => other.toList == name

/-- The opcode that a name stands for, whatever the case of its ASCII letters. -/
def ofMnemonic? (name : List Char) : Option Opcode :=
  let folded := name.map Char.toLower
  all.find? fun opcode => opcode.answersTo folded

/-- The list has all the opcodes. -/
theorem length_all : all.length = count := rfl

/-- No opcode has operands that take up more than the longest ones. -/
theorem operandBytes_le (opcode : Opcode) : opcode.operandBytes ≤ maxOperandBytes := by
  cases opcode <;> decide

/-- The byte of an opcode stands for it. -/
@[simp] theorem ofByte?_byte (opcode : Opcode) : ofByte? opcode.byte = some opcode := by
  cases opcode <;> rfl

/-- A fetch knows the byte of an opcode. -/
@[simp] theorem ofByte_byte (opcode : Opcode) : ofByte opcode.byte = .ok opcode := by
  simp [ofByte]

/-- Exactly the bytes past the last opcode are no opcodes. -/
theorem ofByte?_eq_none_iff {byte : UInt8} : ofByte? byte = none ↔ count ≤ byte.toNat := by
  simp [ofByte?, ← length_all]

/-- A byte stands for the opcode that has it. -/
theorem ofByte?_eq_some_iff {byte : UInt8} {opcode : Opcode} :
    ofByte? byte = some opcode ↔ opcode.byte = byte := by
  constructor
  · intro h
    have hnumbered : ∀ i < count, all[i]?.map (fun opcode => opcode.byte.toNat) = some i := by
      decide
    have hlt : byte.toNat < count := by
      rw [← Nat.not_le, ← ofByte?_eq_none_iff, h]
      exact Option.some_ne_none opcode
    have hbyte := hnumbered byte.toNat hlt
    unfold ofByte? at h
    rw [h, Option.map_some, Option.some.injEq] at hbyte
    exact UInt8.toNat_inj.mp hbyte
  · rintro rfl
    exact ofByte?_byte opcode

/-- An opcode is called by its mnemonic. -/
@[simp] theorem ofMnemonic?_mnemonic (opcode : Opcode) :
    ofMnemonic? opcode.mnemonic.toList = some opcode := by
  cases opcode <;> decide

end Opcode

end RegisterMachine
