import RegisterMachine.Proofs.Assembly.Resolution
import RegisterMachine.Proofs.Machine.Courses

/-!
# The code of a source

The instructions that a source assembles to, told from its clauses: an operation line is the
instruction with its opcode and the bytes of its fields (`Fields.instruction`). A source may also
hold constants, which run as whatever instructions they happen to encode, or jump to any address by
a number. A clause is structured when it does neither, does not jump through a register, and has no
`ra` where an instruction puts its result (`Clause.isStructured`). The image of structured clauses
is the code of their operation lines (`imageOf_eq_encodeAll`), and this code is closed, because the
symbols that it jumps to have the addresses of clauses (`Settles.closed`).
-/

namespace RegisterMachine

/-- The register operands among the bytes of operands of given kinds. -/
def OperandKind.registerBytes : List OperandKind → List UInt8 → List UInt8
  | [], _ => []
  | kind :: kinds, bytes =>
    let rest := registerBytes kinds (bytes.drop kind.width)
    if kind = .register then bytes.getD 0 0 :: rest else rest

/-- The decoder reads register ids where the table of the opcode has registers. -/
theorem Opcode.registerIds_decode (opcode : Opcode) (bytes : List UInt8) :
    (opcode.decode bytes).registerIds = OperandKind.registerBytes opcode.operands bytes := by
  cases opcode <;>
    simp [decode, operands, Instruction.registerIds, OperandKind.registerBytes, OperandKind.width]

/-- The instructions that put a result into the register named by their first operand. -/
def Opcode.writesFirst : Opcode → Bool
  | lcons | mov | pop | load | add | sub | mul | div | shl | shr | ishr | and | or | xor | not =>
    true
  | nop | halt | syscall | push | call | ret | store | jmp | jr | skipz | skipnz => false

/-- A result goes to the register that the first operand names. -/
theorem Instruction.head_of_written? {instruction : Instruction} {id : UInt8}
    (h : instruction.written? = some id) :
    instruction.opcode.writesFirst = true ∧
      instruction.opcode.operands.head? = some .register ∧
      instruction.operandBytes.head? = some id := by
  cases instruction with
  | alu op dst src =>
    cases h
    cases op <;> exact ⟨rfl, rfl, rfl⟩
  | lcons | mov | pop | load | not =>
    cases h
    exact ⟨rfl, rfl, rfl⟩
  | _ => cases h

/-- The address of a jump is its only operand. -/
theorem Instruction.operandBytes_of_target? {instruction : Instruction} {target : UInt16}
    (h : instruction.target? = some target) :
    (instruction.opcode = .jmp ∨ instruction.opcode = .call) ∧
      instruction.opcode.operands = [.target] ∧
      instruction.operandBytes = LittleEndian.toBytes 2 target.toNat := by
  cases instruction with
  | jmp =>
    cases h
    exact ⟨.inl rfl, rfl, rfl⟩
  | call =>
    cases h
    exact ⟨.inr rfl, rfl, rfl⟩
  | _ => cases h

namespace Assembly

/-- A register field holds the id of the register that its word names. -/
theorem Field.bytes_of_register {field : Field} (h : field.kind = .register) :
    ∃ register, Register.ofName? field.word.chars = some register ∧
      ∀ addressOf, field.bytes addressOf = [register.id] := by
  obtain ⟨kind, word, operand, reads⟩ := field
  cases h
  unfold Operand.ofName at reads
  dsimp only at reads
  split at reads
  · rename_i register hregister
    cases reads
    exact ⟨register, hregister, fun _ => rfl⟩
  · cases reads

namespace Fields

variable {opcode : Opcode} {fields : Fields opcode} {addressOf : List Char → Nat}

/-- The instruction of an operation line, given the addresses of symbols. -/
def instruction (addressOf : List Char → Nat) (fields : Fields opcode) : Instruction :=
  opcode.decode (fields.bytes addressOf)

/-- The instruction of fields has their opcode. -/
@[simp] theorem opcode_instruction : (fields.instruction addressOf).opcode = opcode :=
  Opcode.opcode_decode ..

/-- The instruction of fields has their bytes. -/
@[simp] theorem operandBytes_instruction :
    (fields.instruction addressOf).operandBytes = fields.bytes addressOf :=
  Opcode.operandBytes_decode (fields.length_bytes addressOf)

/-- The ids that an instruction names are the bytes of its register fields. -/
theorem registerIds_instruction :
    (fields.instruction addressOf).registerIds =
      (fields.list.filter fun field => field.kind = .register).flatMap (Field.bytes addressOf) := by
  -- The induction is on the fields; dropping the width of the first one leaves the bytes of the
  -- rest.
  have hfields (list : List Field) :
      OperandKind.registerBytes (list.map Field.kind) (list.flatMap (Field.bytes addressOf)) =
        (list.filter fun field => field.kind = .register).flatMap (Field.bytes addressOf) := by
    induction list with
    | nil => rfl
    | cons field rest ih =>
      rw [List.map_cons, List.flatMap_cons, OperandKind.registerBytes,
        ← Field.length_bytes addressOf field, List.drop_left, ih]
      by_cases hkind : field.kind = .register
      · obtain ⟨register, -, hbytes⟩ := Field.bytes_of_register hkind
        rw [List.filter_cons_of_pos (by simpa using hkind), List.flatMap_cons, hbytes]
        exact if_pos hkind
      · rw [List.filter_cons_of_neg (by simpa using hkind)]
        exact if_neg hkind
  unfold instruction
  rw [Opcode.registerIds_decode, ← fields.complete]
  exact hfields fields.list

/-- The instruction of fields names registers that exist, since its operands have been read. -/
theorem namesRegisters_instruction : (fields.instruction addressOf).NamesRegisters := by
  intro id hid
  rw [registerIds_instruction, List.mem_flatMap] at hid
  obtain ⟨field, hfield, hid⟩ := hid
  obtain ⟨register, -, hbytes⟩ :=
    Field.bytes_of_register (of_decide_eq_true (List.mem_filter.mp hfield).2)
  rw [hbytes, List.mem_singleton] at hid
  rw [hid]
  exact register.id_lt

/-- The register that the first word names. -/
def firstRegister? (fields : Fields opcode) : Option Register :=
  fields.list.head?.bind fun field => Register.ofName? field.word.chars

/-- A result goes to the register that the first word names. -/
theorem firstRegister?_of_written? {id : UInt8}
    (h : (fields.instruction addressOf).written? = some id) :
    opcode.writesFirst = true ∧
      ∃ register, fields.firstRegister? = some register ∧ register.id = id := by
  obtain ⟨hwrites, hkind, hid⟩ := Instruction.head_of_written? h
  rw [opcode_instruction] at hwrites hkind
  refine ⟨hwrites, ?_⟩
  rw [operandBytes_instruction] at hid
  rw [← fields.complete] at hkind
  unfold firstRegister?
  unfold bytes at hid
  rcases hlist : fields.list with _ | ⟨field, rest⟩
  · rw [hlist] at hkind
    cases hkind
  · rw [hlist] at hkind hid
    obtain ⟨register, hregister, hbytes⟩ :=
      Field.bytes_of_register (Option.some.inj hkind)
    rw [List.flatMap_cons, hbytes] at hid
    exact ⟨register, hregister, Option.some.inj hid⟩

/-- A jump to a symbol goes to its address. -/
theorem target?_instruction (hopen : fields.opened ≠ []) {target : UInt16}
    (h : (fields.instruction addressOf).target? = some target) :
    ∃ field ∈ fields.opened,
      target.toNat = addressOf field.word.chars % LittleEndian.modulus 2 := by
  obtain ⟨-, hoperands, hbytes⟩ := Instruction.operandBytes_of_target? h
  rw [operandBytes_instruction] at hbytes
  rw [opcode_instruction, ← fields.complete] at hoperands
  obtain ⟨field, hlist, hkind⟩ := List.map_eq_singleton_iff.mp hoperands
  -- The only operand is a jump target, so it is the one that is open.
  have hopens : field.opens?.isSome = true := by
    cases hsome : field.opens?.isSome with
    | true => rfl
    | false =>
      refine absurd ?_ hopen
      unfold opened
      rw [hlist, List.filter_cons_of_neg (by simpa using hsome), List.filter_nil]
  have hmem : field ∈ fields.opened := by
    refine List.mem_filter.mpr ⟨?_, hopens⟩
    rw [hlist]
    exact List.mem_singleton_self field
  obtain ⟨width, hwidth⟩ := Option.isSome_iff_exists.mp hopens
  have hhalf : width = .half := by
    rcases Field.opens?_eq_some hwidth with ⟨-, rfl⟩ | ⟨hword, -⟩
    · rfl
    · rw [hkind] at hword
      cases hword
  refine ⟨field, hmem, ?_⟩
  unfold bytes at hbytes
  rw [hlist, List.flatMap_singleton, Field.bytes_of_opens? hwidth, hhalf] at hbytes
  have hvalue := congrArg LittleEndian.ofBytes hbytes
  have hlt : target.toNat < LittleEndian.modulus 2 := target.toNat_lt
  rw [Width.encodeNat, LittleEndian.ofBytes_toBytes, LittleEndian.ofBytes_toBytes,
    Nat.mod_eq_of_lt hlt] at hvalue
  exact hvalue.symm

end Fields

/-! ## Structured sources -/

/-- Whether execution can only go where the source says from a clause. -/
def Clause.isStructured (clause : Clause) : Bool :=
  match clause.content with
  | .operation opcode fields =>
    opcode ≠ .jr ∧ (opcode = .jmp ∨ opcode = .call → fields.opened ≠ []) ∧
      (opcode.writesFirst = true → fields.firstRegister? ≠ some .ra)
  | .label | .reservation _ _ => true
  | .constants _ _ => false

/-- Whether all lines of a source read as structured clauses. -/
def isStructured (source : String) : Bool :=
  match clausesOf 0 (Text.lines source.toList) with
  | .ok clauses => clauses.all fun entry => entry.2.isStructured
  | .error _ => false

/-- The instruction of a clause. -/
def Clause.instruction? (addressOf : List Char → Nat) (clause : Clause) : Option Instruction :=
  match clause.content with
  | .operation _ fields => some (fields.instruction addressOf)
  | .label | .reservation _ _ | .constants _ _ => none

/-- The instructions of clauses in order. -/
def instructionsOf (addressOf : List Char → Nat) (clauses : List (Nat × Clause)) :
    List Instruction :=
  clauses.filterMap fun entry => entry.2.instruction? addressOf

variable {addressOf : List Char → Nat} {clauses : List (Nat × Clause)}

/-- A clause with an instruction is an operation line. -/
theorem Clause.operation_of_instruction? {clause : Clause} {instruction : Instruction}
    (h : clause.instruction? addressOf = some instruction) :
    ∃ opcode fields, clause.content = .operation opcode fields ∧
      instruction = fields.instruction addressOf := by
  obtain ⟨name, ⟨opcode, fields⟩ | _ | _ | _⟩ := clause
  · exact ⟨opcode, fields, rfl, (Option.some.inj h).symm⟩
  · cases h
  · cases h
  · cases h

/-- The bytes of a structured clause are its instruction, if it has one. -/
theorem Clause.bytes_of_isStructured {clause : Clause} (h : clause.isStructured = true) :
    clause.bytes addressOf = Instruction.encodeAll (clause.instruction? addressOf).toList := by
  obtain ⟨name, ⟨opcode, fields⟩ | _ | _ | _⟩ := clause
  · unfold bytes instruction?
    dsimp only
    rw [Option.toList_some, Instruction.encodeAll_cons, Instruction.encode,
      Fields.opcode_instruction, Fields.operandBytes_instruction]
    exact (List.append_nil _).symm
  · rfl
  · cases h
  · rfl

/-- The image of structured clauses is the code of their operation lines. -/
theorem imageOf_eq_encodeAll (h : ∀ entry ∈ clauses, entry.2.isStructured = true) :
    imageOf addressOf clauses = Instruction.encodeAll (instructionsOf addressOf clauses) := by
  induction clauses with
  | nil => rfl
  | cons entry rest ih =>
    rw [List.forall_mem_cons] at h
    rw [imageOf_cons, Clause.bytes_of_isStructured h.1, ih h.2, ← Instruction.encodeAll_append]
    unfold instructionsOf
    rw [List.filterMap_cons]
    cases entry.2.instruction? addressOf <;> rfl

/-- Where an instruction stands in the code, its operation line stands in the source. -/
theorem exists_split_of_instructionsOf {front back : List Instruction} {instruction : Instruction}
    (h : instructionsOf addressOf clauses = front ++ instruction :: back) :
    ∃ before entry after, clauses = before ++ entry :: after ∧
      instructionsOf addressOf before = front ∧
      entry.2.instruction? addressOf = some instruction := by
  obtain ⟨before, rest, rfl, hbefore, hrest⟩ := List.filterMap_eq_append_iff.mp h
  obtain ⟨between, entry, after, rfl, hnone, hentry, -⟩ := List.filterMap_eq_cons_iff.mp hrest
  refine ⟨before ++ between, entry, after, (List.append_assoc ..).symm, ?_, hentry⟩
  -- No clause in between has an instruction.
  have hbetween : between.filterMap (fun entry => entry.2.instruction? addressOf) = [] :=
    List.filterMap_eq_nil_iff.mpr hnone
  unfold instructionsOf
  rw [List.filterMap_append, hbefore, hbetween, List.append_nil]

/-- Where an operation line stands in the source, its instruction stands in the code. -/
theorem instructionsOf_of_split {before after : List (Nat × Clause)} {entry : Nat × Clause}
    {instruction : Instruction} (h : clauses = before ++ entry :: after)
    (hentry : entry.2.instruction? addressOf = some instruction) :
    instructionsOf addressOf clauses =
      instructionsOf addressOf before ++ instruction :: instructionsOf addressOf after := by
  unfold instructionsOf
  rw [h, List.filterMap_append, List.filterMap_cons, hentry]

/-- A clause starts at a boundary of the code. -/
theorem boundary_of_split {before after : List (Nat × Clause)} (h : clauses = before ++ after)
    (hstructured : ∀ entry ∈ clauses, entry.2.isStructured = true) :
    Boundary (instructionsOf addressOf clauses) (imageOf addressOf before).length := by
  refine ⟨instructionsOf addressOf before, instructionsOf addressOf after, ?_, ?_⟩
  · rw [h]
    exact List.filterMap_append
  · rw [imageOf_eq_encodeAll fun entry hmem => hstructured entry (by
      rw [h]
      exact List.mem_append_left _ hmem)]

/-- Every symbol that a source refers to has the address of a clause. -/
theorem Settles.exists_split_of_mem_openFields {buffer : Array UInt8} {program : Program}
    {final : Assembler} (h : Settles clauses buffer program final) {entry : Nat × Clause}
    (hmem : entry ∈ clauses) {field : Field} (hfield : field ∈ entry.2.openFields) :
    ∃ before after, clauses = before ++ after ∧
      final.symbols.addressOf field.word.chars =
        (imageOf final.symbols.addressOf before).length ∧
      final.symbols.addressOf field.word.chars < LittleEndian.modulus 2 := by
  -- The symbol is listed, so a clause defines it, and the clause has the address of the symbol.
  obtain ⟨address, haddress, -⟩ := h.resolved entry hmem field hfield
  have hvalue := SymbolTable.addressOf_of_address? haddress
  have hlisted : field.word ∈ symbolsOf clauses := by
    rw [← h.names, ← SymbolTable.address?_isSome_iff]
    exact Option.isSome_iff_exists.mpr ⟨address, haddress⟩
  obtain ⟨⟨number, clause⟩, hclause, hname⟩ := List.mem_map.mp hlisted
  obtain ⟨hclause, hdefines⟩ := List.mem_filter.mp hclause
  obtain ⟨before, after, hsplit⟩ := List.append_of_mem hclause
  obtain ⟨start, address', -, -, hlength, hsymbol⟩ :=
    h.statement before number clause after hsplit
  have hsame : final.address? field.word.chars = some address' := by
    rw [← hname]
    exact hsymbol hdefines
  rw [haddress, Option.some.injEq] at hsame
  refine ⟨before, _, hsplit, ?_, ?_⟩
  · rw [hvalue, hsame, hlength]
  · rw [hvalue]
    exact address.toNat_lt

/-- The code of structured clauses is closed once symbols have the addresses of clauses. -/
theorem Settles.closed {buffer : Array UInt8} {program : Program} {final : Assembler}
    (h : Settles clauses buffer program final)
    (hstructured : ∀ entry ∈ clauses, entry.2.isStructured = true) :
    Closed (instructionsOf final.symbols.addressOf clauses) := by
  -- Every instruction of the code comes from an operation line that is structured.
  have hline : ∀ instruction ∈ instructionsOf final.symbols.addressOf clauses,
      ∃ entry ∈ clauses, ∃ opcode, ∃ fields : Fields opcode,
        instruction = fields.instruction final.symbols.addressOf ∧
        entry.2.openFields = fields.opened ∧ opcode ≠ .jr ∧
        (opcode = .jmp ∨ opcode = .call → fields.opened ≠ []) ∧
        (opcode.writesFirst = true → fields.firstRegister? ≠ some .ra) := by
    intro instruction hinstruction
    obtain ⟨entry, hentry, hsome⟩ := List.mem_filterMap.mp hinstruction
    obtain ⟨opcode, fields, hcontent, hvalue⟩ := Clause.operation_of_instruction? hsome
    have hentry' := hstructured entry hentry
    unfold Clause.isStructured at hentry'
    rw [hcontent] at hentry'
    refine ⟨entry, hentry, opcode, fields, hvalue, ?_, of_decide_eq_true hentry'⟩
    unfold Clause.openFields
    rw [hcontent]
  refine ⟨?_, ?_, ?_, ?_⟩
  · intro instruction hinstruction
    obtain ⟨-, -, -, fields, rfl, -⟩ := hline instruction hinstruction
    exact Fields.namesRegisters_instruction
  · intro instruction hinstruction target htarget
    obtain ⟨entry, hentry, opcode, fields, rfl, hopen, -, hsymbol, -⟩ :=
      hline instruction hinstruction
    have hjump := (Instruction.operandBytes_of_target? htarget).1
    rw [Fields.opcode_instruction] at hjump
    obtain ⟨field, hfield, hvalue⟩ := Fields.target?_instruction (hsymbol hjump) htarget
    rw [← hopen] at hfield
    obtain ⟨before, after, hsplit, haddress, hlt⟩ :=
      h.exists_split_of_mem_openFields hentry hfield
    rw [hvalue, Nat.mod_eq_of_lt hlt, haddress]
    exact boundary_of_split hsplit hstructured
  · intro instruction hinstruction
    obtain ⟨-, -, opcode, fields, rfl, -, hjr, -⟩ := hline instruction hinstruction
    rw [Fields.opcode_instruction]
    exact hjr
  · intro instruction hinstruction hra
    obtain ⟨-, -, opcode, fields, rfl, -, -, -, hdestination⟩ := hline instruction hinstruction
    obtain ⟨hwrites, register, hfirst, hid⟩ := Fields.firstRegister?_of_written? hra
    refine hdestination hwrites ?_
    rw [hfirst, Register.id_injective hid]

end Assembly

end RegisterMachine
