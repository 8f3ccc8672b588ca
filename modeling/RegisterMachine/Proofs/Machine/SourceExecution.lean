import RegisterMachine.Proofs.Assembly.Operations

/-!
# Execution follows the source

A checked machine runs the image of a structured source. Whatever it does and whatever its host does
in between, short of changing `ip` or `ra`, it is at an instruction of the source or at the end of
the image, it can return to the start or behind a call of the source only, and what it fetches are
the instructions of the source with symbols replaced by their addresses.

The machines that come about so are a `Session`, and what is to hold of each of them is `Follows`.
The image of the source is closed code (`Settles.closed`), so the machines of a session are on
course in it (`Session.onCourse`), and what holds on course of the code is carried over to the
statements of the source by their addresses (`OnCourse.follows`).
-/

namespace RegisterMachine

open Assembly (Assembler Clause Program Settles Statement instructionsOf isStructured)
open Instruction (encodeAll)

variable {σ : Type}

/-! ## Sessions -/

namespace Machine

/-- What a host may change: anything but ROM, the policy, `ip` and `ra`, and it may install handlers
that leave `ra` alone. -/
structure Spares (machine machine' : Machine σ) : Prop where
  policy : machine'.policy = machine.policy
  rom : machine'.rom = machine.rom
  ip : machine'.register .ip = machine.register .ip
  ra : machine'.register .ra = machine.register .ra
  handler : ∀ handler ∈ machine'.handler, handler.KeepsReturnAddress

/-- The machines that come about from a new checked one by runs and by what its host does between
them. The states on the way of a run are among them, as those in which an unlimited run has used up
its fuel. -/
inductive Session (rom ram : Region) (stackSize : UInt16) : Machine σ → Prop where
  | create : Session rom ram stackSize (create .checked rom ram stackSize)
  | run {machine : Machine σ} (h : Session rom ram stackSize machine) (fuel : Nat)
      (programSize : UInt16) (budget : UInt32) :
      Session rom ram stackSize (ending ((run fuel programSize budget).run machine))
  | host {machine machine' : Machine σ} (h : Session rom ram stackSize machine)
      (hspares : machine.Spares machine') : Session rom ram stackSize machine'
  | reset {machine : Machine σ} (h : Session rom ram stackSize machine) :
      Session rom ram stackSize machine.reset

/-- The machines of a session are on course in closed code. -/
theorem Session.onCourse {code : List Instruction} (hclosed : Closed code) {rom ram : Region}
    (hrom : rom.bytes.toList = encodeAll code) {stackSize : UInt16} {machine : Machine σ}
    (h : Session rom ram stackSize machine) : OnCourse code machine := by
  induction h with
  | create => exact onCourse_reset rfl hrom fun handler hmem => (nomatch hmem)
  | run _ fuel programSize budget ih => exact ih.ending_run hclosed fuel programSize budget
  | host _ hspares ih =>
    refine ⟨?_, ?_, ?_, ?_, hspares.handler⟩
    · rw [hspares.policy]
      exact ih.policy
    · rw [hspares.rom]
      exact ih.rom
    · rw [hspares.ip]
      exact ih.ip
    · rw [hspares.ra]
      exact ih.ra
  | reset _ ih => exact onCourse_reset ih.policy ih.rom ih.handler

end Machine

/-! ## Statements and their instructions -/

namespace Assembly

/-- The opcode of a statement that is an instruction. -/
def Statement.opcode? (statement : Statement) : Option Opcode :=
  match statement.body with
  | .operation opcode _ _ _ => some opcode
  | .label | .constants _ _ _ | .reservation _ _ => none

/-- The address after a statement that is an instruction. -/
def Statement.addressAfter (statement : Statement) (opcode : Opcode) : UInt32 :=
  statement.address.toUInt32 + UInt32.ofNat opcode.encodedLength

/-- A statement with an opcode comes from a clause with an operation. -/
theorem Clause.opcode?_statement {clause : Clause} {number start : Nat} {opcode : Opcode}
    (h : (clause.statement number start).opcode? = some opcode) :
    ∃ fields : Fields opcode, clause.content = .operation opcode fields := by
  obtain ⟨name, ⟨opcode', fields⟩ | _ | _ | _⟩ := clause
  · cases h
    exact ⟨fields, rfl⟩
  · cases h
  · cases h
  · cases h

/-- The address after a statement is not wrapped around. -/
theorem Statement.toNat_addressAfter (statement : Statement) (opcode : Opcode) :
    (statement.addressAfter opcode).toNat = statement.address.toNat + opcode.encodedLength := by
  have haddress := statement.address.toNat_lt
  have hlength := opcode.operandBytes_le
  unfold Opcode.maxOperandBytes at hlength
  unfold addressAfter Opcode.encodedLength
  rw [UInt32.toNat_add, UInt32.toNat_ofNat', UInt16.toNat_toUInt32]
  omega

section

variable {clauses : List (Nat × Clause)} {buffer : Array UInt8} {program : Program}
  {final : Assembler}

/-- Where an instruction stands in the code, a statement of the source has its address. -/
theorem Settles.exists_statement (h : Settles clauses buffer program final)
    (hstructured : ∀ entry ∈ clauses, entry.2.isStructured = true) {front back : List Instruction}
    {instruction : Instruction}
    (hcode : instructionsOf final.symbols.addressOf clauses = front ++ instruction :: back) :
    ∃ statement ∈ final.statements, statement.opcode? = some instruction.opcode ∧
      statement.address.toNat = (encodeAll front).length := by
  obtain ⟨before, ⟨number, clause⟩, after, hsplit, hbefore, hinstruction⟩ :=
    exists_split_of_instructionsOf hcode
  obtain ⟨opcode, fields, hcontent, rfl⟩ := Clause.operation_of_instruction? hinstruction
  obtain ⟨start, address, hstatement, -, hlength, -⟩ :=
    h.statement before number clause after hsplit
  refine ⟨_, Array.mem_of_getElem? hstatement, ?_, ?_⟩
  · unfold Statement.opcode? Clause.statement Clause.body
    rw [hcontent, Fields.opcode_instruction]
  · rw [hlength, imageOf_eq_encodeAll fun entry hmem => hstructured entry (by
      rw [hsplit]
      exact List.mem_append_left _ hmem), hbefore]

/-- Where a statement of the source has its address, its instruction stands in the code. -/
theorem Settles.exists_split_of_statement (h : Settles clauses buffer program final)
    (hstructured : ∀ entry ∈ clauses, entry.2.isStructured = true) {statement : Statement}
    (hmem : statement ∈ final.statements) {opcode : Opcode}
    (hopcode : statement.opcode? = some opcode) :
    ∃ front instruction back,
      instructionsOf final.symbols.addressOf clauses = front ++ instruction :: back ∧
      statement.address.toNat = (encodeAll front).length ∧ instruction.opcode = opcode ∧
      instruction.encode = statement.bytes final.symbols final.pool := by
  obtain ⟨i, hi⟩ := Array.getElem?_of_mem hmem
  have hlt : i < clauses.length := by
    rw [← h.count]
    exact (Array.getElem?_eq_some_iff.mp hi).1
  have hsplit : clauses = clauses.take i ++ clauses[i] :: clauses.drop (i + 1) := by
    rw [List.getElem_cons_drop, List.take_append_drop]
  obtain ⟨start, address, hstatement, hheld, hlength, -⟩ :=
    h.statement (clauses.take i) clauses[i].1 clauses[i].2 (clauses.drop (i + 1)) hsplit
  rw [List.length_take, Nat.min_eq_left (Nat.le_of_lt hlt), hi, Option.some.injEq] at hstatement
  -- The statement is that of the clause at its place, with an address.
  subst hstatement
  have hoperation : (clauses[i].2.statement clauses[i].1 start).opcode? = some opcode := hopcode
  obtain ⟨fields, hcontent⟩ := Clause.opcode?_statement hoperation
  have hinstruction : clauses[i].2.instruction? final.symbols.addressOf =
      some (fields.instruction final.symbols.addressOf) := by
    unfold Clause.instruction?
    rw [hcontent]
  refine ⟨_, _, _, instructionsOf_of_split hsplit hinstruction, ?_, Fields.opcode_instruction, ?_⟩
  · rw [hlength, imageOf_eq_encodeAll fun entry hentry => hstructured entry
      (List.mem_of_mem_take hentry)]
  · rw [Instruction.encode, Fields.opcode_instruction, Fields.operandBytes_instruction]
    have hbytes : (clauses[i].2.statement clauses[i].1 start).bytes final.symbols final.pool =
        clauses[i].2.bytes final.symbols.addressOf := Clause.bytes_statement final.symbols hheld
    unfold Clause.bytes at hbytes
    rw [hcontent] at hbytes
    exact hbytes.symm

end

end Assembly

namespace Machine

variable {program : Program} {final : Assembler} {machine : Machine σ}

/-- The machine is where the program of a source says. -/
structure Follows (program : Program) (final : Assembler) (machine : Machine σ) : Prop where
  /-- The instruction pointer is the address of an instruction of the source, or the end of the
  image. -/
  ip : (∃ statement ∈ final.statements, statement.opcode?.isSome = true ∧
      machine.register .ip = statement.address.toUInt32) ∨
    (machine.register .ip).toNat = program.romSize
  /-- The return address is zero, or the address after a call of the source. -/
  ra : machine.register .ra = 0 ∨
    ∃ statement ∈ final.statements, statement.opcode? = some .call ∧
      machine.register .ra = statement.addressAfter .call
  /-- At the address of an instruction of the source, what is fetched is this instruction with
  symbols replaced by their addresses. -/
  fetches : ∀ statement ∈ final.statements, ∀ opcode, statement.opcode? = some opcode →
    machine.register .ip = statement.address.toUInt32 →
    ∃ instruction, instruction.opcode = opcode ∧
      instruction.encode = statement.bytes final.symbols final.pool ∧
      Exec.fetch.run machine = .ok (instruction, statement.addressAfter opcode) machine
  /-- A fetch fails at the end of the image only, so no instruction is cut off. -/
  ends : ∀ fault last, Exec.fetch.run machine = .error fault last →
    (machine.register .ip).toNat = program.romSize ∧
      fault = .invalidAddress (machine.register .ip)

section

variable {clauses : List (Nat × Clause)} {buffer : Array UInt8}

/-- The image of structured clauses ends where their code does. -/
theorem romSize_eq (hsettles : Settles clauses buffer program final)
    (hstructured : ∀ entry ∈ clauses, entry.2.isStructured = true) :
    program.romSize = (encodeAll (instructionsOf final.symbols.addressOf clauses)).length := by
  rw [hsettles.romSize, Assembly.imageOf_eq_encodeAll hstructured]

/-- The boundaries of the code are the addresses of the instructions of the source, and the end of
the image. -/
theorem address_of_boundary (hsettles : Settles clauses buffer program final)
    (hstructured : ∀ entry ∈ clauses, entry.2.isStructured = true) {address : UInt32}
    (h : Boundary (instructionsOf final.symbols.addressOf clauses) address.toNat) :
    (∃ statement ∈ final.statements, statement.opcode?.isSome = true ∧
      address = statement.address.toUInt32) ∨ address.toNat = program.romSize := by
  rcases h.eq_end_or_start with hend | ⟨front, instruction, back, hcode, hstart⟩
  · right
    rw [hend, romSize_eq hsettles hstructured]
  · left
    obtain ⟨statement, hmem, hopcode, haddress⟩ := hsettles.exists_statement hstructured hcode
    refine ⟨statement, hmem, ?_, ?_⟩
    · rw [hopcode]
      rfl
    · apply UInt32.toNat_inj.mp
      rw [UInt16.toNat_toUInt32, haddress, hstart]

/-- The return addresses of the code are zero and the addresses after the calls of the source. -/
theorem address_of_returnAddress (hsettles : Settles clauses buffer program final)
    (hstructured : ∀ entry ∈ clauses, entry.2.isStructured = true) {address : UInt32}
    (h : ReturnAddress (instructionsOf final.symbols.addressOf clauses) address) :
    address = 0 ∨ ∃ statement ∈ final.statements, statement.opcode? = some .call ∧
      address = statement.addressAfter .call := by
  rcases h with hzero | ⟨front, target, back, hcode, hafter⟩
  · exact .inl hzero
  · right
    obtain ⟨statement, hmem, hopcode, haddress⟩ := hsettles.exists_statement hstructured hcode
    refine ⟨statement, hmem, hopcode, ?_⟩
    apply UInt32.toNat_inj.mp
    rw [statement.toNat_addressAfter, haddress, hafter, Instruction.length_encodeAll_concat]
    rfl

/-- At the address of an instruction of the source a machine on course fetches it. -/
theorem OnCourse.fetch_of_statement (hsettles : Settles clauses buffer program final)
    (hstructured : ∀ entry ∈ clauses, entry.2.isStructured = true)
    (h : OnCourse (instructionsOf final.symbols.addressOf clauses) machine) {statement : Statement}
    (hmem : statement ∈ final.statements) {opcode : Opcode}
    (hopcode : statement.opcode? = some opcode)
    (hip : machine.register .ip = statement.address.toUInt32) :
    ∃ instruction, instruction.opcode = opcode ∧
      instruction.encode = statement.bytes final.symbols final.pool ∧
      Exec.fetch.run machine = .ok (instruction, statement.addressAfter opcode) machine := by
  obtain ⟨front, instruction, back, hcode, haddress, hsame, hencode⟩ :=
    hsettles.exists_split_of_statement hstructured hmem hopcode
  have hstart : (machine.register .ip).toNat = (encodeAll front).length := by
    rw [hip, UInt16.toNat_toUInt32, haddress]
  obtain ⟨next, hfetched, hnext⟩ := h.fetched_of_split hcode hstart
  have hafter : next = statement.addressAfter opcode := by
    apply UInt32.toNat_inj.mp
    rw [statement.toNat_addressAfter, haddress, hnext, Instruction.length_encodeAll_concat, hsame]
  refine ⟨instruction, hsame, hencode, ?_⟩
  rw [fetch_run, hfetched, hafter]
  rfl

/-- A machine on course in the code of a source is where its program says. -/
theorem OnCourse.follows (hsettles : Settles clauses buffer program final)
    (hstructured : ∀ entry ∈ clauses, entry.2.isStructured = true)
    (h : OnCourse (instructionsOf final.symbols.addressOf clauses) machine) :
    Follows program final machine := by
  refine ⟨address_of_boundary hsettles hstructured h.ip,
    address_of_returnAddress hsettles hstructured h.ra, ?_, ?_⟩
  · intro statement hmem opcode hopcode hip
    exact h.fetch_of_statement hsettles hstructured hmem hopcode hip
  · intro fault last hfault
    rw [fetch_run] at hfault
    rcases h.ip.eq_end_or_start with hend | ⟨front, instruction, back, hcode, hip⟩
    · rw [h.fetched_of_end hend] at hfault
      cases hfault
      rw [hend, romSize_eq hsettles hstructured]
      exact ⟨rfl, rfl⟩
    · obtain ⟨next, hfetched, -⟩ := h.fetched_of_split hcode hip
      rw [hfetched] at hfault
      cases hfault

end

/-- Whatever the structured source, the regions, and the course of the session: a checked machine
that runs the image of the source follows it, and so does each run that ends in a fault. No run
finds a byte that is no opcode or an id that is no register. -/
theorem execution_follows_source {source : String} {buffer : Array UInt8}
    {assembler : Assembler}
    (hassemble : (Assembler.assemble source buffer).run assembler = .ok program final)
    (hstructured : isStructured source = true) {rom ram : Region}
    (hrom : rom.bytes.toList = program.image) {stackSize : UInt16}
    (hsession : Session rom ram stackSize machine) :
    Follows program final machine ∧
      ∀ fuel programSize budget fault last,
        (run fuel programSize budget).run machine = .error fault last →
          Follows program final last ∧ (∀ byte, fault ≠ .unknownOpcode byte) ∧
            ∀ id, fault ≠ .invalidRegister id := by
  obtain ⟨-, clauses, hclauses, hadmits, hfits, hresolves, rfl, rfl⟩ :=
    Assembler.assemble_run_eq_ok_iff.mp hassemble
  have hsettles := Assembler.settles_ofClauses hadmits hfits hresolves
  have hall : ∀ entry ∈ clauses, entry.2.isStructured = true := by
    unfold isStructured at hstructured
    rw [hclauses] at hstructured
    exact List.all_eq_true.mp hstructured
  have hclosed := hsettles.closed hall
  rw [hsettles.image, Assembly.imageOf_eq_encodeAll hall] at hrom
  have honCourse := hsession.onCourse hclosed hrom
  -- The machine that a faulty run leaves is on course as well, and so is one of the session.
  refine ⟨honCourse.follows hsettles hall, fun fuel programSize budget fault last hrun => ?_⟩
  have hlast := honCourse.ending_run hclosed fuel programSize budget
  rw [hrun] at hlast
  have hfault := honCourse.isMalformed_run hclosed hrun
  refine ⟨hlast.follows hsettles hall, ?_, ?_⟩
  · rintro byte rfl
    cases hfault
  · rintro id rfl
    cases hfault

/-- A source with a call forward and a jump back, a reservation between its lines, and a write to
`ip` that is of no account. -/
def callAndLoop : String :=
  ".loop:\ncall .f\nskipnz r0\njmp .loop ; on\nhalt\n$s DV8 4\n\n.f:\nadd t0, t0\nlcons ip, .f\nret"

/-- ROM with the image of `callAndLoop`. -/
def callAndLoopRom : Region :=
  ⟨0, #[7, 9, 0, 25, 0, 22, 0, 0, 1, 11, 6, 6, 3, 16, 9, 0, 0, 0, 8], by decide⟩

/-- A machine in the middle of a run of `callAndLoop` follows it. -/
theorem execution_follows_source_callAndLoop :
    ∃ program final,
      (Assembler.assemble callAndLoop (Array.replicate 40 0)).run (.empty ⟨none, none, none⟩) =
        .ok program final ∧
      isStructured callAndLoop = true ∧ callAndLoopRom.bytes.toList = program.image ∧
      Follows program final (ending ((run 5 0 0).run
        (create .checked callAndLoopRom ⟨0x8000, Array.replicate 16 0, by decide⟩ 16 :
          Machine Unit))) := by
  have hstructured : isStructured callAndLoop = true := by decide +kernel
  have himage : (match (Assembler.assemble callAndLoop (Array.replicate 40 0)).run
      (.empty ⟨none, none, none⟩) with
      | .ok program _ => program.image
      | .error _ _ => []) = callAndLoopRom.bytes.toList := by decide +kernel
  rcases hassemble : (Assembler.assemble callAndLoop (Array.replicate 40 0)).run
    (.empty ⟨none, none, none⟩) with ⟨program, final⟩ | ⟨_, _⟩
  · rw [hassemble] at himage
    exact ⟨program, final, rfl, hstructured, himage.symm,
      (execution_follows_source hassemble hstructured himage.symm (Session.create.run 5 0 0)).1⟩
  · rw [hassemble] at himage
    cases himage

end Machine

end RegisterMachine
