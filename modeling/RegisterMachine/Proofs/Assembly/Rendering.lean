import RegisterMachine.Memory.Region
import RegisterMachine.Proofs.Assembly.OperandReading
import RegisterMachine.Proofs.Assembly.Resolution
import RegisterMachine.Proofs.Isa.LinearDecoding
import RegisterMachine.Proofs.Text.Decimal

/-!
# Rendering and assembling

Every instruction has a canonical line of source: its mnemonic, and its operands as register names
and decimal numerals between commas. Assembling a listing of such lines gives the encodings of the
instructions one after the other (`assemble_listing`), which is what linear decoding undoes. So the
assembler and the decoder are inverse to each other (`assembling_inverts_decoding`).

An operand of a line is given by its `Spelling`: its kind, its word, and its bytes. One lemma for
registers and one for literals says that the word reads as the bytes. The rest goes over lines whose
operands are spelled in any way that reads as the instruction (`Wording`), so it serves literals in
other bases as well (`assemble_wordings`).
-/

namespace RegisterMachine

open Assembly

/-- An operand in source text and in the image. -/
structure Spelling where
  kind : OperandKind
  word : List Char
  bytes : List UInt8

namespace Spelling

/-- A register by its name; an id past the last register has none. -/
def register (id : UInt8) : Spelling :=
  ⟨.register, ((Register.ofId? id).map fun register => register.name.toList).getD [], [id]⟩

/-- A literal as it stands, with the integer that it denotes. -/
def literal (kind : OperandKind) (word : List Char) (value : Int) : Spelling :=
  ⟨kind, word, LittleEndian.toBytes kind.width (value % LittleEndian.modulus kind.width).toNat⟩

/-- A number in decimal. -/
def numeral (kind : OperandKind) (n : Nat) : Spelling :=
  ⟨kind, Text.decimal n, LittleEndian.toBytes kind.width n⟩

end Spelling

namespace Instruction

/-- The operands of an instruction. -/
def spelling : Instruction → List Spelling
  | nop | halt | ret => []
  | syscall code => [.numeral .immediate8 code.toNat]
  | lcons dst value => [.register dst, .numeral .immediate32 value.toNat]
  | mov dst src | alu _ dst src => [.register dst, .register src]
  | push id | pop id | not id | jr id | skipz id | skipnz id => [.register id]
  | call target | jmp target => [.numeral .target target.toNat]
  | store address src => [.numeral .address address.toNat, .register src]
  | load dst address => [.register dst, .numeral .address address.toNat]

/-- The line of source that stands for an instruction, such as `lcons r0, 70000`. -/
def render (instruction : Instruction) : List Char :=
  Text.sentence instruction.opcode.mnemonic.toList (instruction.spelling.map Spelling.word)

/-- The source that stands for a list of instructions, one line each. -/
def listing (instructions : List Instruction) : String :=
  String.ofList (instructions.flatMap fun instruction => instruction.render ++ ['\n'])

/-- The operands of an instruction have the kinds that the table of its opcode has. -/
theorem map_kind_spelling (instruction : Instruction) :
    instruction.spelling.map Spelling.kind = instruction.opcode.operands := by
  cases instruction with
  | alu op dst src => cases op <;> rfl
  | _ => rfl

/-- The operands of an instruction have its operand bytes. -/
theorem flatMap_bytes_spelling (instruction : Instruction) :
    instruction.spelling.flatMap Spelling.bytes = instruction.operandBytes := by
  cases instruction with
  | alu op dst src => cases op <;> rfl
  | _ => simp [spelling, Spelling.register, Spelling.numeral, operandBytes, OperandKind.width,
      LittleEndian.toBytes]

end Instruction

/-! ## Operands -/

namespace Spelling

/-- An operand is spelled with a plain word, which reads as its bytes. -/
structure IsField (spelling : Spelling) : Prop where
  isWord : Text.IsWord spelling.word
  field : ∃ field : Field, field.kind = spelling.kind ∧ field.word.chars = spelling.word ∧
    field.operand = .bytes spelling.bytes

/-- The name of a register reads as its id. -/
theorem isField_register {id : UInt8} (h : id.toNat < Register.count) :
    (register id).IsField := by
  rcases hid : Register.ofId? id with _ | r
  · have hcount := Register.ofId?_eq_none_iff.mp hid
    omega
  · have hshort : Text.utf8Length r.name.toList ≤ Name.capacity := by
      cases r <;> decide
    have hreads : Operand.ofName .register ⟨r.name.toList, hshort⟩ = .ok (.bytes [r.id]) :=
      ofName_of_reads (.register (Register.ofName?_eq_some_iff.mp r.ofName?_name))
    have hname : (register id).word = r.name.toList := by
      unfold register
      rw [hid, Option.map_some, Option.getD_some]
    have hbytes : [r.id] = (register id).bytes :=
      congrArg ([·]) (Register.ofId?_eq_some_iff.mp hid)
    have hword : Text.IsWord r.name.toList := by
      cases r <;> exact Text.isWord_of_all (by decide) (by decide)
    exact ⟨hname ▸ hword, ⟨.register, _, _, hreads⟩, rfl, hname.symm, congrArg Operand.bytes hbytes⟩

/-- A literal reads as the bytes of its integer, if the field has room for it. -/
theorem isField_literal {kind : OperandKind} {width : Width} {word : List Char} {value : Int}
    (hwidth : literalWidth? kind = some width) (hvalue : Text.integer? word = some value)
    (hshort : Text.utf8Length word ≤ Name.capacity) (hlow : -2 ^ (width.bits - 1) ≤ value)
    (hhigh : value ≤ 2 ^ width.bits - 1) : (literal kind word value).IsField := by
  obtain ⟨-, -, hmodulus⟩ := width.range_eq
  have hbytes : LittleEndian.toBytes width.bytes (value % 2 ^ width.bits).toNat =
      (literal kind word value).bytes := by
    unfold literal
    rw [width_of_literalWidth? hwidth, ← hmodulus]
    rfl
  have hreads : Operand.ofName kind ⟨word, hshort⟩ = .ok (.bytes (literal kind word value).bytes) :=
    hbytes ▸ ofName_of_reads (.literal hwidth hvalue hlow hhigh)
  exact ⟨Text.isWord_of_integer? hvalue, ⟨kind, _, _, hreads⟩, rfl, rfl, rfl⟩

/-- A numeral reads as the bytes of its number, if the field has room for it. -/
theorem isField_numeral (kind : OperandKind) (width : Width)
    (hwidth : literalWidth? kind = some width) {n : Nat} (h : n < width.modulus) :
    (numeral kind n).IsField := by
  have hsmall : n < 4294967296 := by
    refine Nat.lt_of_lt_of_le h ?_
    cases width <;> decide
  have hshort : Text.utf8Length (Text.decimal n) ≤ Name.capacity :=
    Nat.le_trans (Text.utf8Length_decimal_le (by omega)) (by decide)
  have hvalue : Text.integer? (Text.decimal n) = some (n : Int) :=
    Text.integer?_decimal (Nat.le_trans (Nat.le_of_lt hsmall) (by decide))
  have hnumeral : numeral kind n = literal kind (Text.decimal n) n := by
    have hmod : n % LittleEndian.modulus width.bytes = n := Nat.mod_eq_of_lt h
    unfold numeral literal
    rw [width_of_literalWidth? hwidth, ← Int.natCast_emod, Int.toNat_natCast, hmod]
  obtain ⟨hminimum, hmaximum, -⟩ := width.range_eq
  rw [hnumeral]
  refine isField_literal hwidth hvalue hshort ?_ ?_
  · rw [← hminimum, Width.minimum]
    omega
  · rw [← hmaximum, Width.maximum]
    omega

/-- Operands that read as their bytes are the fields of a line. -/
theorem exists_fields {spellings : List Spelling} (h : ∀ spelling ∈ spellings, spelling.IsField) :
    ∃ fields : List Field, fields.map Field.kind = spellings.map kind ∧
      (fields.map fun field => field.word.chars) = spellings.map word ∧
      (∀ field ∈ fields, field.opens? = none) ∧
      ∀ addressOf, fields.flatMap (Field.bytes addressOf) = spellings.flatMap bytes := by
  induction spellings with
  | nil => exact ⟨[], rfl, rfl, by simp, fun _ => rfl⟩
  | cons spelling rest ih =>
    rw [List.forall_mem_cons] at h
    obtain ⟨field, hkind, hword, hoperand⟩ := h.1.field
    obtain ⟨fields, hkinds, hwords, hclosed, hbytes⟩ := ih h.2
    have hopens : field.opens? = none := by
      unfold Field.opens?
      rw [hoperand]
    have hfield (addressOf : List Char → Nat) : field.bytes addressOf = spelling.bytes := by
      unfold Field.bytes
      rw [hoperand]
    refine ⟨field :: fields, ?_, ?_, ?_, fun addressOf => ?_⟩
    · rw [List.map_cons, List.map_cons, hkind, hkinds]
    · rw [List.map_cons, List.map_cons, hword, hwords]
    · exact List.forall_mem_cons.mpr ⟨hopens, hclosed⟩
    · rw [List.flatMap_cons, List.flatMap_cons, hfield, hbytes]

end Spelling

namespace Instruction

/-- The operands of an instruction read as its operand bytes, if its registers exist. -/
theorem isField_of_mem_spelling {instruction : Instruction} (h : instruction.NamesRegisters) :
    ∀ spelling ∈ instruction.spelling, spelling.IsField := by
  have hregister {id : UInt8} (hid : id ∈ instruction.registerIds) :=
    Spelling.isField_register (h id hid)
  have hcode (code : UInt8) := Spelling.isField_numeral .immediate8 .byte rfl code.toNat_lt
  have htarget (target : UInt16) := Spelling.isField_numeral .target .half rfl target.toNat_lt
  have haddress (address : UInt16) := Spelling.isField_numeral .address .half rfl address.toNat_lt
  have hvalue (value : UInt32) := Spelling.isField_numeral .immediate32 .word rfl value.toNat_lt
  cases instruction <;> simp_all [spelling, registerIds]

/-! ## Lines -/

/-- A mnemonic is a word. -/
theorem isWord_mnemonic (opcode : Opcode) : Text.IsWord opcode.mnemonic.toList := by
  cases opcode <;> exact Text.isWord_of_all (by decide) (by decide)

/-- No mnemonic starts as a label does. -/
theorem head?_mnemonic_ne (opcode : Opcode) : opcode.mnemonic.toList.head? ≠ some '.' := by
  cases opcode <;> decide

/-- A mnemonic is short enough to be stored. -/
theorem short_mnemonic (opcode : Opcode) :
    Text.utf8Length opcode.mnemonic.toList ≤ Name.capacity := by
  cases opcode <;> decide

end Instruction

/-- An instruction with its operands spelled in some way. -/
structure Wording where
  instruction : Instruction
  operands : List Spelling
  /-- The operands have the kinds that the table of the opcode has. -/
  kinds : operands.map Spelling.kind = instruction.opcode.operands
  /-- Together they have the operand bytes of the instruction. -/
  bytes : operands.flatMap Spelling.bytes = instruction.operandBytes
  isField : ∀ spelling ∈ operands, spelling.IsField

namespace Wording

/-- The canonical wording of an instruction whose registers exist. -/
def canonical (instruction : Instruction) (h : instruction.NamesRegisters) : Wording :=
  ⟨instruction, instruction.spelling, instruction.map_kind_spelling,
    instruction.flatMap_bytes_spelling, Instruction.isField_of_mem_spelling h⟩

/-- The words of the operands. -/
def words (wording : Wording) : List (List Char) :=
  wording.operands.map Spelling.word

/-- The line of source. -/
def render (wording : Wording) : List Char :=
  Text.sentence wording.instruction.opcode.mnemonic.toList wording.words

/-- The source with one line for each wording. -/
def source (wordings : List Wording) : String :=
  String.ofList (wordings.flatMap fun wording => wording.render ++ ['\n'])

/-- The words of a wording are words. -/
theorem isWord_of_mem_words (wording : Wording) : ∀ word ∈ wording.words, Text.IsWord word := by
  intro word hmem
  obtain ⟨spelling, hspelling, rfl⟩ := List.mem_map.mp hmem
  exact (wording.isField spelling hspelling).isWord

/-- The line of an instruction reads as its opcode with its operand bytes. -/
theorem ofLine_render (wording : Wording) :
    ∃ name fields, Clause.ofLine wording.render =
        .ok (some ⟨name, .operation wording.instruction.opcode fields⟩) ∧
      fields.opened = [] ∧
      ∀ addressOf, fields.bytes addressOf = wording.instruction.operandBytes := by
  obtain ⟨list, hkinds, hwords, hclosed, hbytes⟩ := Spelling.exists_fields wording.isField
  rw [wording.kinds] at hkinds
  have hfields : Fields.ofWords wording.instruction.opcode wording.words =
      .ok ⟨list, hkinds⟩ := by
    unfold words
    rw [← hwords]
    exact Fields.ofWords_map_word ⟨list, hkinds⟩
  have hshort := Instruction.short_mnemonic wording.instruction.opcode
  have hname : Name.ofChars wording.instruction.opcode.mnemonic.toList = .ok ⟨_, hshort⟩ :=
    Name.ofChars_chars ⟨_, hshort⟩
  have hmnemonic := Instruction.isWord_mnemonic wording.instruction.opcode
  have hwords := wording.isWord_of_mem_words
  refine ⟨⟨_, hshort⟩, ⟨list, hkinds⟩, ?_, Fields.opened_of_closed hclosed, fun addressOf => ?_⟩
  · have hne : Text.sentence wording.instruction.opcode.mnemonic.toList wording.words ≠ [] :=
      Text.sentence_ne_nil hmnemonic
    unfold Clause.ofLine render
    dsimp only
    -- There is no comment and nothing to trim, and the first word is a mnemonic and no label.
    rw [Text.withoutComment_sentence hmnemonic hwords, Text.trim_sentence hmnemonic hwords,
      if_neg hne, Text.firstWord_sentence hmnemonic hwords,
      if_neg (Instruction.head?_mnemonic_ne _), Opcode.ofMnemonic?_mnemonic]
    dsimp only
    unfold Clause.ofOperation
    rw [Text.fields_listed hwords, hfields, hname]
    rfl
  · rw [← wording.bytes]
    exact hbytes addressOf

end Wording

/-! ## Listings -/

/-- The line of an instruction that refers to no symbol. -/
def Assembly.Clause.IsClosed (clause : Clause) : Prop :=
  clause.defines = false ∧ clause.openFields = []

/-- The lines of instructions read as clauses that have their bytes. -/
theorem exists_clausesOf (wordings : List Wording) (number : Nat) :
    ∃ clauses, clausesOf number (wordings.map Wording.render) = .ok clauses ∧
      clauses.length = wordings.length ∧ (∀ entry ∈ clauses, entry.2.IsClosed) ∧
      ∀ addressOf, imageOf addressOf clauses =
        Instruction.encodeAll (wordings.map Wording.instruction) := by
  induction wordings generalizing number with
  | nil => exact ⟨[], rfl, rfl, by simp, fun _ => rfl⟩
  | cons wording rest ih =>
    obtain ⟨name, fields, hread, hopened, hbytes⟩ := wording.ofLine_render
    obtain ⟨clauses, hclauses, hlength, hclosed, himage⟩ := ih (number + 1)
    refine ⟨(number + 1, ⟨name, .operation wording.instruction.opcode fields⟩) :: clauses, ?_, ?_,
      ?_, fun addressOf => ?_⟩
    · rw [List.map_cons, clausesOf, hread, hclauses]
      rfl
    · rw [List.length_cons, hlength, List.length_cons]
    · exact List.forall_mem_cons.mpr ⟨⟨rfl, hopened⟩, hclosed⟩
    · rw [imageOf_cons, himage, List.map_cons, Instruction.encodeAll_cons]
      exact congrArg (wording.instruction.opcode.byte :: · ++ _) (hbytes addressOf)

/-- Instructions can be added as long as there is room for statements. -/
theorem admitsAll_of_isClosed {assembler : Assembler} {clauses : List (Nat × Clause)}
    (h : ∀ entry ∈ clauses, entry.2.IsClosed)
    (hroom : assembler.capacities.statements.admits
      (assembler.statements.size + clauses.length) = true) :
    assembler.AdmitsAll clauses := by
  -- Closed clauses define nothing and store no constants, so only the statements need room.
  induction clauses generalizing assembler with
  | nil => trivial
  | cons entry rest ih =>
    rw [List.forall_mem_cons] at h
    rw [List.length_cons] at hroom
    have hdefines := h.1.1
    refine ⟨⟨?_, ?_, ?_, Limit.admits_of_le (by omega) hroom⟩, ih h.2 ?_⟩
    · rw [hdefines]
      rintro ⟨⟩
    · rw [hdefines]
      rintro ⟨⟩
    · intro width bytes hcontent
      unfold Clause.defines at hdefines
      rw [hcontent] at hdefines
      cases hdefines
    · unfold Assembler.extend
      rw [Array.size_push]
      refine Limit.admits_of_le ?_ hroom
      omega

/-- The room for a number of instructions with a length in bytes. -/
structure Room (capacities : Capacities) (size count length : Nat) : Prop where
  statements : capacities.statements.admits count = true
  /-- The image ends within the output buffer. -/
  buffer : length ≤ size
  /-- The image ends within the address space. -/
  addresses : length ≤ addressSpace

/-- The lines of a source are those of its wordings. -/
theorem lines_source (wordings : List Wording) :
    Text.lines (Wording.source wordings).toList = wordings.map Wording.render := by
  have hplain : ∀ line ∈ wordings.map Wording.render, '\n' ∉ line := by
    intro line hline hmem
    obtain ⟨wording, -, rfl⟩ := List.mem_map.mp hline
    exact (Text.ne_of_mem_sentence (Instruction.isWord_mnemonic _) wording.isWord_of_mem_words
      hmem).2 rfl
  unfold Wording.source
  rw [String.toList_ofList, ← Text.lines_flatMap hplain, List.flatMap_map]

/-- Instructions fit when the end of their image does, since each of them takes a byte at least. -/
theorem fits_of_room {capacities : Capacities} {clauses : List (Nat × Clause)} {size length : Nat}
    (himage : (imageOf (fun _ => 0) clauses).length = length)
    (hclosed : ∀ entry ∈ clauses, entry.2.IsClosed) (hsize : length ≤ size)
    (haddresses : length ≤ addressSpace) : (Assembler.ofClauses capacities clauses).Fits size := by
  rw [Assembler.fits_ofClauses_iff]
  rintro front ⟨number, name, content⟩ back rfl
  rw [imageOf_append, imageOf_cons, List.length_append, List.length_append] at himage
  have hpos : 0 < (Clause.bytes (fun _ => 0) ⟨name, content⟩).length := by
    have hdefines := (hclosed _ List.mem_append_cons_self).1
    rcases content with ⟨opcode, fields⟩ | _ | _ | _
    · exact Nat.succ_pos _
    · cases hdefines
    · cases hdefines
    · cases hdefines
  unfold addressSpace at haddresses
  dsimp only at himage ⊢
  exact ⟨by omega, by omega⟩

/-- However its operands are spelled, a source assembles to the encodings of its instructions. -/
theorem assemble_wordings (wordings : List Wording) (buffer : Array UInt8) (assembler : Assembler)
    (hroom : Room assembler.capacities buffer.size wordings.length
      (Instruction.encodeAll (wordings.map Wording.instruction)).length) :
    ∃ program final,
      (Assembler.assemble (Wording.source wordings) buffer).run assembler = .ok program final ∧
      program.image = Instruction.encodeAll (wordings.map Wording.instruction) := by
  obtain ⟨clauses, hclauses, hlength, hclosed, himage⟩ := exists_clausesOf wordings 0
  have hadmits : (Assembler.empty assembler.capacities).AdmitsAll clauses := by
    refine admitsAll_of_isClosed hclosed ?_
    rw [hlength]
    exact (Nat.zero_add wordings.length).symm ▸ hroom.statements
  have hfits : (Assembler.ofClauses assembler.capacities clauses).Fits buffer.size :=
    fits_of_room (congrArg List.length (himage _)) hclosed hroom.buffer hroom.addresses
  have hresolves : ∀ statement ∈
      (Assembler.ofClauses assembler.capacities clauses).statements.toList, statement.Resolves
        (Assembler.ofClauses assembler.capacities clauses).settled.symbols := by
    refine Assembler.resolves_ofClauses_iff.mpr fun entry hmem field hfield => ?_
    rw [(hclosed entry hmem).2] at hfield
    cases hfield
  -- There are no more lines than bytes, so the lines can be numbered.
  have hlines : (wordings.map Wording.render).length ≤ Assembler.maxLine := by
    have hle := Instruction.length_le_length_encodeAll (wordings.map Wording.instruction)
    rw [List.length_map] at hle ⊢
    exact Nat.le_trans hle (Nat.le_trans hroom.addresses (by decide))
  refine ⟨(Assembler.ofClauses assembler.capacities clauses).program buffer,
    (Assembler.ofClauses assembler.capacities clauses).settled,
    Assembler.assemble_run_eq_ok_iff.mpr ?_, ?_⟩
  · rw [lines_source wordings]
    exact ⟨hlines, clauses, hclauses, hadmits, hfits, hresolves, rfl, rfl⟩
  · rw [(Assembler.settles_ofClauses hadmits hfits hresolves).image, himage]

/-- A listing assembles to the encodings of its instructions. -/
theorem assemble_listing {instructions : List Instruction} {buffer : Array UInt8}
    {assembler : Assembler} (h : ∀ instruction ∈ instructions, instruction.NamesRegisters)
    (hroom : Room assembler.capacities buffer.size instructions.length
      (Instruction.encodeAll instructions).length) :
    ∃ program final,
      (Assembler.assemble (Instruction.listing instructions) buffer).run assembler =
        .ok program final ∧
      program.image = Instruction.encodeAll instructions := by
  have hinstructions : (instructions.pmap Wording.canonical h).map Wording.instruction =
      instructions := by
    rw [List.map_pmap]
    exact (List.pmap_eq_map h).trans (List.map_id _)
  have hlisting : Wording.source (instructions.pmap Wording.canonical h) =
      Instruction.listing instructions := by
    have hlines : (instructions.pmap Wording.canonical h).map Wording.render =
        instructions.map Instruction.render := by
      rw [List.map_pmap]
      change instructions.pmap (fun instruction _ => instruction.render) h = _
      exact List.pmap_eq_map h
    unfold Wording.source Instruction.listing
    rw [← List.flatMap_map Wording.render fun line => line ++ ['\n'], hlines, List.flatMap_map]
  have hassembled := assemble_wordings (instructions.pmap Wording.canonical h) buffer assembler
  rw [hinstructions, hlisting, List.length_pmap] at hassembled
  exact hassembled hroom

/-- The assembler and linear decoding are inverse to each other. Instructions that are rendered and
assembled decode as they were, and bytes that split into instructions are assembled from their
rendering as they were. -/
theorem assembling_inverts_decoding (assembler : Assembler) (buffer : Array UInt8) :
    (∀ instructions : List Instruction,
      (∀ instruction ∈ instructions, instruction.NamesRegisters) →
      Room assembler.capacities buffer.size instructions.length
        (Instruction.encodeAll instructions).length →
      ∃ program final,
        (Assembler.assemble (Instruction.listing instructions) buffer).run assembler =
          .ok program final ∧
        Instruction.decodeAll program.image = some instructions) ∧
    ∀ (bytes : List UInt8) (instructions : List Instruction),
      Instruction.decodeAll bytes = some instructions →
      (∀ instruction ∈ instructions, instruction.NamesRegisters) →
      Room assembler.capacities buffer.size instructions.length bytes.length →
      ∃ program final,
        (Assembler.assemble (Instruction.listing instructions) buffer).run assembler =
          .ok program final ∧
        program.image = bytes := by
  constructor
  · intro instructions h hroom
    obtain ⟨program, final, hrun, himage⟩ := assemble_listing h hroom
    exact ⟨program, final, hrun, Instruction.decodeAll_eq_some_iff.mpr himage⟩
  · intro bytes instructions hdecode h hroom
    rw [Instruction.decodeAll_eq_some_iff] at hdecode
    rw [hdecode] at hroom ⊢
    exact assemble_listing h hroom

/-- Three instructions that are rendered and assembled, and their bytes. -/
theorem assembling_inverts_decoding_lcons_add_halt :
    (∃ program final,
      (Assembler.assemble (Instruction.listing [.lcons 0 70000, .alu .add 0 5, .halt])
        (Array.replicate 12 9)).run (.empty ⟨some 3, some 0, some 0⟩) = .ok program final ∧
      Instruction.decodeAll program.image = some [.lcons 0 70000, .alu .add 0 5, .halt]) ∧
    ∃ program final,
      (Assembler.assemble (Instruction.listing [.lcons 0 70000, .alu .add 0 5, .halt])
        (Array.replicate 12 9)).run (.empty ⟨some 3, some 0, some 0⟩) = .ok program final ∧
      program.image = [3, 0, 112, 17, 1, 0, 11, 0, 5, 1] := by
  have hregisters : ∀ instruction ∈ [Instruction.lcons 0 70000, .alu .add 0 5, .halt],
      instruction.NamesRegisters := by
    simp [Instruction.NamesRegisters, Instruction.registerIds, Register.count]
  have hdecode : Instruction.decodeAll [3, 0, 112, 17, 1, 0, 11, 0, 5, 1] =
      some [.lcons 0 70000, .alu .add 0 5, .halt] :=
    Instruction.decodeAll_eq_some_iff.mpr (by decide)
  constructor
  · exact (assembling_inverts_decoding (.empty ⟨some 3, some 0, some 0⟩) (Array.replicate 12 9)).1
      _ hregisters ⟨by decide, by decide, by decide⟩
  · exact (assembling_inverts_decoding (.empty ⟨some 3, some 0, some 0⟩) (Array.replicate 12 9)).2
      _ _ hdecode hregisters ⟨by decide, by decide, by decide⟩

end RegisterMachine
