import RegisterMachine.Proofs.Assembly.Limits
import RegisterMachine.Proofs.Assembly.OperandReading
import RegisterMachine.Proofs.Assembly.Residue

/-!
# What instruction lines are accepted

An instruction line is a name of an opcode, in any case of its letters, and the operands of its
table. It is accepted exactly when it has as many operands as the table and each of them reads
(`ReadsAll`). Its statement has the bytes of the operands, with zeros where a symbol will be
(`StandsFor`). A line is refused for the number of its operands, or else for the first of them that
does not read (`Blames`), and that leaves no trace (`operation_lines_are_read_exactly`).
-/

namespace RegisterMachine

/-! ## Names of opcodes -/

namespace Opcode

/-- The mnemonic, and the alias if there is one. -/
def names (opcode : Opcode) : List String :=
  opcode.mnemonic :: opcode.alias?.toList

/-- A word names an opcode, whatever the case of its ASCII letters. -/
def IsNamed (opcode : Opcode) (word : List Char) : Prop :=
  ∃ name ∈ opcode.names, word.map Char.toLower = name.toList

/-- The names are in lower case and short, and they start with no dot. -/
theorem names_plain (opcode : Opcode) : ∀ name ∈ opcode.names,
    name.toList.map Char.toLower = name.toList ∧ name.toList ≠ [] ∧
      name.toList.head? ≠ some '.' ∧ Text.utf8Length name.toList ≤ Assembly.Name.capacity ∧
      ofMnemonic? name.toList = some opcode := by
  cases opcode <;> decide

/-- A word is looked up as no other opcode than one that it names. -/
theorem isNamed_of_ofMnemonic? {opcode : Opcode} {word : List Char}
    (h : ofMnemonic? word = some opcode) : opcode.IsNamed word := by
  have hanswers : opcode.answersTo (word.map Char.toLower) = true :=
    List.find?_some (p := fun opcode : Opcode => opcode.answersTo (word.map Char.toLower)) h
  unfold answersTo at hanswers
  rw [Bool.or_eq_true] at hanswers
  rcases hanswers with hmnemonic | halias
  · exact ⟨opcode.mnemonic, List.mem_cons_self, (beq_iff_eq.mp hmnemonic).symm⟩
  · obtain ⟨name, hname, hmatch⟩ := (Option.any_eq_true _ _).mp halias
    exact ⟨name, List.mem_cons_of_mem _ (Option.mem_toList.mpr hname), (beq_iff_eq.mp hmatch).symm⟩

/-- A word that is marked as data names no opcode. -/
theorem ofMnemonic?_of_dollar {word : List Char} (h : word.head? = some '$') :
    ofMnemonic? word = none := by
  rw [Option.eq_none_iff_forall_ne_some]
  intro opcode hopcode
  obtain ⟨name, hmem, hfolded⟩ := isNamed_of_ofMnemonic? hopcode
  have hplain : ∀ name ∈ opcode.names, name.toList.head? ≠ some '$' := by
    cases opcode <;> decide
  refine hplain name hmem ?_
  rw [← hfolded, List.head?_map, h]
  rfl

end Opcode

/-- Folding the case of ASCII letters keeps the bytes that a character takes. -/
theorem Text.utf8Size_toLower (c : Char) : c.toLower.utf8Size = c.utf8Size := by
  unfold Char.toLower
  split
  · rename_i h
    have hhigh : c.val.toNat ≤ 90 := UInt32.le_iff_toNat_le.mp h.2
    have hoffset : ('a'.val - 'A'.val).toNat = 32 := rfl
    have hascii : (127 : UInt32).toNat = 127 := rfl
    rw [Char.utf8Size_eq_one_iff.mpr (UInt32.le_trans h.2 (by decide)), Char.utf8Size_eq_one_iff,
      UInt32.le_iff_toNat_le, UInt32.toNat_add]
    omega
  · rfl

/-- Folding the case of ASCII letters keeps the length of a text. -/
theorem Text.utf8Length_map_toLower (word : List Char) :
    Text.utf8Length (word.map Char.toLower) = Text.utf8Length word := by
  induction word with
  | nil => rfl
  | cons c word ih =>
    rw [List.map_cons, Text.utf8Length_cons, Text.utf8Length_cons, ih, Text.utf8Size_toLower]

namespace Opcode.IsNamed

variable {opcode : Opcode} {word : List Char}

/-- A word that names an opcode is looked up as that opcode. -/
theorem ofMnemonic? (h : opcode.IsNamed word) : Opcode.ofMnemonic? word = some opcode := by
  obtain ⟨name, hmem, hfolded⟩ := h
  obtain ⟨hlower, -, -, -, hlookup⟩ := opcode.names_plain name hmem
  rw [← hlookup]
  unfold Opcode.ofMnemonic?
  rw [hfolded, hlower]

/-- A name of an opcode is not too long for a word. -/
theorem short (h : opcode.IsNamed word) : Text.utf8Length word ≤ Assembly.Name.capacity := by
  obtain ⟨name, hmem, hfolded⟩ := h
  rw [← Text.utf8Length_map_toLower, hfolded]
  exact (opcode.names_plain name hmem).2.2.2.1

/-- A name of an opcode is no label. -/
theorem head?_ne (h : opcode.IsNamed word) : word.head? ≠ some '.' := by
  obtain ⟨name, hmem, hfolded⟩ := h
  intro hhead
  refine (opcode.names_plain name hmem).2.2.1 ?_
  rw [← hfolded, List.head?_map, hhead]
  rfl

/-- A name of an opcode is not empty. -/
theorem ne_nil (h : opcode.IsNamed word) : word ≠ [] := by
  obtain ⟨name, hmem, hfolded⟩ := h
  rintro rfl
  exact (opcode.names_plain name hmem).2.1 hfolded.symm

end Opcode.IsNamed

namespace Assembly

/-! ## Operands of a line -/

/-- What the words of a line read as, one for each operand of the table. -/
inductive ReadsAll : List OperandKind → List (List Char) → List Operand → Prop where
  | nil : ReadsAll [] [] []
  | cons {kind : OperandKind} {word : List Char} {operand : Operand} {kinds : List OperandKind}
      {words : List (List Char)} {operands : List Operand}
      (hshort : Text.utf8Length word ≤ Name.capacity) (hreads : Reads kind word operand)
      (hrest : ReadsAll kinds words operands) :
      ReadsAll (kind :: kinds) (word :: words) (operand :: operands)

/-- Why the first word of a line is refused that does not read. -/
inductive RefusesFirst : List OperandKind → List (List Char) → Cause → Prop where
  | here {kind : OperandKind} {word : List Char} {cause : Cause} {kinds : List OperandKind}
      {words : List (List Char)} (hrefuses : Refuses kind word cause) :
      RefusesFirst (kind :: kinds) (word :: words) cause
  | later {kind : OperandKind} {word : List Char} {operand : Operand} {cause : Cause}
      {kinds : List OperandKind} {words : List (List Char)}
      (hshort : Text.utf8Length word ≤ Name.capacity) (hreads : Reads kind word operand)
      (hrest : RefusesFirst kinds words cause) :
      RefusesFirst (kind :: kinds) (word :: words) cause

/-- Why an operation line is refused. -/
inductive Blames (opcode : Opcode) (words : List (List Char)) : Cause → Prop where
  | count (hcount : words.length ≠ opcode.operands.length) :
      Blames opcode words (.badParameterCount opcode.operands.length words.length)
  | word {cause : Cause} (hcount : words.length = opcode.operands.length)
      (hfirst : RefusesFirst opcode.operands words cause) : Blames opcode words cause

section

variable {kinds : List OperandKind} {words : List (List Char)} {operands : List Operand}
  {kind : OperandKind} {word : List Char} {operand : Operand} {cause : Cause} {opcode : Opcode}

/-- There are as many words as operands. -/
theorem ReadsAll.length_eq (h : ReadsAll kinds words operands) : words.length = kinds.length := by
  induction h with
  | nil => rfl
  | cons _ _ _ ih => rw [List.length_cons, List.length_cons, ih]

/-- Words that are as many as they should be read, or one of them is refused. -/
theorem readsAll_or_refusesFirst (hlength : words.length = kinds.length) :
    (∃ operands, ReadsAll kinds words operands) ∨ ∃ cause, RefusesFirst kinds words cause := by
  induction kinds generalizing words with
  | nil =>
    obtain rfl := List.eq_nil_of_length_eq_zero hlength
    exact .inl ⟨[], .nil⟩
  | cons kind kinds ih =>
    rcases words with _ | ⟨word, words⟩
    · cases hlength
    · by_cases hshort : Text.utf8Length word ≤ Name.capacity
      · rcases reads_or_misreads kind ⟨word, hshort⟩ with ⟨operand, hreads⟩ | ⟨cause, hmisreads⟩
        · rcases ih (Nat.succ.inj hlength) with ⟨operands, hrest⟩ | ⟨cause, hrest⟩
          · exact .inl ⟨operand :: operands, .cons hshort hreads hrest⟩
          · exact .inr ⟨cause, .later hshort hreads hrest⟩
        · exact .inr ⟨cause, .here (.misread hmisreads)⟩
      · exact .inr ⟨.nameTooLong, .here (.long (Nat.lt_of_not_le hshort))⟩

/-- A word that is not too long and reads as an operand is read as a field. -/
theorem Field.exists_read (hshort : Text.utf8Length word ≤ Name.capacity)
    (hreads : Reads kind word operand) :
    ∃ field, Field.read kind word = .ok field ∧ field.word.chars = word ∧
      field.operand = operand :=
  ⟨⟨kind, ⟨word, hshort⟩, operand, ofName_of_reads hreads⟩, Field.read_eq_ok_iff.mpr ⟨rfl, rfl⟩,
    rfl, rfl⟩

/-- A word is refused for its cause. -/
theorem Field.read_of_refuses (h : Refuses kind word cause) :
    Field.read kind word = .error cause := by
  cases h with
  | long hlong =>
    have hname : Name.ofChars word = .error .nameTooLong := by
      unfold Name.ofChars Name.ofChars?
      rw [dif_neg (Nat.not_le_of_lt hlong)]
    unfold Field.read
    rw [hname]
  | misread hmisreads =>
    have herror := ofName_of_misreads hmisreads
    unfold Field.read
    rw [Name.ofChars_chars]
    dsimp only
    -- The match keeps its own equation for the field, so it cannot be rewritten.
    split
    · rename_i cause' hcause
      rw [herror] at hcause
      cases hcause
      rfl
    · rename_i operand hoperand
      rw [herror] at hoperand
      cases hoperand

/-- Words that read one by one are all read. -/
theorem ReadsAll.exists_readAll (h : ReadsAll kinds words operands) :
    ∃ fields, Field.readAll (kinds.zip words) = .ok fields ∧
      (fields.map fun field => field.word.chars) = words ∧ fields.map Field.operand = operands := by
  induction h with
  | nil => exact ⟨[], rfl, rfl, rfl⟩
  | cons hshort hreads _ ih =>
    obtain ⟨field, hread, hword, hoperand⟩ := Field.exists_read hshort hreads
    obtain ⟨fields, hreadAll, hwords, hoperands⟩ := ih
    refine ⟨field :: fields, ?_, ?_, ?_⟩
    · rw [List.zip_cons_cons, Field.readAll, hread, hreadAll]
      rfl
    · rw [List.map_cons, hword, hwords]
    · rw [List.map_cons, hoperand, hoperands]

/-- Words are refused for the first of them that does not read. -/
theorem RefusesFirst.readAll (h : RefusesFirst kinds words cause) :
    Field.readAll (kinds.zip words) = .error cause := by
  induction h with
  | here hrefuses =>
    rw [List.zip_cons_cons, Field.readAll, Field.read_of_refuses hrefuses]
    rfl
  | later hshort hreads _ ih =>
    obtain ⟨field, hread, -⟩ := Field.exists_read hshort hreads
    rw [List.zip_cons_cons, Field.readAll, hread, ih]
    rfl

/-- Words that read as the operands of an opcode are its fields. -/
theorem ReadsAll.exists_ofWords (h : ReadsAll opcode.operands words operands) :
    ∃ fields, Fields.ofWords opcode words = .ok fields ∧
      (fields.list.map fun field => field.word.chars) = words ∧
      fields.list.map Field.operand = operands := by
  obtain ⟨list, hreadAll, hwords, hoperands⟩ := h.exists_readAll
  unfold Fields.ofWords
  rw [dif_pos h.length_eq]
  split
  · rename_i cause hcause
    rw [hreadAll] at hcause
    cases hcause
  · rename_i list' hlist
    rw [hreadAll] at hlist
    cases hlist
    exact ⟨_, rfl, hwords, hoperands⟩

/-- Words are refused for what the line is blamed for. -/
theorem Blames.ofWords (h : Blames opcode words cause) :
    Fields.ofWords opcode words = .error cause := by
  unfold Fields.ofWords
  cases h with
  | count hcount => rw [dif_neg hcount]
  | word hcount hfirst =>
    rw [dif_pos hcount]
    split
    · rename_i cause' hcause
      rw [hfirst.readAll] at hcause
      cases hcause
      rfl
    · rename_i list hlist
      rw [hfirst.readAll] at hlist
      cases hlist

/-- Words read as the operands of an opcode, or there is something to blame. -/
theorem readsAll_or_blames (opcode : Opcode) (words : List (List Char)) :
    (∃ operands, ReadsAll opcode.operands words operands) ∨ ∃ cause, Blames opcode words cause := by
  by_cases hcount : words.length = opcode.operands.length
  · rcases readsAll_or_refusesFirst hcount with hreads | ⟨cause, hfirst⟩
    · exact .inl hreads
    · exact .inr ⟨cause, .word hcount hfirst⟩
  · exact .inr ⟨_, .count hcount⟩

end

/-! ## Lines -/

/-- The bytes of an operand, zero where a symbol will be. -/
def Operand.placed : Operand → List UInt8
  | .bytes content => content
  | .symbol width => .replicate width.bytes 0

/-- The statement that stands for an operation line: the words as written, the bytes of the
operands, and the field of the symbol, if there is one among them. -/
structure StandsFor (number : Nat) (word : List Char) (opcode : Opcode) (words : List (List Char))
    (operands : List Operand) (statement : Statement) : Prop where
  line : statement.line = number
  name : statement.name.chars = word
  body : ∃ args reference?, statement.body =
      .operation opcode args (operands.flatMap Operand.placed) reference? ∧
    args.map Name.chars = words ∧
    ((∀ width, Operand.symbol width ∉ operands) → reference? = none) ∧
    ∀ i width, operands[i]? = some (.symbol width) → ∃ symbol, args[i]? = some symbol ∧
      reference? = some ⟨symbol, ((operands.take i).flatMap Operand.placed).length, width⟩
  address : statement.address = 0

/-- A field with no addresses has the bytes of its operand. -/
theorem Field.bytes_eq_placed (field : Field) :
    (field.bytes fun _ => 0) = field.operand.placed := by
  unfold Field.bytes Operand.placed
  cases field.operand with
  | bytes bytes => rfl
  | symbol width => exact Width.encodeNat_zero width

/-- Fields with no addresses have the bytes of their operands. -/
theorem flatMap_bytes_eq (fields : List Field) :
    fields.flatMap (Field.bytes fun _ => 0) =
      (fields.map Field.operand).flatMap Operand.placed := by
  rw [List.flatMap_map]
  exact congrArg (fields.flatMap ·) (funext Field.bytes_eq_placed)

/-- Where an open field stands there are no others. -/
theorem Fields.exists_split_of_open {opcode : Opcode} {fields : Fields opcode} {i : Nat}
    {field : Field} {width : Width} (hfield : fields.list[i]? = some field)
    (hopen : field.opens? = some width) :
    ∃ front back, fields.list = front ++ field :: back ∧ front.length = i ∧
      ∀ other ∈ back, other.opens? = none := by
  have hclosed {other : Field} (hmem : other = field) (hnone : other.opens? = none) : False := by
    rw [hmem, hopen] at hnone
    cases hnone
  rcases fields.split with hall | ⟨front, field', back, width', hlist, -, hfront, hback⟩
  · exact (hclosed rfl (hall field (List.mem_of_getElem? hfield))).elim
  · rw [hlist, List.getElem?_append] at hfield
    split at hfield
    · exact (hclosed rfl (hfront field (List.mem_of_getElem? hfield))).elim
    · rename_i hle
      rcases hi : i - front.length with _ | j
      · rw [hi, List.getElem?_cons_zero] at hfield
        cases hfield
        exact ⟨front, back, hlist, by omega, hback⟩
      · rw [hi, List.getElem?_cons_succ] at hfield
        exact (hclosed rfl (hback field (List.mem_of_getElem? hfield))).elim

/-- What is kept of the fields of a line stands for it. -/
theorem Fields.standsFor {opcode : Opcode} (fields : Fields opcode) (number : Nat) (name : Name) :
    StandsFor number name.chars opcode (fields.list.map fun field => field.word.chars)
      (fields.list.map Field.operand)
      ⟨number, name, .operation opcode fields.kept.args fields.kept.bytes fields.kept.reference?,
        0⟩ := by
  have hargs : fields.kept.args = fields.list.map Field.word := Operands.args_pushAll ..
  refine ⟨rfl, rfl, ⟨fields.kept.args, fields.kept.reference?, ?_, ?_, fun hnone => ?_,
    fun i width hsymbol => ?_⟩, rfl⟩
  · rw [← flatMap_bytes_eq, fields.bytes_kept]
    rfl
  · rw [hargs, List.map_map]
    rfl
  · -- Without a symbol among the operands no field is open.
    refine (Fields.kept_of_closed fun field hmem => ?_).1
    unfold Field.opens?
    cases hoperand : field.operand with
    | bytes content => rfl
    | symbol width =>
      exact absurd (hoperand ▸ List.mem_map_of_mem hmem) (hnone width)
  · -- The operand that is a symbol is the open field, behind the bytes of those before it.
    rw [List.getElem?_map] at hsymbol
    obtain ⟨field, hfield, hoperand⟩ := Option.map_eq_some_iff.mp hsymbol
    have hopen : field.opens? = some width := by
      unfold Field.opens?
      rw [hoperand]
    obtain ⟨front, back, hlist, rfl, hback⟩ := Fields.exists_split_of_open hfield hopen
    have hfront : (fields.list.map Field.operand).take front.length = front.map Field.operand := by
      rw [hlist, List.map_append, List.take_left' (List.length_map _)]
    refine ⟨field.word, ?_, ?_⟩
    · rw [hargs, List.getElem?_map, hfield]
      rfl
    · rw [Fields.reference?_kept_of_open hlist hopen hback, hfront, ← flatMap_bytes_eq]

section

variable {number : Nat} {text word rest : List Char} {opcode : Opcode} {assembler : Assembler}

/-- A line that starts with the name of an opcode is parsed as an operation. -/
theorem Parse.line_eq_operation
    (hline : Text.firstWord (Text.trim (Text.withoutComment text)) = (word, rest))
    (hname : opcode.IsNamed word) :
    Parse.line number text = Parse.operation number opcode word rest := by
  unfold Parse.line
  dsimp only
  rw [if_neg (Text.ne_nil_of_firstWord hline hname.ne_nil), hline]
  dsimp only
  rw [if_neg hname.head?_ne, hname.ofMnemonic?]

/-- And so it is when it is read by itself. -/
theorem Clause.ofLine_eq_operation
    (hline : Text.firstWord (Text.trim (Text.withoutComment text)) = (word, rest))
    (hname : opcode.IsNamed word) :
    Clause.ofLine text = some <$> Clause.ofOperation opcode word rest := by
  unfold Clause.ofLine
  dsimp only
  rw [if_neg (Text.ne_nil_of_firstWord hline hname.ne_nil), hline]
  dsimp only
  rw [if_neg hname.head?_ne, hname.ofMnemonic?]

/-- Instruction lines are read exactly. Whatever the case of its letters, a line that starts with
the name of an opcode is accepted when it has as many operands as the table, each of at most 32
bytes and of the form that the table says, and its statement stands for them. Otherwise the line is
refused for the number of its operands, or for the first of them that is not of this form, and what
has been parsed before stays as it is. -/
theorem operation_lines_are_read_exactly {words : List (List Char)}
    (hline : Text.firstWord (Text.trim (Text.withoutComment text)) = (word, rest))
    (hname : opcode.IsNamed word) (hwords : Text.Runs rest words)
    (hroom : assembler.capacities.statements.admits (assembler.statements.size + 1) = true) :
    ((∃ assembler', (Parse.line number text).run assembler = .ok () assembler') ↔
        ∃ operands, ReadsAll opcode.operands words operands) ∧
      (∀ operands, ReadsAll opcode.operands words operands → ∃ statement,
        StandsFor number word opcode words operands statement ∧
        (Parse.line number text).run assembler =
          .ok () { assembler with statements := assembler.statements.push statement }) ∧
      ∀ cause assembler', (Parse.line number text).run assembler = .error cause assembler' ↔
        assembler' = assembler ∧ Blames opcode words cause := by
  -- Operands that are all read make a statement, which is stored.
  have haccepted {operands : List Operand} (h : ReadsAll opcode.operands words operands) :
      ∃ statement, StandsFor number word opcode words operands statement ∧
        (Parse.line number text).run assembler =
          .ok () { assembler with statements := assembler.statements.push statement } := by
    obtain ⟨fields, hfields, rfl, rfl⟩ := h.exists_ofWords
    let name : Name := ⟨word, hname.short⟩
    have hstatement : Statement.operation number opcode name.chars rest = .ok
        ⟨number, name, .operation opcode fields.kept.args fields.kept.bytes fields.kept.reference?,
          0⟩ := by
      rw [Parse.operation_eq]
      unfold Clause.ofOperation
      rw [hwords.fields_eq, hfields, Name.ofChars_chars]
      rfl
    refine ⟨_, fields.standsFor number name, ?_⟩
    rw [Parse.line_eq_operation hline hname, Parse.operation, hstatement]
    change (Parse.store _).run assembler = _
    rw [Parse.store_run, hroom]
    rfl
  -- A word that is refused makes no statement, and nothing is stored.
  have hrefused {cause : Cause} (h : Blames opcode words cause) :
      (Parse.line number text).run assembler = .error cause assembler := by
    have hstatement : Statement.operation number opcode word rest = .error cause := by
      rw [Parse.operation_eq]
      unfold Clause.ofOperation
      rw [hwords.fields_eq, h.ofWords]
      rfl
    rw [Parse.line_eq_operation hline hname, Parse.operation, hstatement]
    rfl
  refine ⟨⟨?_, ?_⟩, fun operands => haccepted, fun cause assembler' => ⟨?_, ?_⟩⟩
  · -- One of the two is the case, and the run tells which.
    rintro ⟨assembler', hrun⟩
    rcases readsAll_or_blames opcode words with hreads | ⟨cause, hblames⟩
    · exact hreads
    · cases hrun.symm.trans (hrefused hblames)
  · rintro ⟨operands, hreads⟩
    obtain ⟨statement, -, hrun⟩ := haccepted hreads
    exact ⟨_, hrun⟩
  · intro hrun
    rcases readsAll_or_blames opcode words with ⟨operands, hreads⟩ | ⟨cause', hblames⟩
    · obtain ⟨statement, -, hrun'⟩ := haccepted hreads
      cases hrun.symm.trans hrun'
    · cases hrun.symm.trans (hrefused hblames)
      exact ⟨rfl, hblames⟩
  · rintro ⟨rfl, hblames⟩
    exact hrefused hblames

/-- A line with a symbol and a comment is accepted, one with a byte that is too large is refused,
and so is one with an operand too many. -/
theorem operation_lines_are_read_exactly_lcons_syscall_jump :
    (∃ statement, StandsFor 3 "LCONS".toList .lcons ["R0".toList, "$data".toList]
        [.bytes [0], .symbol .word] statement ∧
      (Parse.line 3 " LCONS R0,,$data ; from here".toList).run (.empty ⟨some 1, none, none⟩) =
        .ok () { Assembler.empty ⟨some 1, none, none⟩ with statements := #[statement] }) ∧
    (Parse.line 4 "syscall 0x100".toList).run (.empty ⟨some 1, none, none⟩) =
      .error (.integerTooHigh 256) (.empty ⟨some 1, none, none⟩) ∧
    (Parse.line 5 "jump .here 1".toList).run (.empty ⟨some 1, none, none⟩) =
      .error (.badParameterCount 1 2) (.empty ⟨some 1, none, none⟩) := by
  have hlcons : Opcode.lcons.IsNamed "LCONS".toList := ⟨"lcons", .head _, by decide⟩
  have hsyscall : Opcode.syscall.IsNamed "syscall".toList := ⟨"syscall", .head _, by decide⟩
  have hjump : Opcode.jmp.IsNamed "jump".toList := ⟨"jump", .tail _ (.head _), by decide⟩
  have hsymbol : Text.Runs "R0,,$data".toList ["R0".toList, "$data".toList] :=
    Text.runs_iff.mpr (by decide)
  have hlarge : Text.Runs "0x100".toList ["0x100".toList] := Text.runs_iff.mpr (by decide)
  have htwo : Text.Runs ".here 1".toList [".here".toList, "1".toList] :=
    Text.runs_iff.mpr (by decide)
  have hroom : (Assembler.empty ⟨some 1, none, none⟩).capacities.statements.admits
      ((Assembler.empty ⟨some 1, none, none⟩).statements.size + 1) = true := by decide
  have hr0 : "R0".toList.map Char.toLower = Register.r0.name.toList := by decide
  have hreads : ReadsAll Opcode.lcons.operands ["R0".toList, "$data".toList]
      [.bytes [0], .symbol .word] :=
    .cons (by decide) (.register hr0)
      (.cons (by decide) (.symbol rfl (.inr (by decide))) .nil)
  have hhigh : Misreads .immediate8 ⟨"0x100".toList, by decide⟩ (.integerTooHigh 256) :=
    .high rfl (by decide) (by decide)
  have hcount : Blames .jmp [".here".toList, "1".toList] (.badParameterCount 1 2) :=
    .count (by decide)
  refine ⟨?_, ?_, ?_⟩
  · exact (operation_lines_are_read_exactly (by decide) hlcons hsymbol hroom).2.1 _ hreads
  · exact ((operation_lines_are_read_exactly (by decide) hsyscall hlarge hroom).2.2 _ _).mpr
      ⟨rfl, .word rfl (.here (.misread hhigh))⟩
  · exact ((operation_lines_are_read_exactly (by decide) hjump htwo hroom).2.2 _ _).mpr
      ⟨rfl, hcount⟩

end

end Assembly

end RegisterMachine
