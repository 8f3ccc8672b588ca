import RegisterMachine.Proofs.Assembly.Composition
import RegisterMachine.Proofs.Assembly.ConstantLines

/-!
# What literals out of range are refused for

A literal stands where a number must stand: as an operand or among items of constants (`StandsIn`).
If it denotes an integer out of the range of the field, and what stands before it is read, the
source is refused. The cause is that the integer is too high or too low as long as its magnitude is
below `2 ^ 63`. Larger ones are refused as no numbers, and as a jump target they are taken for
symbols, which no line defines (`literals_out_of_range_are_refused`).
-/

namespace RegisterMachine

/-- A jump has no operand besides its target. -/
theorem Opcode.operands_of_target {opcode : Opcode} (h : .target ∈ opcode.operands) :
    opcode.operands = [.target] := by
  revert h
  cases opcode <;> decide

namespace Assembly

/-! ## Where a literal stands -/

/-- A literal stands among items of constants, with a comma, a comment or nothing behind it, after
items that stand for bytes. -/
inductive ItemAt (width : Width) (literal : List Char) : List Char → List UInt8 → Prop where
  | here {before after tail : List Char} (hbefore : Text.IsGap before) (hafter : Text.IsGap after)
      (htail : tail.head? = some ',' ∨ IsComment tail) :
      ItemAt width literal (before ++ (literal ++ (after ++ tail))) []
  | later {before item after rest : List Char} {bytes bytes' : List UInt8}
      (hbefore : Text.IsGap before) (hitem : Stands width item bytes) (hafter : Text.IsGap after)
      (hrest : ItemAt width literal rest bytes') :
      ItemAt width literal (before ++ (item ++ (after ++ ',' :: rest))) (bytes ++ bytes')

/-- The places in a line where a number may have to stand. -/
inductive Place where
  | operand (kind : OperandKind)
  | item

/-- A literal stands at a place of a line, in a field of a width, and the assembler can read
whatever stands before it in the line. -/
inductive StandsIn (assembler : Assembler) (literal : List Char) :
    Place → Width → List Char → Prop where
  | operand {text word rest : List Char} {opcode : Opcode} {words words' : List (List Char)}
      {kinds kinds' : List OperandKind} {kind : OperandKind} {operands : List Operand}
      {width : Width}
      (hline : Text.firstWord (Text.trim (Text.withoutComment text)) = (word, rest))
      (hname : opcode.IsNamed word) (hwords : Text.Runs rest (words ++ literal :: words'))
      (htable : opcode.operands = kinds ++ kind :: kinds') (hcount : words'.length = kinds'.length)
      (hreads : ReadsAll kinds words operands) (hwidth : literalWidth? kind = some width)
      (hshort : Text.utf8Length literal ≤ Name.capacity) :
      StandsIn assembler literal (.operand kind) width text
  | item (head : ConstantHead) {values : List Char} {bytes : List UInt8}
      (hvalues : ItemAt head.width literal values bytes)
      (hfresh : assembler.symbols.defines head.symbol = false)
      (hsymbols : assembler.capacities.symbols.admits
        (assembler.symbols.entries.length + 1) = true)
      (hroom : assembler.capacities.constants.admits
        (assembler.pool.size + bytes.length) = true) :
      StandsIn assembler literal .item head.width (head.text ++ values)

section

variable {width : Width} {literal values text word rest : List Char} {bytes : List UInt8} {v : Int}
  {cause : Cause} {kind : OperandKind} {opcode : Opcode} {words words' : List (List Char)}
  {kinds kinds' : List OperandKind} {operands : List Operand} {assembler : Assembler} {number : Nat}

/-! ## Items -/

/-- A literal before a comma, a comment or the end of the line is an item. -/
theorem isItem_of_literal {tail : List Char} (h : Text.Literal literal v)
    (htail : tail.head? = some ',' ∨ IsComment tail) : IsItem literal tail := by
  refine ⟨isTrimmed_of_literal h, fun _ hseparator => (closed_of_literal h hseparator).whole, ?_⟩
  have houtside := (closed_of_literal h (.inl rfl)).outside
  rcases htail with hcomma | rfl | hsemicolon
  · exact .inr ⟨houtside, .inl hcomma⟩
  · exact .inl rfl
  · exact .inr ⟨houtside, .inr hsemicolon⟩

/-- A literal that is refused as an item is the first that is. -/
theorem ItemAt.breaks (h : ItemAt width literal values bytes) (hliteral : Text.Literal literal v)
    (hfails : Fails width literal cause) : Breaks width values bytes cause := by
  induction h with
  | here hbefore hafter htail =>
    exact .here hbefore (isItem_of_literal hliteral htail) hfails hafter (.inl hliteral.ne_nil)
  | later hbefore hitem hafter _ ih => exact .later hbefore hitem hafter ih

/-- What is too large to be read is no number as an item. -/
theorem Fails.of_large (h : Text.Literal literal v) (hlarge : 2 ^ 63 ≤ v.natAbs) :
    Fails width literal .invalidNumber := by
  refine .number (fun w hw => ?_) fun text hquote => ?_
  · rw [h.unique hw]
    exact hlarge
  · have hread := unquote?_of_literal h
    rw [hquote, Text.unquote?_quote] at hread
    cases hread

/-! ## Operands -/

/-- The operand after those that are read is the one that a line is refused for. -/
theorem RefusesFirst.of_reads (h : ReadsAll kinds words operands) (hrefuses : Refuses kind word cause) :
    RefusesFirst (kinds ++ kind :: kinds') (words ++ word :: words') cause := by
  induction h with
  | nil => exact .here hrefuses
  | cons hshort hreads _ ih => exact .later hshort hreads ih

/-- An operation line that is refused leaves nothing. -/
theorem Parse.line_run_of_blames
    (hline : Text.firstWord (Text.trim (Text.withoutComment text)) = (word, rest))
    (hname : opcode.IsNamed word) (hwords : Text.Runs rest words) (h : Blames opcode words cause) :
    (Parse.line number text).run assembler = .error cause assembler := by
  have hrefused : Statement.operation number opcode word rest = .error cause := by
    rw [Parse.operation_eq]
    unfold Clause.ofOperation
    rw [hwords.fields_eq, h.ofWords]
    rfl
  rw [Parse.line_eq_operation hline hname, Parse.operation, hrefused]
  rfl

/-- A literal of `2 ^ 63` or more is not read as an integer. -/
theorem integer?_of_large (h : Text.Literal literal v) (hlarge : 2 ^ 63 ≤ v.natAbs) :
    Text.integer? literal = none :=
  h.integer?_eq_none (Nat.lt_of_succ_le hlarge)

/-- No literal starts like a symbol. -/
theorem head?_ne_of_literal (h : Text.Literal literal v) :
    literal.head? ≠ some '.' ∧ literal.head? ≠ some '$' :=
  Text.head?_ne_of_isLiteralChar h.isLiteralChar

/-- What is too large to be read stands for no symbol other than a jump target. -/
theorem Misreads.of_large {name : Name} (h : Text.Literal name.chars v) (hlarge : 2 ^ 63 ≤ v.natAbs)
    (hwidth : literalWidth? kind = some width) (hkind : kind ≠ .target) :
    Misreads kind name .invalidNumber := by
  refine .number hwidth ?_ (integer?_of_large h hlarge)
  cases kind with
  | target => exact absurd rfl hkind
  | immediate32 => exact not_or.mpr (head?_ne_of_literal h)
  | register | immediate8 | address => exact id

/-! ## Lines -/

/-- A literal is refused for a cause wherever it stands at a place. -/
structure RefusedAt (place : Place) (width : Width) (literal : List Char) (cause : Cause) : Prop where
  operand : ∀ kind, place = .operand kind → literalWidth? kind = some width →
    ∀ name : Name, name.chars = literal → Misreads kind name cause
  item : place = .item → Fails width literal cause

/-- The line is refused for the literal. -/
theorem StandsIn.line_run {place : Place} (h : StandsIn assembler literal place width text)
    (hliteral : Text.Literal literal v) (hrefused : RefusedAt place width literal cause) :
    ∃ after, (Parse.line number text).run assembler = .error cause after := by
  cases h with
  | @operand _ word rest opcode words words' kinds kinds' kind operands _ hline hname hwords htable
      hcount hreads hwidth hshort =>
    have hmisreads : Misreads kind ⟨literal, hshort⟩ cause :=
      hrefused.operand kind rfl hwidth _ rfl
    have hfirst : RefusesFirst opcode.operands (words ++ literal :: words') cause := by
      rw [htable]
      exact .of_reads hreads (.misread hmisreads)
    have hlength : (words ++ literal :: words').length = opcode.operands.length := by
      rw [htable, List.length_append, List.length_append, List.length_cons, List.length_cons,
        hreads.length_eq, hcount]
    exact ⟨assembler, Parse.line_run_of_blames hline hname hwords (.word hlength hfirst)⟩
  | item head hvalues hfresh hsymbols hroom =>
    have hbreaks := hvalues.breaks hliteral (hrefused.item rfl)
    exact ⟨_, head.line_run_of_breaks number hbreaks hfresh hsymbols hroom⟩

end

/-! ## Symbols -/

/-- No literal is defined as a symbol. -/
theorem not_mem_symbolsOf_of_literal {number : Nat} {lines : List (List Char)}
    {clauses : List (Nat × Clause)} (h : clausesOf number lines = .ok clauses) {name : Name} {v : Int}
    (hliteral : Text.Literal name.chars v) : name ∉ symbolsOf clauses := by
  intro hmem
  obtain ⟨entry, hentry, rfl⟩ := List.mem_map.mp hmem
  obtain ⟨hentry, hdefines⟩ := List.mem_filter.mp hentry
  obtain ⟨i, text, -, -, hread⟩ := exists_line_of_mem_clausesOf h hentry
  obtain ⟨hdot, hdollar⟩ := head?_ne_of_literal hliteral
  exact (Clause.marked_of_defines hread hdefines).elim hdot hdollar

/-- A jump to what is too large to be read is left open for a symbol of that name. -/
theorem StandsIn.exists_open {assembler : Assembler} {width : Width} {literal text : List Char}
    (h : StandsIn assembler literal (.operand .target) width text)
    (hnone : Text.integer? literal = none) :
    ∃ clause field, Clause.ofLine text = .ok (some clause) ∧ field ∈ clause.openFields ∧
      field.word.chars = literal ∧ ∀ number start, ∃ reference,
        (clause.statement number start).reference? = some reference ∧
          reference.symbol = field.word := by
  cases h with
  | @operand _ word rest opcode words words' kinds kinds' _ operands _ hline hname hwords htable
      hcount hreads hwidth hshort =>
    have htarget : opcode.operands = [.target] :=
      Opcode.operands_of_target (htable ▸ List.mem_append_cons_self)
    -- The table has one operand, so there are no words besides the literal.
    obtain ⟨rfl, ⟨⟩, rfl⟩ | ⟨h, ⟨⟩⟩ := List.singleton_eq_append_iff.mp (htarget.symm.trans htable)
    obtain rfl := List.eq_nil_of_length_eq_zero hreads.length_eq
    obtain rfl := List.eq_nil_of_length_eq_zero hcount
    have hsymbol : ReadsAll opcode.operands [literal] [.symbol .half] := by
      rw [htarget]
      exact .cons hshort (.symbol rfl hnone) .nil
    obtain ⟨fields, hfields, hchars, hoperands⟩ := hsymbol.exists_ofWords
    obtain ⟨field, hlist, hoperand⟩ := List.map_eq_singleton_iff.mp hoperands
    have hopen : field.opens? = some .half := by
      unfold Field.opens?
      rw [hoperand]
    have halone : fields.list = [] ++ field :: [] := hlist
    have hclosed : ∀ other ∈ ([] : List Field), other.opens? = none := fun _ h => nomatch h
    have hread : Clause.ofLine text =
        .ok (some ⟨⟨word, hname.short⟩, .operation opcode fields⟩) := by
      rw [Clause.ofLine_eq_operation hline hname]
      rw [List.nil_append] at hwords
      rw [← hwords.fields_eq] at hfields
      exact map_eq_ok_iff.mpr ⟨_, bind_eq_ok_iff.mpr ⟨fields, hfields,
        bind_eq_ok_iff.mpr ⟨_, Name.ofChars_chars ⟨word, hname.short⟩, rfl⟩⟩, rfl⟩
    refine ⟨_, field, hread, ?_, ?_, fun number start => ?_⟩
    · show field ∈ fields.opened
      rw [Fields.opened_of_open halone hopen hclosed hclosed]
      exact List.mem_singleton_self field
    · rw [hlist] at hchars
      exact List.head_eq_of_cons_eq hchars
    · exact ⟨_, Fields.reference?_kept_of_open halone hopen hclosed, rfl⟩

/-! ## Sources -/

namespace Assembler

/-- Parsing a source gets to a line: the lines `front` before it are parsed, and leave `before`. -/
structure GetsTo (source : String) (assembler : Assembler) (front : List (List Char))
    (before : Assembler) (text : List Char) : Prop where
  lines : ∃ back, Text.lines source.toList = front ++ text :: back
  parsed : (parseLines 0 front).run assembler.clear = .ok () before
  numbered : front.length < maxLine

/-- Assembling a source is refused with an error. -/
def RefusedWith (source : String) (buffer : Array UInt8) (assembler : Assembler) (error : Error) :
    Prop :=
  ∃ final, (assemble source buffer).run assembler = .error error final

section

variable {source : String} {buffer : Array UInt8} {assembler before parsed after final : Assembler}
  {front : List (List Char)} {text literal : List Char} {cause : Cause} {width : Width} {v : Int}

/-- Parsing a source that gets to a line goes on from there with what the lines before it leave. -/
theorem GetsTo.parse_run (h : GetsTo source assembler front before text) :
    ∃ back, (parse source).run assembler =
      (parseLines front.length (text :: back)).run before := by
  obtain ⟨back, hlines⟩ := h.lines
  have hparse : (parse source).run assembler =
      (parseLines 0 (Text.lines source.toList)).run assembler.clear := rfl
  rw [hlines, parseLines_append_run h.parsed, Nat.zero_add] at hparse
  exact ⟨back, hparse⟩

/-- A source is refused at a line that is. -/
theorem GetsTo.refusedWith (h : GetsTo source assembler front before text)
    (hline : ∃ after, (Parse.line (front.length + 1) text).run before = .error cause after) :
    RefusedWith source buffer assembler ⟨some (front.length + 1), cause⟩ := by
  obtain ⟨back, hparse⟩ := h.parse_run
  obtain ⟨after, hline⟩ := hline
  rw [parseLines_cons_run (Nat.ne_of_lt h.numbered), hline] at hparse
  exact ⟨after, bind_run_eq_error_iff.mpr (.inl hparse)⟩

/-- A source that is parsed has the statement of a line behind those of the lines before it. -/
theorem GetsTo.exists_statements (h : GetsTo source assembler front before text) {clause : Clause}
    (hread : Clause.ofLine text = .ok (some clause))
    (hparsed : (parse source).run assembler = .ok () parsed) :
    ∃ start rest, parsed.statements.toList =
      before.statements.toList ++ clause.statement (front.length + 1) start :: rest := by
  obtain ⟨back, hparse⟩ := h.parse_run
  obtain ⟨-, clauses, hclauses, -, rfl⟩ :=
    (parseLines_run_eq_ok_iff (Nat.le_of_lt h.numbered)).mp (hparse.symm.trans hparsed)
  obtain ⟨clause?, hclause, hclauses⟩ := bind_eq_ok_iff.mp hclauses
  obtain ⟨others, -, hclauses⟩ := bind_eq_ok_iff.mp hclauses
  cases hclauses
  cases hread.symm.trans hclause
  exact ⟨_, _, statements_extendAll⟩

/-- No literal is among the symbols of a source. -/
theorem not_mem_names_of_literal (hparsed : (parse source).run assembler = .ok () parsed)
    {name : Name} (hliteral : Text.Literal name.chars v) : name ∉ parsed.names := by
  obtain ⟨-, clauses, hclauses, -, rfl⟩ := parse_run_eq_ok_iff.mp hparsed
  have hnames : (assembler.clear.extendAll clauses).names = symbolsOf clauses :=
    names_ofClauses assembler.capacities clauses
  rw [hnames]
  exact not_mem_symbolsOf_of_literal hclauses hliteral

/-! ## Literals out of range -/

/-- What a source is refused for that has a literal out of range at a line. -/
structure RefusesOutOfRange (source : String) (buffer : Array UInt8) (assembler before : Assembler)
    (line : Nat) (place : Place) (width : Width) (literal : List Char) (v : Int) : Prop where
  high : 2 ^ width.bits - 1 < v → v.natAbs ≤ 2 ^ 63 - 1 →
    RefusedWith source buffer assembler ⟨some line, .integerTooHigh v⟩
  low : v < -2 ^ (width.bits - 1) → v.natAbs ≤ 2 ^ 63 - 1 →
    RefusedWith source buffer assembler ⟨some line, .integerTooLow v⟩
  /-- What is too large to be read is no number. -/
  large : 2 ^ 63 ≤ v.natAbs → place ≠ .operand .target →
    RefusedWith source buffer assembler ⟨some line, .invalidNumber⟩
  /-- As a jump target it is a symbol instead, so the source is refused even if all its lines are
  parsed: the symbol is not found, if no other is missed before. -/
  target : 2 ^ 63 ≤ v.natAbs → place = .operand .target →
    (∃ error, RefusedWith source buffer assembler error) ∧
      ∀ name : Name, name.chars = literal →
        ∀ parsed, (parse source).run assembler = .ok () parsed →
          parsed.HasRoomForAll buffer.size →
          (∀ statement ∈ before.statements.toList, parsed.Defines statement) →
          RefusedWith source buffer assembler ⟨some line, .labelNotFound name⟩

/-- A jump to what is too large to be read keeps a source from being built. -/
theorem GetsTo.firstUndefined (h : GetsTo source assembler front before text)
    (hplace : StandsIn before literal (.operand .target) width text)
    (hliteral : Text.Literal literal v) (hlarge : 2 ^ 63 ≤ v.natAbs) {name : Name}
    (hname : name.chars = literal) (hparsed : (parse source).run assembler = .ok () parsed)
    (hdefines : ∀ statement ∈ before.statements.toList, parsed.Defines statement) :
    ∃ statement, parsed.FirstUndefined statement name ∧ statement.line = front.length + 1 := by
  subst hname
  obtain ⟨clause, field, hread, -, hword, hrefers⟩ :=
    hplace.exists_open (integer?_of_large hliteral hlarge)
  obtain ⟨start, rest, hstatements⟩ := h.exists_statements hread hparsed
  obtain ⟨reference, hreference, hsymbol⟩ := hrefers (front.length + 1) start
  have hsame : reference.symbol = name := hsymbol.trans (Name.chars_injective hword)
  exact ⟨_, ⟨_, rest, reference, hstatements, hdefines, hreference, hsame,
    not_mem_names_of_literal hparsed hliteral⟩, rfl⟩

/-- Whatever else it says, a source is not assembled that jumps to what is too large to be read. -/
theorem GetsTo.exists_error (h : GetsTo source assembler front before text)
    (hplace : StandsIn before literal (.operand .target) width text)
    (hliteral : Text.Literal literal v) (hlarge : 2 ^ 63 ≤ v.natAbs) :
    ∃ error, RefusedWith source buffer assembler error := by
  rcases hrun : (assemble source buffer).run assembler with ⟨program, final⟩ | ⟨error, final⟩
  · obtain ⟨back, hlines⟩ := h.lines
    obtain ⟨clause, field, hread, hopen, hword, -⟩ :=
      hplace.exists_open (integer?_of_large hliteral hlarge)
    obtain ⟨-, clauses, hclauses, hassembles, -⟩ := assemble_run_eq_ok_iff_assembles.mp hrun
    obtain ⟨line, hmem⟩ := mem_clausesOf hclauses (hlines ▸ List.mem_append_cons_self) hread
    -- Every symbol that a clause refers to is defined, and a literal is not.
    have hdefined : field.word ∈ symbolsOf clauses := hassembles.closed _ hmem field hopen
    subst hword
    exact absurd hdefined (not_mem_symbolsOf_of_literal hclauses hliteral)
  · exact ⟨error, final, hrun⟩

/-- A source that has a literal out of range where a number must stand is refused, and at the line
of the literal if its magnitude is below `2 ^ 63`, as too high or too low. Beyond that it is refused
as no number, and a jump to it for want of a symbol. -/
theorem literals_out_of_range_are_refused {place : Place}
    (h : GetsTo source assembler front before text)
    (hplace : StandsIn before literal place width text) (hliteral : Text.Literal literal v)
    (buffer : Array UInt8) :
    RefusesOutOfRange source buffer assembler before (front.length + 1) place width literal v where
  high := by
    intro hhigh hsmall
    have hvalue : Text.integer? literal = some v :=
      Text.integer?_eq_some_iff.mpr ⟨hliteral, hsmall⟩
    refine h.refusedWith (hplace.line_run hliteral ⟨?_, fun _ => .high hliteral hsmall hhigh⟩)
    rintro kind - hwidth name rfl
    exact .high hwidth hvalue hhigh
  low := by
    intro hlow hsmall
    have hvalue : Text.integer? literal = some v :=
      Text.integer?_eq_some_iff.mpr ⟨hliteral, hsmall⟩
    refine h.refusedWith (hplace.line_run hliteral ⟨?_, fun _ => .low hliteral hsmall hlow⟩)
    rintro kind - hwidth name rfl
    exact .low hwidth hvalue hlow
  large := by
    intro hlarge hother
    refine h.refusedWith (hplace.line_run hliteral ⟨?_, fun _ => .of_large hliteral hlarge⟩)
    rintro kind rfl hwidth name rfl
    exact .of_large hliteral hlarge hwidth fun hkind => hother (congrArg _ hkind)
  target := by
    rintro hlarge rfl
    refine ⟨h.exists_error hplace hliteral hlarge, fun name hname parsed hparsed hroom hdefines => ?_⟩
    -- The line is parsed with the literal for a symbol, which the second pass does not find.
    obtain ⟨statement, hfirst, hline⟩ :=
      h.firstUndefined hplace hliteral hlarge hname hparsed hdefines
    have hsound := (consistent_parse source assembler).sound
    rw [hparsed] at hsound
    obtain ⟨final, hbuild⟩ := hfirst.build_run hsound hroom
    rw [hline] at hbuild
    exact ⟨final, bind_run_eq_error_iff.mpr (.inr ⟨(), parsed, hparsed, hbuild⟩)⟩

/-- The first magnitude that is too large to be read. -/
theorem literal_two_pow : Text.Literal "9223372036854775808".toList (2 ^ 63) := by
  have hdigits : Text.Denotes 10 "9223372036854775808".toList 9223372036854775808 :=
    (Text.natural?_eq_some_iff (by decide)).mp (by decide +kernel)
  exact .unsigned (.decimal (by decide) hdigits)

/-- A byte that is too large behind another line, a half word that is too small behind another item,
and a jump to `2 ^ 63`. -/
theorem literals_out_of_range_are_refused_syscall_items_jump :
    RefusedWith "halt\nsyscall 0x100" #[] (.empty ⟨none, none, none⟩)
        ⟨some 2, .integerTooHigh 256⟩ ∧
      RefusedWith "$x DC16 1, -32769" #[] (.empty ⟨none, none, none⟩)
        ⟨some 1, .integerTooLow (-32769)⟩ ∧
      ∃ error, RefusedWith "jmp 9223372036854775808" #[] (.empty ⟨none, none, none⟩) error := by
  obtain ⟨⟨⟩, before, hbefore⟩ := exists_of_succeeded (show
    succeeded ((parseLines 0 ["halt".toList]).run (Assembler.empty ⟨none, none, none⟩).clear) = true
      by decide +kernel)
  have hliteral {text : List Char} {v : Int} (h : Text.integer? text = some v) :
      Text.Literal text v := (Text.integer?_eq_some_iff.mp h).1
  have hnone : Text.IsGap [] := by decide
  have hgap : Text.IsGap [' '] := by decide
  refine ⟨?_, ?_, ?_⟩
  · have hgets : GetsTo "halt\nsyscall 0x100" (.empty ⟨none, none, none⟩) ["halt".toList] before
        "syscall 0x100".toList := ⟨⟨[], by decide⟩, hbefore, by decide⟩
    have hname : Opcode.syscall.IsNamed "syscall".toList := ⟨"syscall", .head _, by decide⟩
    have hplace : StandsIn before "0x100".toList (.operand .immediate8) .byte
        "syscall 0x100".toList :=
      @StandsIn.operand _ _ _ _ "0x100".toList _ [] [] [] [] _ _ _ (by decide) hname
        (Text.runs_iff.mpr (by decide)) rfl rfl .nil rfl (by decide)
    exact (literals_out_of_range_are_refused hgets hplace (hliteral (v := 256) (by decide)) #[]).high
      (by decide) (by decide)
  · have hgets : GetsTo "$x DC16 1, -32769" (.empty ⟨none, none, none⟩) []
        (.empty ⟨none, none, none⟩) "$x DC16 1, -32769".toList :=
      ⟨⟨[], by decide⟩, rfl, by decide⟩
    let head : ConstantHead :=
      ⟨.half, ⟨"$x".toList, by decide⟩, "DC16".toList, ([], [' '], [' ']), by decide, by decide,
        by decide, by decide, by decide⟩
    have hfirst : Stands .half "1".toList [1, 0] :=
      .literal (hliteral (v := 1) (by decide)) (by decide) (by decide)
    have hvalues : ItemAt .half "-32769".toList "1, -32769".toList ([1, 0] ++ []) :=
      @ItemAt.later _ _ [] _ [] _ _ _ hnone hfirst hnone
        (@ItemAt.here _ _ [' '] [] [] hgap hnone (.inr (.inl rfl)))
    have hplace : StandsIn (.empty ⟨none, none, none⟩) "-32769".toList .item .half
        "$x DC16 1, -32769".toList := .item head hvalues rfl rfl rfl
    exact (literals_out_of_range_are_refused hgets hplace (hliteral (v := -32769) (by decide))
      #[]).low (by decide) (by decide)
  · have hgets : GetsTo "jmp 9223372036854775808" (.empty ⟨none, none, none⟩) []
        (.empty ⟨none, none, none⟩) "jmp 9223372036854775808".toList :=
      ⟨⟨[], by decide⟩, rfl, by decide⟩
    have hname : Opcode.jmp.IsNamed "jmp".toList := ⟨"jmp", .head _, by decide⟩
    have hplace : StandsIn (.empty ⟨none, none, none⟩) "9223372036854775808".toList
        (.operand .target) .half "jmp 9223372036854775808".toList :=
      @StandsIn.operand _ _ _ _ "9223372036854775808".toList _ [] [] [] [] _ _ _ (by decide) hname
        (Text.runs_iff.mpr (by decide)) rfl rfl .nil rfl (by decide)
    exact ((literals_out_of_range_are_refused hgets hplace literal_two_pow #[]).target
      (by decide) rfl).1

/-- The number `2 ^ 63` is above the range of a byte and of an address, and is refused as too high
for neither. -/
theorem range_is_not_always_diagnosed :
    Text.Literal "9223372036854775808".toList (2 ^ 63) ∧
      error? ((assemble "$x DC8 9223372036854775808" #[]).run (empty ⟨none, none, none⟩)) =
        some ⟨some 1, .invalidNumber⟩ ∧
      error? ((assemble "jmp 9223372036854775808" (.replicate 3 0)).run
          (empty ⟨none, none, none⟩)) =
        some ⟨some 1, .labelNotFound ⟨"9223372036854775808".toList, by decide⟩⟩ := by
  refine ⟨literal_two_pow, ?_, ?_⟩ <;> decide +kernel

end

end Assembler

end Assembly

end RegisterMachine
