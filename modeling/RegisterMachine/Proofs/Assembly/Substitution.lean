import RegisterMachine.Proofs.Assembly.Closing

/-!
# Numerals for symbols

In a source that assembles, any of the operands that are symbols can be replaced by numerals of the
addresses that they get (`Rewrites`), decimal or hexadecimal ones or any other literals of the same
value. The source still assembles, into the same program, with the same symbols at the same
addresses (`Assembler.symbols_and_numerals_agree`). An instruction with a numeral has in its
operands what would have been linked, and leaves no field open.

A line is rewritten in a gap of it, so what is read before the gap stays, and the last field is
closed by the numeral (`Slot.exists_closes`). The clauses of the source are then those that it had,
some of them closed (`clausesOf_rewrites`).
-/

namespace RegisterMachine.Assembly

/-- A numeral of a number: any literal for it that is short enough for an operand. -/
structure IsNumeral (n : Nat) (word : List Char) : Prop where
  literal : Text.Literal word n
  short : Text.utf8Length word ≤ Name.capacity

/-- The decimal numeral of a 16-bit number is one. -/
theorem isNumeral_decimal {n : Nat} (h : n ≤ 0xFFFF) : IsNumeral n (Text.decimal n) := by
  have hlength : Text.utf8Length (Text.decimal n) ≤ 10 := Text.utf8Length_decimal_le (by omega)
  exact ⟨Text.literal_decimal (Nat.le_trans h (by decide)), Nat.le_trans hlength (by decide)⟩

/-- The hexadecimal numeral of a 16-bit number is one. -/
theorem isNumeral_hexadecimal {n : Nat} (h : n ≤ 0xFFFF) : IsNumeral n (Text.hexadecimal n) := by
  have hlength : Text.utf8Length (Text.hexadecimal n) ≤ 6 :=
    Text.utf8Length_hexadecimal_le (Nat.lt_succ_of_le h)
  exact ⟨Text.literal_hexadecimal n, Nat.le_trans hlength (by decide)⟩

/-- A line that is left as it is, or has a numeral in place of the symbol that is its last operand.
-/
inductive Rewrites (symbols : SymbolTable) : List Char → List Char → Prop where
  | kept {line : List Char} : Rewrites symbols line line
  | replaced {slot : Slot} {symbol numeral : List Char} {address : UInt16}
      (hsymbol : slot.Takes symbol) (haddress : symbols.address? symbol = some address)
      (hnumeral : IsNumeral address.toNat numeral) :
      Rewrites symbols (slot.fill symbol) (slot.fill numeral)

/-! ## Lines -/

section

variable {slot : Slot} {symbol numeral word : List Char} {n : Nat}

/-- A slot that is filled tells the word in it. -/
theorem Slot.fill_injective {word' : List Char} (h : slot.fill word = slot.fill word') :
    word = word' := by
  unfold fill at h
  exact List.append_cancel_right
    (List.append_cancel_left (List.append_cancel_left (List.append_cancel_left h)))

/-- A numeral is no symbol. -/
theorem IsNumeral.ne_of_isMarked (h : IsNumeral n numeral) (hmarked : IsMarked symbol) :
    numeral ≠ symbol := by
  rintro rfl
  obtain ⟨hdot, hdollar⟩ := Text.head?_ne_of_isLiteralChar h.literal.isLiteralChar
  exact hmarked.elim hdot hdollar

/-- With a numeral in place of a symbol, a line reads as what it did, with the field of the symbol
closed. -/
theorem Slot.exists_closes {clause? : Option Clause} (hsymbol : slot.Takes symbol)
    (hmarked : IsMarked symbol) (hread : Clause.ofLine (slot.fill symbol) = .ok clause?)
    (hnumeral : IsNumeral n numeral) (hn : n ≤ 0xFFFF) :
    ∃ clause clause', clause? = some clause ∧
      Clause.ofLine (slot.fill numeral) = .ok (some clause') ∧ clause.Closes symbol n clause' := by
  rw [Slot.ofLine_fill hsymbol] at hread
  obtain ⟨fields, hfields, rfl⟩ := map_eq_ok_iff.mp hread
  -- The symbol is the word of the last field, which is open.
  obtain ⟨front, last, hlist, hfront, hlast⟩ :=
    List.map_eq_append_iff.mp (Fields.map_word_of_ofWords hfields)
  obtain ⟨field, rfl, hword⟩ := List.map_eq_singleton_iff.mp hlast
  obtain ⟨width, hopen⟩ := Field.exists_opens?_of_isMarked (hword ▸ hmarked)
  let word : Name := ⟨numeral, hnumeral.short⟩
  have hliteral : Text.Literal word.chars n := hnumeral.literal
  obtain ⟨field', hword', hcloses⟩ := Field.exists_closes hopen hliteral hn
  have hcomplete : (front ++ [field']).map Field.kind = slot.opcode.operands := by
    rw [← fields.complete, hlist, List.map_append, List.map_append, List.map_singleton,
      List.map_singleton, hcloses.kind]
  let fields' : Fields slot.opcode := ⟨front ++ [field'], hcomplete⟩
  have hread' : Fields.ofWords slot.opcode (Text.fields slot.middle ++ [numeral]) = .ok fields' := by
    have hwords : (fields'.list.map fun field => field.word.chars) =
        Text.fields slot.middle ++ [numeral] := by
      show (front ++ [field']).map _ = _
      rw [List.map_append, hfront, List.map_singleton, hword']
    rw [← hwords]
    exact fields'.ofWords_map_word
  refine ⟨_, ⟨slot.name, .operation slot.opcode fields'⟩, rfl, ?_,
    .operation hlist rfl hword hcloses⟩
  rw [Slot.ofLine_fill (slot.takes_of_literal hnumeral.literal), hread']
  rfl

end

/-- The clauses of lines some of which are rewritten. -/
theorem clausesOf_rewrites {symbols : SymbolTable} {changed : Nat → Prop} {number : Nat}
    {lines lines' : List (List Char)} {clauses : List (Nat × Clause)}
    (hmarked : ∀ symbol address, symbols.address? symbol = some address → IsMarked symbol)
    (h : List.Forall₂ (Rewrites symbols) lines lines')
    (hread : clausesOf number lines = .ok clauses)
    (hchanged : ∀ i, changed (number + 1 + i) ↔ lines'[i]? ≠ lines[i]?) :
    ∃ clauses', clausesOf number lines' = .ok clauses' ∧
      List.Forall₂ (Restates symbols changed) clauses clauses' := by
  -- The induction is on the lines, with the number of the one before them.
  induction h generalizing number clauses with
  | nil =>
    cases hread
    exact ⟨[], rfl, .nil⟩
  | @cons line line' rest rest' hline hrest ih =>
    obtain ⟨clause?, hfirst, hread⟩ := bind_eq_ok_iff.mp hread
    obtain ⟨others, hothers, hread⟩ := bind_eq_ok_iff.mp hread
    cases hread
    have hnext (i : Nat) : changed (number + 1 + 1 + i) ↔ rest'[i]? ≠ rest[i]? := by
      have hlater := hchanged (i + 1)
      rwa [List.getElem?_cons_succ, List.getElem?_cons_succ, ← Nat.add_assoc, Nat.add_right_comm _ i]
        at hlater
    obtain ⟨others', hothers', hrestated⟩ := ih hothers hnext
    have hhere : changed (number + 1) ↔ line' ≠ line := by
      have hzero := hchanged 0
      rwa [List.getElem?_cons_zero, List.getElem?_cons_zero, Ne, Option.some.injEq] at hzero
    cases hline with
    | kept =>
      refine ⟨_, bind_eq_ok_iff.mpr ⟨clause?, hfirst, bind_eq_ok_iff.mpr ⟨others', hothers', rfl⟩⟩,
        ?_⟩
      have hsame : ¬ changed (number + 1) := fun h => hhere.mp h rfl
      rcases clause? with _ | clause
      · exact hrestated
      · exact .cons (.kept hsame) hrestated
    | @replaced slot symbol numeral address hsymbol haddress hnumeral =>
      -- In a line that is rewritten the address of the symbol closes the clause.
      have hsymbolMarked := hmarked symbol address haddress
      obtain ⟨clause, clause', rfl, hfirst', hcloses⟩ := Slot.exists_closes hsymbol hsymbolMarked
        hfirst hnumeral (Nat.le_of_lt_succ address.toNat_lt)
      have hdiffers : changed (number + 1) := hhere.mpr fun heq =>
        hnumeral.ne_of_isMarked hsymbolMarked (Slot.fill_injective heq)
      exact ⟨_, bind_eq_ok_iff.mpr ⟨some clause', hfirst',
        bind_eq_ok_iff.mpr ⟨others', hothers', rfl⟩⟩,
        .cons (.closed hdiffers haddress hcloses) hrestated⟩

/-- Lines that are rewritten stay lines. -/
theorem Rewrites.not_mem_newline {symbols : SymbolTable} {line line' : List Char}
    (h : Rewrites symbols line line') (hline : '\n' ∉ line) : '\n' ∉ line' := by
  cases h with
  | kept => exact hline
  | @replaced slot symbol numeral address _ _ hnumeral =>
    unfold Slot.fill at hline ⊢
    simp only [List.mem_append, not_or] at hline ⊢
    obtain ⟨hlead, hmnemonic, hmiddle, -, htail⟩ := hline
    refine ⟨hlead, hmnemonic, hmiddle, fun hmem => ?_, htail⟩
    exact absurd (hnumeral.literal.isLiteralChar _ hmem) (by decide)

/-! ## Sources -/

namespace Assembler

/-- Two sources differ in the line with a number, where lines count from one. -/
def DifferAt (lines lines' : List (List Char)) (number : Nat) : Prop :=
  lines'[number - 1]? ≠ lines[number - 1]?

/-- What two sources assemble to is the same but for the statements of the lines that differ. -/
structure AgreeBut (lines lines' : List (List Char)) (final final' : Assembler) : Prop where
  /-- The symbols with their addresses are the same, and so are the constants. -/
  same : final' = { final with statements := final'.statements }
  count : final'.statements.size = final.statements.size
  /-- The statement of a line that is the same is the same. -/
  kept : ∀ (i : Nat) (statement : Statement), final.statements[i]? = some statement →
    ¬ DifferAt lines lines' statement.line → final'.statements[i]? = some statement
  /-- In the statement of another line the address of a symbol stands in the operands, and no field
  is left open. -/
  filled : ∀ (i : Nat) (statement : Statement), final.statements[i]? = some statement →
    DifferAt lines lines' statement.line →
      ∃ statement', final'.statements[i]? = some statement' ∧
        statement.Fills final.symbols statement'

/-- In a source that has been assembled, numerals of addresses can stand for symbols. -/
structure TakesNumerals (source : String) (buffer : Array UInt8) (assembler : Assembler)
    (program : Program) (final : Assembler) : Prop where
  /-- A symbol that a statement refers to has an address. It stands in a gap of the line of the
  statement, and its decimal or hexadecimal numeral can be put there. -/
  symbols : ∀ statement ∈ final.statements.toList, ∀ reference,
    statement.reference? = some reference →
      ∃ (slot : Slot) (address : UInt16),
        (Text.lines source.toList)[statement.line - 1]? =
          some (slot.fill reference.symbol.chars) ∧
        final.address? reference.symbol.chars = some address ∧
        ∀ numeral ∈ [Text.decimal address.toNat, Text.hexadecimal address.toNat],
          Rewrites final.symbols (slot.fill reference.symbol.chars) (slot.fill numeral)
  /-- Its lines with any of them rewritten are the lines of a source. -/
  written : ∀ lines', List.Forall₂ (Rewrites final.symbols) (Text.lines source.toList) lines' →
    ∃ source' : String, Text.lines source'.toList = lines'
  /-- Such a source assembles into the same program. -/
  agrees : ∀ source' : String,
    List.Forall₂ (Rewrites final.symbols) (Text.lines source.toList) (Text.lines source'.toList) →
      ∃ final', (assemble source' buffer).run assembler = .ok program final' ∧
        AgreeBut (Text.lines source.toList) (Text.lines source'.toList) final final'

section

variable {capacities : Capacities} {lines lines' : List (List Char)} {clauses : List (Nat × Clause)}

/-- Whatever has an address has the mark of a symbol. -/
theorem isMarked_of_address? {symbol : List Char} {address : UInt16}
    (hread : clausesOf 0 lines = .ok clauses)
    (h : (ofClauses capacities clauses).settled.symbols.address? symbol = some address) :
    IsMarked symbol := by
  obtain ⟨entry, hfind, -⟩ := Option.map_eq_some_iff.mp h
  have hname : entry.name.chars = symbol := by simpa using List.find?_some hfind
  have hlisted : entry.name ∈ symbolsOf clauses := by
    rw [← names_settled_ofClauses capacities clauses]
    exact List.mem_map_of_mem (List.mem_of_find?_eq_some hfind)
  obtain ⟨definition, hdefinition, hsame⟩ := List.mem_map.mp hlisted
  obtain ⟨hmem, hdefines⟩ := List.mem_filter.mp hdefinition
  obtain ⟨i, text, -, -, hline⟩ := exists_line_of_mem_clausesOf hread hmem
  have hmarked := Clause.marked_of_defines hline hdefines
  rwa [hsame, hname] at hmarked

/-- A symbol that a statement refers to stands in a gap of its line, and has an address. -/
theorem exists_slot_of_reference? {statement : Statement} {reference : Reference}
    (hread : clausesOf 0 lines = .ok clauses) (hclosed : Closed clauses)
    (hmem : statement ∈ (ofClauses capacities clauses).settled.statements.toList)
    (h : statement.reference? = some reference) :
    ∃ slot : Slot, lines[statement.line - 1]? = some (slot.fill reference.symbol.chars) ∧
      slot.Takes reference.symbol.chars ∧
      ((ofClauses capacities clauses).settled.address? reference.symbol.chars).isSome := by
  obtain ⟨front, entry, back, hsplit, rfl⟩ := exists_split_of_mem_settled hmem
  have hentry : entry ∈ clauses := hsplit ▸ List.mem_append_cons_self
  rcases entry.2.reference?_statement entry.1 (constantsOf front).length with
    ⟨hnone, -⟩ | ⟨reference', opcode, operands, hsome, hfield⟩
  · -- A clause without an open field has no reference.
    cases hnone.symm.trans h
  · -- The open field of a clause is a slot of its line.
    cases hsome.symm.trans h
    obtain ⟨field, hopen, hword⟩ := hfield.listed
    obtain ⟨i, text, hnumber, hline, hclause⟩ := exists_line_of_mem_clausesOf hread hentry
    obtain ⟨slot, htakes, hfill⟩ := Clause.exists_slot hclause hopen
    rw [hword] at htakes hfill
    refine ⟨slot, ?_, htakes, ?_⟩
    · show lines[entry.1 - 1]? = _
      rw [hnumber, Nat.zero_add, Nat.add_sub_cancel_left, hline, hfill]
    · -- Its symbol is defined, or the source would not assemble.
      have hlisted := hclosed entry hentry field hopen
      rw [← names_settled_ofClauses capacities clauses, hword] at hlisted
      exact SymbolTable.address?_isSome_iff.mpr hlisted

end

/-- Symbols and numerals of their addresses agree. If a source assembles, then every symbol that is
an operand can be replaced by a numeral of its address, and with any of them replaced the source
assembles into the same program, with the same symbols at the same addresses, while no field is left
open for a symbol that has been replaced. -/
theorem symbols_and_numerals_agree {source : String} {buffer : Array UInt8}
    {assembler final : Assembler} {program : Program}
    (h : (assemble source buffer).run assembler = .ok program final) :
    TakesNumerals source buffer assembler program final := by
  obtain ⟨hnumbered, clauses, hclauses, hassembles, rfl, rfl⟩ := assemble_run_eq_ok_iff_assembles.mp h
  refine ⟨fun statement hmem reference hreference => ?_, fun lines' hrewrites => ?_,
    fun source' hrewrites => ?_⟩
  · -- Every reference has a slot in its line, which both numerals of the address fit.
    obtain ⟨slot, hline, htakes, hsome⟩ :=
      exists_slot_of_reference? hclauses hassembles.closed hmem hreference
    obtain ⟨address, haddress⟩ := Option.isSome_iff_exists.mp hsome
    have hle : address.toNat ≤ 0xFFFF := Nat.le_of_lt_succ address.toNat_lt
    refine ⟨slot, address, hline, haddress, fun numeral hnumeral => ?_⟩
    rcases List.mem_pair.mp hnumeral with rfl | rfl
    · exact .replaced htakes haddress (isNumeral_decimal hle)
    · exact .replaced htakes haddress (isNumeral_hexadecimal hle)
  · -- Each line ends in a line feed, and there are no others in it.
    refine ⟨String.ofList (lines'.flatMap fun line => line ++ ['\n']), ?_⟩
    rw [String.toList_ofList]
    refine Text.lines_flatMap fun line' hmem => ?_
    obtain ⟨i, hi', rfl⟩ := List.mem_iff_getElem.mp hmem
    have hi : i < (Text.lines source.toList).length := hrewrites.length_eq ▸ hi'
    exact (hrewrites.get hi hi').not_mem_newline (Text.not_mem_of_mem_lines (List.getElem_mem hi))
  · -- The clauses of the rewritten source restate those of this one, and the rest follows from
    -- that.
    have hdiffer (i : Nat) :
        DifferAt (Text.lines source.toList) (Text.lines source'.toList) (0 + 1 + i) ↔
          (Text.lines source'.toList)[i]? ≠ (Text.lines source.toList)[i]? := by
      unfold DifferAt
      rw [Nat.zero_add, Nat.add_sub_cancel_left]
    obtain ⟨clauses', hclauses', hrestated⟩ := clausesOf_rewrites
      (fun _ _ => isMarked_of_address? hclauses) hrewrites hclauses hdiffer
    have hnumbered' : Numbered source' := by
      unfold Numbered
      rw [← hrewrites.length_eq]
      exact hnumbered
    refine ⟨_, assemble_run_eq_ok_iff_assembles.mpr ⟨hnumbered', clauses', hclauses',
      hassembles.restated hrestated, (program_restated hassembles hrestated).symm, rfl⟩,
      settled_restated hassembles hrestated, ?_, fun i statement hstatement hsame => ?_,
      fun i statement hstatement hdiffers => ?_⟩
    · rw [size_statements_settled, size_statements_settled, hrestated.length_eq]
    · exact (getElem?_restated hrestated hstatement).1 hsame
    · exact (getElem?_restated hrestated hstatement).2 hdiffers

/-- A source with a load of an address, a jump forward and a call back. -/
def symbolic : String :=
  ".loop:\nlcons r0, $count ; here\njmp .end\n$count DV8 2\ncall .loop\n.end:\nhalt"

/-- The source with numerals in place of two symbols, a decimal and a hexadecimal one. -/
def numeric : String :=
  ".loop:\nlcons r0, 9 ; here\njmp 0xc\n$count DV8 2\ncall .loop\n.end:\nhalt"

/-- The line of the load. -/
def loadSlot : Slot where
  opcode := .lcons
  lead := []
  mnemonic := "lcons".toList
  middle := " r0, ".toList
  tail := " ".toList
  comment := "; here".toList
  blank := by decide
  named := ⟨"lcons", .head _, by decide⟩
  apart := ⟨' ', by decide, by decide⟩
  parted := ⟨' ', by decide, by decide⟩
  plain := by decide
  behind := by decide
  commented := .inr (by decide)

/-- The line of the jump. -/
def jumpSlot : Slot where
  opcode := .jmp
  lead := []
  mnemonic := "jmp".toList
  middle := " ".toList
  tail := []
  comment := []
  blank := by decide
  named := ⟨"jmp", .head _, by decide⟩
  apart := ⟨' ', by decide, by decide⟩
  parted := ⟨' ', by decide, by decide⟩
  plain := by decide
  behind := by decide
  commented := .inl rfl

/-- The two sources assemble into the same program. -/
theorem symbols_and_numerals_agree_symbolic_numeric :
    ∃ program final final',
      (assemble symbolic (Array.replicate 20 9)).run (empty ⟨none, none, none⟩) =
        .ok program final ∧
      (assemble numeric (Array.replicate 20 9)).run (empty ⟨none, none, none⟩) =
        .ok program final' ∧
      AgreeBut (Text.lines symbolic.toList) (Text.lines numeric.toList) final final' := by
  have hassembled : (match
      (assemble symbolic (Array.replicate 20 9)).run (empty ⟨none, none, none⟩) with
    | .ok _ final => decide (final.symbols.address? "$count".toList = some 9 ∧
        final.symbols.address? ".end".toList = some 12)
    | .error _ _ => false) = true := by decide +kernel
  have hsymbolic : Text.lines symbolic.toList = [".loop:".toList, loadSlot.fill "$count".toList,
      jumpSlot.fill ".end".toList, "$count DV8 2".toList, "call .loop".toList, ".end:".toList,
      "halt".toList] := by decide +kernel
  have hnumeric : Text.lines numeric.toList = [".loop:".toList, loadSlot.fill (Text.decimal 9),
      jumpSlot.fill (Text.hexadecimal 12), "$count DV8 2".toList, "call .loop".toList,
      ".end:".toList, "halt".toList] := by decide +kernel
  have hcount : loadSlot.Takes "$count".toList := ⟨by decide, by decide, by decide, .inr (by decide)⟩
  have hend : jumpSlot.Takes ".end".toList := ⟨by decide, by decide, by decide, .inl rfl⟩
  split at hassembled
  · rename_i program final hrun
    obtain ⟨haddress, haddress'⟩ := of_decide_eq_true hassembled
    have hrewrites : List.Forall₂ (Rewrites final.symbols) (Text.lines symbolic.toList)
        (Text.lines numeric.toList) := by
      rw [hsymbolic, hnumeric]
      exact .cons .kept (.cons (.replaced hcount haddress (isNumeral_decimal (by decide)))
        (.cons (.replaced hend haddress' (isNumeral_hexadecimal (by decide)))
          (.cons .kept (.cons .kept (.cons .kept (.cons .kept .nil))))))
    obtain ⟨final', hrun', hagree⟩ := (symbols_and_numerals_agree hrun).agrees numeric hrewrites
    exact ⟨program, final, final', hrun, hrun', hagree⟩
  · cases hassembled

end Assembler

end RegisterMachine.Assembly
