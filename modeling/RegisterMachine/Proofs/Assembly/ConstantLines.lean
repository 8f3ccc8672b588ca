import RegisterMachine.Proofs.Assembly.ConstantItems
import RegisterMachine.Proofs.Assembly.OperationLines
import RegisterMachine.Proofs.Assembly.Resolution

/-!
# What lines of constants emit

A line of constants has a symbol and a type (`ConstantHead`), and then its items. With a new symbol
and room for it, the line is accepted when all items are read, and their bytes are stored; otherwise
it is refused for the first item that is not (`constants_are_emitted_exactly`). In the image the
bytes stand at the address of the symbol.
-/

namespace RegisterMachine.Assembly

/-- What a line of constants has before its items: a symbol and a type, and blanks. -/
structure ConstantHead where
  width : Width
  symbol : Name
  /-- The type as written. -/
  type : List Char
  /-- The blanks before the symbol, before the type and after it. -/
  gaps : List Char × List Char × List Char
  dollar : symbol.chars.head? = some '$'
  plain : ∀ c ∈ symbol.chars, Text.isBlank c = false ∧ c ≠ '"' ∧ c ≠ ';'
  named : type.map Char.toLower = 'd' :: 'c' :: Text.decimal width.bits
  blank : Text.IsGap gaps.1 ∧ Text.IsGap gaps.2.1 ∧ Text.IsGap gaps.2.2
  apart : gaps.2.1 ≠ [] ∧ gaps.2.2 ≠ []

/-- The beginning of the line. -/
def ConstantHead.text (head : ConstantHead) : List Char :=
  head.gaps.1 ++ (head.symbol.chars ++ (head.gaps.2.1 ++ (head.type ++ head.gaps.2.2)))

/-! ## The beginning of a line -/

section

variable {text word rest : List Char}

/-- A line that starts with the symbol of data is read as a data directive. -/
theorem Parse.line_eq_directive (number : Nat)
    (hline : Text.firstWord (Text.trim (Text.withoutComment text)) = (word, rest))
    (hdollar : word.head? = some '$') : Parse.line number text = Parse.directive number word rest := by
  have hne := Text.ne_nil_of_firstWord hline (List.ne_nil_of_mem (List.mem_of_head? hdollar))
  have hdot : word.head? ≠ some '.' := by
    rw [hdollar]
    decide
  unfold Parse.line
  dsimp only
  rw [if_neg hne, hline]
  dsimp only
  rw [if_neg hdot, Opcode.ofMnemonic?_of_dollar hdollar]
  dsimp only
  rw [if_pos hdollar]

/-- And so it is when it is read by itself. -/
theorem Clause.ofLine_eq_directive
    (hline : Text.firstWord (Text.trim (Text.withoutComment text)) = (word, rest))
    (hdollar : word.head? = some '$') : Clause.ofLine text = some <$> Clause.ofDirective word rest := by
  have hne := Text.ne_nil_of_firstWord hline (List.ne_nil_of_mem (List.mem_of_head? hdollar))
  have hdot : word.head? ≠ some '.' := by
    rw [hdollar]
    decide
  unfold Clause.ofLine
  dsimp only
  rw [if_neg hne, hline]
  dsimp only
  rw [if_neg hdot, Opcode.ofMnemonic?_of_dollar hdollar]
  dsimp only
  rw [if_pos hdollar]

end

namespace ConstantHead

variable (head : ConstantHead) (number : Nat) (values : List Char)

/-- The type has letters and digits only. -/
theorem isLiteralChar_of_mem_type : ∀ c ∈ head.type, Text.IsLiteralChar c := by
  intro c hc
  apply Text.isLiteralChar_of_toLower
  have hlower : c.toLower ∈ head.type.map Char.toLower := List.mem_map_of_mem hc
  have hplain : ∀ c ∈ 'd' :: 'c' :: Text.decimal head.width.bits, Text.IsLiteralChar c := by
    cases head.width <;> decide
  rw [head.named] at hlower
  exact hplain _ hlower

/-- The type reads as constants of its width. -/
theorem ofChars?_type : DataType.ofChars? head.type = some ⟨.rom, head.width⟩ := by
  unfold DataType.ofChars?
  rw [head.named]
  cases head.width <;> decide

/-- The type is not empty. -/
theorem type_ne_nil : head.type ≠ [] := by
  intro hnil
  have hnamed := head.named
  rw [hnil] at hnamed
  cases hnamed

/-- The beginning of the line leaves no quote open and starts no comment. -/
theorem closed_text : Text.Closed ';' head.text := by
  have hblank : Text.isBlank ';' = false := by decide
  have hsymbol : Text.Closed ';' head.symbol.chars := .of_plain fun c hc => (head.plain c hc).2
  have htype : Text.Closed ';' head.type := .of_plain fun c hc =>
    ⟨(head.isLiteralChar_of_mem_type c hc).ne_quote, (head.isLiteralChar_of_mem_type c hc).plain.2.1⟩
  exact .append (.of_gap head.blank.1 hblank) (.append hsymbol
    (.append (.of_gap head.blank.2.1 hblank) (.append htype (.of_gap head.blank.2.2 hblank))))

/-- Blanks that are there stand after the word before them. -/
theorem isBlank_of_head?_append {gap rest : List Char} (hgap : Text.IsGap gap) (hne : gap ≠ [])
    {c : Char} (h : (gap ++ rest).head? = some c) : Text.isBlank c = true := by
  obtain ⟨first, others, rfl⟩ := List.exists_cons_of_ne_nil hne
  cases h
  exact hgap _ List.mem_cons_self

/-- What the assembler sees behind the symbol. -/
def rest : List Char :=
  Text.trim (head.type ++ (head.gaps.2.2 ++ Text.withoutComment values))

/-- The first word of the line is its symbol, and the rest follows. -/
theorem firstWord_line :
    Text.firstWord (Text.trim (Text.withoutComment (head.text ++ values))) =
      (head.symbol.chars, head.rest values) := by
  have hfirst (others : List Char) :
      ∀ c, (head.symbol.chars ++ others).head? = some c → Text.isBlank c = false := by
    obtain ⟨tail, htail⟩ := List.head?_eq_some_iff.mp head.dollar
    rw [htail]
    rintro _ ⟨⟩
    decide
  rw [Text.withoutComment_append head.closed_text]
  unfold text rest
  rw [List.append_assoc, Text.trim_append_left head.blank.1, List.append_assoc,
    Text.firstWord_trim (hfirst _), Text.firstWord_append (fun c hc => (head.plain c hc).1) ?_]
  · rw [List.append_assoc, Text.trim_append_left head.blank.2.1, List.append_assoc]
  · intro c hc
    rw [List.append_assoc] at hc
    exact isBlank_of_head?_append head.blank.2.1 head.apart.1 hc

/-- Behind the symbol are the type and the values, which are missing if there is nothing but blanks
and a comment. -/
theorem firstWord_rest : Text.firstWord (head.rest values) =
    (head.type, Text.trim (Text.withoutComment values)) := by
  have hfirst (others : List Char) :
      ∀ c, (head.type ++ others).head? = some c → Text.isBlank c = false := by
    obtain ⟨first, tail, htail⟩ := List.exists_cons_of_ne_nil head.type_ne_nil
    intro c hc
    have hmem : c ∈ head.type := by
      rw [htail] at hc ⊢
      cases hc
      exact List.mem_cons_self
    exact (head.isLiteralChar_of_mem_type c hmem).not_isBlank
  unfold rest
  rw [Text.firstWord_trim (hfirst _),
    Text.firstWord_append (fun c hc => (head.isLiteralChar_of_mem_type c hc).not_isBlank)
      fun c => isBlank_of_head?_append head.blank.2.2 head.apart.2,
    Text.trim_append_left head.blank.2.2]

/-- The rest reads as a directive with the items as they are written, without their comment. -/
theorem ofChars_rest (h : ∃ c ∈ Text.withoutComment values, Text.isBlank c = false) :
    Directive.ofChars head.symbol.chars (head.rest values) =
      .ok ⟨head.symbol, ⟨.rom, head.width⟩, Text.trim (Text.withoutComment values)⟩ := by
  obtain ⟨c, hc, hblank⟩ := h
  have hvalues : (Text.trim (Text.withoutComment values)).isEmpty = false :=
    List.isEmpty_eq_false_iff.mpr (Text.trim_ne_nil hc hblank)
  unfold Directive.ofChars
  rw [head.firstWord_rest]
  dsimp only
  rw [List.isEmpty_eq_false_iff.mpr head.type_ne_nil, hvalues, head.ofChars?_type,
    Name.ofChars_chars]
  rfl

/-- With nothing but blanks and a comment after the type, the values are missing. -/
theorem ofChars_rest_of_isGap (h : Text.IsGap (Text.withoutComment values)) :
    Directive.ofChars head.symbol.chars (head.rest values) = .error .missingDataValues := by
  unfold Directive.ofChars
  rw [head.firstWord_rest, Text.trim_eq_nil h]
  dsimp only
  rw [List.isEmpty_eq_false_iff.mpr head.type_ne_nil]
  rfl

end ConstantHead

/-! ## What a line of constants does -/

section

variable {width : Width} {values comment : List Char} {bytes : List UInt8} {cause : Cause}
  {assembler : Assembler}

namespace ConstantHead

variable (head : ConstantHead) (number : Nat)

/-- The clause of a line of constants. -/
def clause (bytes : List UInt8) : Clause :=
  ⟨head.symbol, .constants head.width bytes⟩

/-- Items that spell bytes are kept when the comment is dropped. -/
theorem withoutComment_values (h : Spells head.width values bytes) (hcomment : IsComment comment) :
    Text.withoutComment (values ++ comment) = values := by
  rw [Text.withoutComment_append h.closed, withoutComment_of_isComment hcomment, List.append_nil]

/-- Items that spell bytes read as the clause with those bytes. -/
theorem ofDirective_of_spells (h : Spells head.width values bytes) (hcomment : IsComment comment) :
    Clause.ofDirective head.symbol.chars (head.rest (values ++ comment)) =
      .ok (head.clause bytes) := by
  have hvalues := head.withoutComment_values h hcomment
  have hconstants : Clause.constantsOf head.width (Text.items (Text.trim values)) = .ok bytes := by
    rw [constantsOf_congr (Text.map_trim_items_trim values), h.constantsOf_eq]
  refine bind_eq_ok_iff.mpr ⟨_, head.ofChars_rest _ (by rw [hvalues]; exact h.exists_mem), ?_⟩
  dsimp only
  rw [hvalues]
  exact bind_eq_ok_iff.mpr ⟨bytes, hconstants, rfl⟩

/-- A line of constants whose items are read stores their bytes. -/
theorem line_run_of_spells (h : Spells head.width values bytes) (hcomment : IsComment comment)
    (hadmits : assembler.Admits (head.clause bytes)) :
    (Parse.line number (head.text ++ (values ++ comment))).run assembler =
      .ok () (assembler.extend (number, head.clause bytes)) := by
  rw [Parse.line_eq_directive number (head.firstWord_line _) head.dollar]
  exact Parse.directive_run_eq_ok_iff.mpr ⟨_, head.ofDirective_of_spells h hcomment, hadmits, rfl⟩

/-- A line of constants is refused at its first item that is not read, and the symbol and what
stands before the item stay. -/
theorem line_run_of_breaks (h : Breaks head.width values bytes cause)
    (hfresh : assembler.symbols.defines head.symbol = false)
    (hsymbols : assembler.capacities.symbols.admits
      (assembler.symbols.entries.length + 1) = true)
    (hroom : assembler.capacities.constants.admits (assembler.pool.size + bytes.length) = true) :
    (Parse.line number (head.text ++ values)).run assembler = .error cause { assembler with
      symbols := assembler.symbols.add head.symbol
      pool := assembler.pool ++ bytes } := by
  have hdefine := Parse.define_run_eq_ok_iff.mpr ⟨hfresh, hsymbols, rfl⟩
  rw [Parse.line_eq_directive number (head.firstWord_line _) head.dollar]
  unfold Parse.directive
  refine ofExcept_bind_run_eq_error_iff.mpr (.inr ⟨_, head.ofChars_rest _ h.exists_mem, ?_⟩)
  refine bind_run_eq_error_iff.mpr (.inr ⟨(), _, hdefine, ?_⟩)
  dsimp only
  refine get_bind_run_eq_error_iff.mpr (bind_run_eq_error_iff.mpr (.inl ?_))
  exact Parse.forM_constant_run_of_stops h.stops.trim hroom

/-- A line without items is refused for that, and nothing of it stays. -/
theorem line_run_of_missing {gap : List Char} (hgap : Text.IsGap gap) (hcomment : IsComment comment) :
    (Parse.line number (head.text ++ (gap ++ comment))).run assembler =
      .error .missingDataValues assembler := by
  have hvalues : Text.withoutComment (gap ++ comment) = gap := by
    rw [Text.withoutComment_append (.of_gap hgap (by decide)), withoutComment_of_isComment hcomment,
      List.append_nil]
  rw [Parse.line_eq_directive number (head.firstWord_line _) head.dollar]
  unfold Parse.directive
  refine ofExcept_bind_run_eq_error_iff.mpr (.inl ⟨head.ofChars_rest_of_isGap _ ?_, rfl⟩)
  rwa [hvalues]

end ConstantHead

/-- What a line of constants does after its symbol and its type, whatever its items are. -/
structure EmitsConstants (head : ConstantHead) (number : Nat) (assembler : Assembler) : Prop where
  /-- Items that are all read are emitted as their bytes, if there is room for them. -/
  parsed : ∀ values bytes comment, Spells head.width values bytes → IsComment comment →
    assembler.capacities.constants.admits (assembler.pool.size + bytes.length) = true →
    assembler.capacities.statements.admits (assembler.statements.size + 1) = true →
    (Parse.line number (head.text ++ (values ++ comment))).run assembler = .ok () { assembler with
      statements := assembler.statements.push
        ⟨number, head.symbol, .constants head.width assembler.pool.size bytes.length, 0⟩
      symbols := assembler.symbols.add head.symbol
      pool := assembler.pool ++ bytes }
  /-- Otherwise the line is refused for the first one that is not, if there is room for those before
  it. -/
  refused : ∀ values bytes cause, Breaks head.width values bytes cause →
    assembler.capacities.constants.admits (assembler.pool.size + bytes.length) = true →
    (Parse.line number (head.text ++ values)).run assembler = .error cause { assembler with
      symbols := assembler.symbols.add head.symbol
      pool := assembler.pool ++ bytes }
  /-- There must be an item. -/
  missing : ∀ gap comment, Text.IsGap gap → IsComment comment →
    (Parse.line number (head.text ++ (gap ++ comment))).run assembler =
      .error .missingDataValues assembler
  /-- In a source that assembles, the bytes stand at the address of the symbol. -/
  emitted : ∀ values bytes comment, Spells head.width values bytes → IsComment comment →
    ∀ source, head.text ++ (values ++ comment) ∈ Text.lines source.toList →
    ∀ buffer before program final,
      (Assembler.assemble source buffer).run before = .ok program final →
      ∃ address, final.address? head.symbol.chars = some address ∧
        (program.image.drop address.toNat).take bytes.length = bytes

/-- The clause of a line of constants is laid out at the address of its symbol. -/
theorem image_of_constants {source : String} {buffer : Array UInt8} {program : Program}
    {final : Assembler} (h : (Assembler.assemble source buffer).run assembler = .ok program final)
    {text : List Char} (hmem : text ∈ Text.lines source.toList) {name : Name}
    (hread : Clause.ofLine text = .ok (some ⟨name, .constants width bytes⟩)) :
    ∃ address, final.address? name.chars = some address ∧
      (program.image.drop address.toNat).take bytes.length = bytes := by
  obtain ⟨-, clauses, hclauses, hadmits, hfits, hresolves, rfl, rfl⟩ :=
    Assembler.assemble_run_eq_ok_iff.mp h
  have hsettles := Assembler.settles_ofClauses hadmits hfits hresolves
  obtain ⟨line, hline⟩ := mem_clausesOf hclauses hmem hread
  obtain ⟨front, back, hsplit⟩ := List.append_of_mem hline
  obtain ⟨start, address, -, -, haddress, hsymbol⟩ := hsettles.statement front line _ back hsplit
  refine ⟨address, hsymbol rfl, ?_⟩
  rw [hsettles.image, haddress]
  conv => lhs; rw [hsplit, imageOf_append, imageOf_cons, List.drop_left]
  exact List.take_left

/-- Constants are emitted exactly as they are listed. With a new symbol and room for it, a line of
constants is accepted when all of its items are literals in the range of the width or quoted texts,
and emits their bytes one after the other; otherwise it is refused for the first item that is
neither. -/
theorem constants_are_emitted_exactly (head : ConstantHead) (number : Nat)
    (hfresh : assembler.symbols.defines head.symbol = false)
    (hsymbols : assembler.capacities.symbols.admits
      (assembler.symbols.entries.length + 1) = true) :
    EmitsConstants head number assembler where
  parsed := by
    intro values bytes comment hvalues hcomment hconstants hstatements
    have hadmits : assembler.Admits (head.clause bytes) := by
      refine ⟨fun _ => hfresh, fun _ => hsymbols, ?_, hstatements⟩
      rintro _ _ ⟨⟩
      exact hconstants
    exact head.line_run_of_spells number hvalues hcomment hadmits
  refused := fun values bytes cause hbreaks hroom =>
    head.line_run_of_breaks number hbreaks hfresh hsymbols hroom
  missing := fun gap comment hgap hcomment => head.line_run_of_missing number hgap hcomment
  emitted := by
    intro values bytes comment hvalues hcomment source hmem buffer before program final hrun
    have hread : Clause.ofLine (head.text ++ (values ++ comment)) =
        .ok (some (head.clause bytes)) := by
      rw [Clause.ofLine_eq_directive (head.firstWord_line _) head.dollar,
        head.ofDirective_of_spells hvalues hcomment]
      rfl
    exact image_of_constants hrun hmem hread

/-- The beginning of a line of half words. -/
def halfWords : ConstantHead where
  width := .half
  symbol := ⟨"$Größe,1".toList, by decide⟩
  type := "dC16".toList
  gaps := ("\t".toList, " ".toList, "  ".toList)
  dollar := by decide
  plain := by decide
  named := by decide
  blank := by decide
  apart := by decide

/-- A line with a literal at the end of the range, a text full of separators and a comment, and one
that is refused at its second item. -/
theorem constants_are_emitted_exactly_halfWords :
    ((Parse.line 7 "\t$Größe,1 dC16  -0x8000 , \",;é \",65535; \"end".toList).run
        (.empty ⟨some 1, some 1, some 10⟩) =
      .ok () { Assembler.empty ⟨some 1, some 1, some 10⟩ with
        statements := #[⟨7, halfWords.symbol, .constants .half 0 10, 0⟩]
        symbols := ⟨[⟨halfWords.symbol, 0⟩]⟩
        pool := #[0x00, 0x80, 0x2C, 0x3B, 0xC3, 0xA9, 0x20, 0x00, 0xFF, 0xFF] }) ∧
    (Parse.line 8 "\t$Größe,1 dC16  \"a\", -32769,".toList).run
        (.empty ⟨some 1, some 1, some 2⟩) =
      .error (.integerTooLow (-32769)) { Assembler.empty ⟨some 1, some 1, some 2⟩ with
        symbols := ⟨[⟨halfWords.symbol, 0⟩]⟩
        pool := #[0x61, 0x00] } := by
  have hliteral {item : List Char} {v : Int} (h : Text.integer? item = some v) :
      Text.Literal item v := (Text.integer?_eq_some_iff.mp h).1
  have hfirst : Stands .half "-0x8000".toList [0x00, 0x80] :=
    .literal (hliteral (v := -0x8000) (by decide)) (by decide) (by decide)
  have htext : Stands .half (Text.quote ",;é ".toList) [0x2C, 0x3B, 0xC3, 0xA9, 0x20, 0x00] :=
    .quoted (by decide)
  have hlast : Stands .half "65535".toList [0xFF, 0xFF] :=
    .literal (hliteral (v := 65535) (by decide)) (by decide) (by decide)
  have hgap : Text.IsGap [' '] := by decide
  have hnone : Text.IsGap [] := by decide
  have htail : Spells .half " \",;é \",65535".toList
      ([0x2C, 0x3B, 0xC3, 0xA9, 0x20, 0x00] ++ [0xFF, 0xFF]) :=
    @Spells.cons .half [' '] _ [] "65535".toList _ _ hgap htext hnone
      (@Spells.last .half [] _ [] _ hnone hlast hnone)
  have hvalues : Spells .half "-0x8000 , \",;é \",65535".toList
      [0x00, 0x80, 0x2C, 0x3B, 0xC3, 0xA9, 0x20, 0x00, 0xFF, 0xFF] :=
    @Spells.cons .half [] _ [' '] _ _ _ hnone hfirst hgap htail
  have hitem : IsItem "-32769".toList [','] := by
    refine ⟨isTrimmed_of_literal (hliteral (v := -32769) (by decide)), ?_,
      .inr ⟨by decide, .inl rfl⟩⟩
    rintro _ (rfl | rfl) <;> decide
  have hlow : Fails .half "-32769".toList (.integerTooLow (-32769)) :=
    .low (hliteral (v := -32769) (by decide)) (by decide) (by decide)
  have hbreaks : Breaks .half "\"a\", -32769,".toList ([0x61, 0x00] ++ [])
      (.integerTooLow (-32769)) :=
    @Breaks.later .half [] (Text.quote "a".toList) [] _ _ _ _ hnone (.quoted (by decide)) hnone
      (@Breaks.here .half [' '] _ [] [','] _ hgap hitem hlow hnone (.inr rfl))
  have hline : "\t$Größe,1 dC16  -0x8000 , \",;é \",65535; \"end".toList =
      halfWords.text ++ ("-0x8000 , \",;é \",65535".toList ++ "; \"end".toList) := by decide
  have hline' : "\t$Größe,1 dC16  \"a\", -32769,".toList =
      halfWords.text ++ "\"a\", -32769,".toList := by decide
  have hparsed : EmitsConstants halfWords 7 (.empty ⟨some 1, some 1, some 10⟩) :=
    constants_are_emitted_exactly halfWords 7 rfl (by decide)
  have hrefused : EmitsConstants halfWords 8 (.empty ⟨some 1, some 1, some 2⟩) :=
    constants_are_emitted_exactly halfWords 8 rfl (by decide)
  constructor
  · rw [hline, hparsed.parsed _ _ _ hvalues (.inr (by decide)) (by decide) (by decide)]
    rfl
  · rw [hline', hrefused.refused _ _ _ hbreaks (by decide)]
    rfl

end

end RegisterMachine.Assembly
