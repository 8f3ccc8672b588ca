import RegisterMachine.Proofs.Assembly.Composition

/-!
# Parsing stops at the first bad line

The lines before the one that is refused are parsed as they are by themselves, and the lines after
it are not looked at (`Assembler.exists_of_parseLines_eq_error`). The refused line stores no
statement, and at most the symbol that it defines itself (`Parse.definesAtMost_line`). So a refusal
is a fact about the lines up to it (`Assembler.Refusal`), and what parses does so line by line
(`Assembler.parsing_keeps_the_good_lines`).
-/

namespace RegisterMachine.Assembly

/-- The symbol that a line defines if it is read so far: the name before the colon of a label, or
the first word of a data directive. -/
def symbolOf (text : List Char) : Option (List Char) :=
  let word := (Text.firstWord (Text.trim (Text.withoutComment text))).1
  if word.head? = some '.' then some word.dropLast
  else if word.head? = some '$' then some word
  else none

/-! ## The symbol of a line -/

/-- A computation leaves the symbols as they are or adds one of a given name, however it ends. -/
def DefinesAtMost {α : Type} (symbol? : Option (List Char)) (x : Parse α) : Prop :=
  ∀ assembler : Assembler, (ending (x.run assembler)).symbols = assembler.symbols ∨
    ∃ name : Name, symbol? = some name.chars ∧
      (ending (x.run assembler)).symbols = assembler.symbols.add name

section

variable {α β : Type} {symbol? : Option (List Char)}

/-- A value defines nothing. -/
theorem definesAtMost_pure (value : α) : DefinesAtMost symbol? (pure value) :=
  fun _ => .inl rfl

/-- An error defines nothing. -/
theorem definesAtMost_throw (cause : Cause) : DefinesAtMost symbol? (throw cause : Parse α) :=
  fun _ => .inl rfl

/-- A computation that defines nothing leaves the symbols as they are. -/
theorem DefinesAtMost.symbols_eq {x : Parse α} (h : DefinesAtMost none x) (assembler : Assembler) :
    (ending (x.run assembler)).symbols = assembler.symbols := by
  rcases h assembler with hsame | ⟨name, hname, -⟩
  · exact hsame
  · cases hname

/-- After what may define a symbol comes what defines none. -/
theorem DefinesAtMost.bind {x : Parse α} {f : α → Parse β} (hx : DefinesAtMost symbol? x)
    (hf : ∀ value, DefinesAtMost none (f value)) : DefinesAtMost symbol? (x >>= f) := by
  intro assembler
  have h := hx assembler
  rw [EStateM.run_bind]
  revert h
  cases x.run assembler with
  | error cause assembler' => exact id
  | ok value assembler' =>
    intro h
    rwa [(hf value).symbols_eq assembler']

/-- What a verdict refuses defines nothing. -/
theorem definesAtMost_ofExcept_bind {verdict : Except Cause α} {f : α → Parse β}
    (hf : ∀ value, verdict = .ok value → DefinesAtMost symbol? (f value)) :
    DefinesAtMost symbol? (MonadExcept.ofExcept verdict >>= f) := by
  cases verdict with
  | error cause => exact fun _ => .inl rfl
  | ok value => exact hf value rfl

/-- To look at the assembler defines nothing. -/
theorem definesAtMost_get_bind {f : Assembler → Parse β}
    (hf : ∀ assembler, DefinesAtMost symbol? (f assembler)) : DefinesAtMost symbol? (get >>= f) :=
  fun assembler => hf assembler assembler

/-- Computations that define nothing do so one after the other. -/
theorem definesAtMost_forM {f : α → Parse Unit} (items : List α)
    (hf : ∀ item, DefinesAtMost none (f item)) : DefinesAtMost none (items.forM f) := by
  rw [List.forM_eq_forM]
  induction items with
  | nil => exact definesAtMost_pure ()
  | cons item items ih =>
    rw [List.forM_cons]
    exact (hf item).bind fun _ => ih

end

namespace Parse

/-- A definition defines its name and no other one. -/
theorem definesAtMost_define (name : Name) : DefinesAtMost (some name.chars) (define name) := by
  intro assembler
  rw [define_run]
  split
  · exact .inl rfl
  · split
    · exact .inl rfl
    · exact .inr ⟨name, rfl, rfl⟩

/-- To store a statement defines nothing. -/
theorem definesAtMost_store (statement : Statement) : DefinesAtMost none (store statement) := by
  intro assembler
  rw [store_run]
  split <;> exact .inl rfl

/-- To store constants defines nothing. -/
theorem definesAtMost_storeBytes (bytes : List UInt8) : DefinesAtMost none (storeBytes bytes) := by
  intro assembler
  rw [storeBytes_run]
  split <;> exact .inl rfl

/-- An item of constants defines nothing. -/
theorem definesAtMost_constant (width : Width) (item : List Char) :
    DefinesAtMost none (constant width item) :=
  definesAtMost_ofExcept_bind fun pieces _ => definesAtMost_forM pieces definesAtMost_storeBytes

/-- A label defines its word without the colon, and no other symbol. -/
theorem definesAtMost_label (number : Nat) (word rest : List Char) :
    DefinesAtMost (some word.dropLast) (label number word rest) := by
  refine definesAtMost_ofExcept_bind fun name hname => ?_
  have hchars : name.chars = word.dropLast := by
    unfold labelName at hname
    split at hname
    · exact Name.chars_of_ofChars hname
    · cases hname
  rw [← hchars]
  exact (definesAtMost_define name).bind fun _ => definesAtMost_store _

/-- An operation defines nothing. -/
theorem definesAtMost_operation (number : Nat) (opcode : Opcode) (word rest : List Char) :
    DefinesAtMost none (operation number opcode word rest) :=
  definesAtMost_ofExcept_bind fun statement _ => definesAtMost_store statement

/-- A directive defines its word, and no other symbol. -/
theorem definesAtMost_directive (number : Nat) (word rest : List Char) :
    DefinesAtMost (some word) (directive number word rest) := by
  refine definesAtMost_ofExcept_bind fun ⟨name, ⟨storage, width⟩, values⟩ hdirective => ?_
  have hchars : name.chars = word := Directive.name_of_ofChars hdirective
  rw [← hchars]
  refine (definesAtMost_define name).bind fun _ => ?_
  cases storage with
  | ram => exact definesAtMost_ofExcept_bind fun count _ => definesAtMost_store _
  | rom =>
    refine definesAtMost_get_bind fun before => ?_
    refine (definesAtMost_forM _ fun item => definesAtMost_constant width _).bind fun _ => ?_
    exact definesAtMost_get_bind fun after => definesAtMost_store _

/-- A line defines at most its own symbol, also when it is refused. -/
theorem definesAtMost_line (number : Nat) (text : List Char) :
    DefinesAtMost (symbolOf text) (line number text) := by
  unfold line
  dsimp only
  generalize hword : (Text.firstWord (Text.trim (Text.withoutComment text))).1 = word
  have hsymbol : symbolOf text = if word.head? = some '.' then some word.dropLast
      else if word.head? = some '$' then some word else none := by rw [← hword]; rfl
  rw [hsymbol]
  by_cases hblank : Text.trim (Text.withoutComment text) = []
  · rw [if_pos hblank]
    exact definesAtMost_pure ()
  · rw [if_neg hblank]
    by_cases hdot : word.head? = some '.'
    · rw [if_pos hdot, if_pos hdot]
      exact definesAtMost_label _ _ _
    · rw [if_neg hdot, if_neg hdot]
      cases Opcode.ofMnemonic? word with
      | some opcode =>
        exact fun assembler => .inl ((definesAtMost_operation _ _ _ _).symbols_eq assembler)
      | none =>
        dsimp only
        by_cases hdollar : word.head? = some '$'
        · rw [if_pos hdollar, if_pos hdollar]
          exact definesAtMost_directive _ _ _
        · rw [if_neg hdollar, if_neg hdollar]
          exact definesAtMost_throw .notAValidLine

/-- A refused line stores no statement. -/
theorem statements_of_line_run_eq_error {number : Nat} {text : List Char} {cause : Cause}
    {assembler assembler' : Assembler}
    (h : (line number text).run assembler = .error cause assembler') :
    assembler'.statements = assembler.statements := by
  cases line_run_eq_error h <;> rfl

end Parse

namespace Assembler

/-! ## Good lines -/

/-- The statements and the symbols of an assembler are the first ones of another one. -/
structure Starts (assembler assembler' : Assembler) : Prop where
  statements : assembler.statements.toList <+: assembler'.statements.toList
  symbols : assembler.symbols.entries <+: assembler'.symbols.entries

/-- An assembler starts itself. -/
theorem Starts.refl (assembler : Assembler) : assembler.Starts assembler :=
  ⟨List.prefix_refl _, List.prefix_refl _⟩

/-- What starts an assembler starts those that it starts. -/
theorem Starts.trans {assembler assembler' final : Assembler} (h : assembler.Starts assembler')
    (h' : assembler'.Starts final) : assembler.Starts final :=
  ⟨h.statements.trans h'.statements, h.symbols.trans h'.symbols⟩

/-- One more clause is put behind what is there. -/
theorem starts_extend (assembler : Assembler) (entry : Nat × Clause) :
    assembler.Starts (assembler.extend entry) := by
  constructor
  · unfold extend
    rw [Array.toList_push]
    exact List.prefix_append _ _
  · unfold extend
    dsimp only
    split
    · exact List.prefix_append _ _
    · exact List.prefix_refl _

/-- More clauses are put behind what is there. -/
theorem starts_extendAll (assembler : Assembler) (clauses : List (Nat × Clause)) :
    assembler.Starts (assembler.extendAll clauses) := by
  induction clauses generalizing assembler with
  | nil => exact .refl assembler
  | cons entry rest ih => exact (assembler.starts_extend entry).trans (ih _)

/-- What has been parsed stays in front of what is parsed after it. -/
theorem starts_of_parseLines {number : Nat} {lines : List (List Char)}
    {assembler final : Assembler} (hnumber : number ≤ maxLine)
    (h : (parseLines number lines).run assembler = .ok () final) : assembler.Starts final := by
  obtain ⟨-, clauses, -, -, rfl⟩ := (parseLines_run_eq_ok_iff hnumber).mp h
  exact assembler.starts_extendAll clauses

/-- Lines after one that is refused are not looked at. -/
theorem parseLines_append_run_of_error {number : Nat} {front : List (List Char)}
    {assembler final : Assembler} {error : Error}
    (h : (parseLines number front).run assembler = .error error final) (back : List (List Char)) :
    (parseLines number (front ++ back)).run assembler = .error error final := by
  induction front generalizing number assembler with
  | nil => cases h
  | cons text front ih =>
    by_cases hlast : number = maxLine
    · rw [parseLines, if_pos hlast] at h
      rw [List.cons_append, parseLines, if_pos hlast]
      exact h
    · rw [parseLines_cons_run hlast] at h
      rw [List.cons_append, parseLines_cons_run hlast]
      cases hline : (Parse.line (number + 1) text).run assembler with
      | error cause assembler' =>
        rw [hline] at h
        exact h
      | ok value assembler' =>
        rw [hline] at h
        exact ih h

/-- If lines can be parsed, so can the first ones of them. -/
theorem exists_of_parseLines_append_eq_ok {number : Nat} {front back : List (List Char)}
    {assembler final : Assembler}
    (h : (parseLines number (front ++ back)).run assembler = .ok () final) :
    ∃ before, (parseLines number front).run assembler = .ok () before ∧
      (parseLines (number + front.length) back).run before = .ok () final := by
  cases hfront : (parseLines number front).run assembler with
  | ok value before =>
    rw [parseLines_append_run hfront] at h
    exact ⟨before, rfl, h⟩
  | error error before =>
    rw [parseLines_append_run_of_error hfront] at h
    cases h

/-! ## The first bad line -/

/-- Lines that can be numbered are refused at one of them, where the lines before it have been
parsed. -/
theorem exists_of_parseLines_eq_error {number : Nat} {lines : List (List Char)}
    {assembler final : Assembler} {error : Error} (hmany : number + lines.length ≤ maxLine)
    (h : (parseLines number lines).run assembler = .error error final) :
    ∃ front text back good cause, lines = front ++ text :: back ∧
      (parseLines number front).run assembler = .ok () good ∧
      (Parse.line (number + front.length + 1) text).run good = .error cause final ∧
      error = ⟨some (number + front.length + 1), cause⟩ := by
  -- The first line is the bad one, or it is good and the bad one is behind it.
  induction lines generalizing number assembler with
  | nil => cases h
  | cons text rest ih =>
    rw [List.length_cons] at hmany
    have hlast : number ≠ maxLine := by omega
    rw [parseLines_cons_run hlast] at h
    cases hline : (Parse.line (number + 1) text).run assembler with
    | error cause assembler' =>
      rw [hline] at h
      cases h
      exact ⟨[], text, rest, assembler, cause, rfl, rfl, hline, rfl⟩
    | ok value assembler' =>
      rw [hline] at h
      obtain ⟨front, bad, back, good, cause, rfl, hfront, hbad, herror⟩ := ih (by omega) h
      have hcount : number + 1 + front.length = number + (text :: front).length := by
        rw [List.length_cons]
        omega
      rw [hcount] at hbad herror
      refine ⟨text :: front, bad, back, good, cause, rfl, ?_, hbad, herror⟩
      rw [parseLines_cons_run hlast, hline]
      exact hfront

/-- What the refusal of a source says about its lines: `text` is the line `k`, and `good` is what
the lines before it parse to. -/
structure Refusal (assembler : Assembler) (source : String) (error : Error) (final : Assembler)
    (k : Nat) (text : List Char) (good : Assembler) : Prop where
  /-- The error names the line, which is one of the source. -/
  line : error.line? = some k
  pos : 1 ≤ k
  line_text : (Text.lines source.toList)[k - 1]? = some text
  /-- A source of the lines before it parses. -/
  front : ∀ front : String, Text.lines front.toList = (Text.lines source.toList).take (k - 1) →
    (parse front).run assembler = .ok () good
  /-- The line is what the error is about. -/
  bad : (Parse.line k text).run good = .error error.cause final
  statements : final.statements = good.statements
  /-- There may be one more symbol, the one that the line defines, which has no address yet. -/
  symbols : final.symbols.entries = good.symbols.entries ∨
    ∃ name : Name, symbolOf text = some name.chars ∧
      final.symbols.entries = good.symbols.entries ++ [⟨name, 0⟩]
  /-- Every source with the same lines up to this one is refused in the same way. -/
  same : ∀ other : String,
    (Text.lines other.toList).take k = (Text.lines source.toList).take k →
    (parse other).run assembler = .error error final

/-- A source that is refused is refused at a line, after those before it have been parsed. -/
theorem exists_refusal {assembler final : Assembler} {source : String} {error : Error}
    (hnumbered : Numbered source) (h : (parse source).run assembler = .error error final) :
    ∃ k text good, Refusal assembler source error final k text good := by
  change (parseLines 0 (Text.lines source.toList)).run assembler.clear = _ at h
  obtain ⟨front, text, back, good, cause, hlines, hfront, hbad, rfl⟩ :=
    exists_of_parseLines_eq_error (by rw [Nat.zero_add]; exact hnumbered) h
  rw [Nat.zero_add] at hbad h ⊢
  have hlast : 0 + front.length ≠ maxLine := by
    have hlength := congrArg List.length hlines
    rw [List.length_append, List.length_cons] at hlength
    unfold Numbered at hnumbered
    omega
  -- The lines up to the bad one are refused by themselves.
  have hrefused : (parseLines 0 (front ++ [text])).run assembler.clear =
      .error ⟨some (front.length + 1), cause⟩ final := by
    rw [parseLines_append_run hfront, parseLines_cons_run hlast, Nat.zero_add, hbad]
  have htake : (Text.lines source.toList).take (front.length + 1) = front ++ [text] := by
    rw [hlines, List.take_length_add_append]
    rfl
  refine ⟨front.length + 1, text, good, rfl, Nat.succ_pos _, ?_, fun source' hsource' => ?_, hbad,
    Parse.statements_of_line_run_eq_error hbad, ?_, fun other hother => ?_⟩
  · rw [hlines, Nat.add_sub_cancel, List.getElem?_append_right (Nat.le_refl _), Nat.sub_self]
    rfl
  · change (parseLines 0 (Text.lines source'.toList)).run assembler.clear = _
    rw [hsource', hlines, Nat.add_sub_cancel, List.take_left]
    exact hfront
  · have hsymbols := Parse.definesAtMost_line (front.length + 1) text good
    rw [hbad] at hsymbols
    rcases hsymbols with hsame | ⟨name, hname, hadded⟩
    · exact .inl (congrArg SymbolTable.entries hsame)
    · exact .inr ⟨name, hname, congrArg SymbolTable.entries hadded⟩
  · change (parseLines 0 (Text.lines other.toList)).run assembler.clear = _
    rw [← List.take_append_drop (front.length + 1) (Text.lines other.toList), hother, htake]
    exact parseLines_append_run_of_error hrefused _

/-- If a source parses, so does one of its first lines. -/
theorem exists_of_parse_eq_ok {assembler final : Assembler} {source front : String} {n : Nat}
    (h : (parse source).run assembler = .ok () final)
    (hfront : Text.lines front.toList = (Text.lines source.toList).take n) :
    ∃ good, (parse front).run assembler = .ok () good ∧ good.Starts final := by
  change (parseLines 0 (Text.lines source.toList)).run assembler.clear = _ at h
  rw [← List.take_append_drop n (Text.lines source.toList), ← hfront] at h
  obtain ⟨good, hgood, hrest⟩ := exists_of_parseLines_append_eq_ok h
  have hnumber := ((parseLines_run_eq_ok_iff (Nat.zero_le _)).mp hgood).1
  exact ⟨good, hgood, starts_of_parseLines hnumber hrest⟩

/-- The first lines of a source make a source. -/
theorem exists_firstLines (source : String) (n : Nat) :
    ∃ front : String, Text.lines front.toList = (Text.lines source.toList).take n := by
  refine ⟨String.ofList (((Text.lines source.toList).take n).flatMap (· ++ ['\n'])), ?_⟩
  rw [String.toList_ofList]
  exact Text.lines_flatMap fun line hline => Text.not_mem_of_mem_lines (List.mem_of_mem_take hline)

/-- Parsing keeps the good lines. A source whose lines can be numbered is refused at its first bad
line: the lines before it parse by themselves, to all that is left but for the symbol of that line
and bytes of constants, and the lines after it do not matter. If a source parses, so does every
source of first lines of it, to the first ones of its statements and symbols. -/
theorem parsing_keeps_the_good_lines (assembler : Assembler) {source : String}
    (h : Numbered source) :
    (∀ error final, (parse source).run assembler = .error error final →
      ∃ k text good, Refusal assembler source error final k text good) ∧
    (∀ final, (parse source).run assembler = .ok () final →
      ∀ n front, Text.lines front.toList = (Text.lines source.toList).take n →
        ∃ good, (parse front).run assembler = .ok () good ∧ good.Starts final) ∧
    ∀ n, ∃ front : String, Text.lines front.toList = (Text.lines source.toList).take n :=
  ⟨fun _ _ hrefused => exists_refusal h hrefused,
    fun _ hparsed _ _ hfront => exists_of_parse_eq_ok hparsed hfront, exists_firstLines source⟩

/-- The last line of this source is refused after its symbol and one of its constants have been
stored. -/
theorem parsing_keeps_the_good_lines_halfStored :
    ∃ good, Refusal (empty ⟨none, none, none⟩) halfStored ⟨some 3, .invalidNumber⟩ halfStoredParsed
      3 "$second DC8 2, two".toList good := by
  have herror : error? ((parse halfStored).run (empty ⟨none, none, none⟩)) =
      some ⟨some 3, .invalidNumber⟩ := by decide +kernel
  obtain ⟨final, hrefused⟩ := exists_of_error?_eq_some herror
  have hfinal : halfStoredParsed = final := by
    unfold halfStoredParsed
    rw [hrefused]
    rfl
  have hnumbered : Numbered halfStored := by
    unfold Numbered
    decide +kernel
  have htext : (Text.lines halfStored.toList)[2]? = some "$second DC8 2, two".toList := by
    decide +kernel
  obtain ⟨hrefusal, -, -⟩ := parsing_keeps_the_good_lines (empty ⟨none, none, none⟩) hnumbered
  obtain ⟨k, text, good, h⟩ := hrefusal _ _ hrefused
  obtain rfl : 3 = k := Option.some.inj h.line
  obtain rfl := Option.some.inj (htext.symm.trans h.line_text)
  exact ⟨good, hfinal ▸ h⟩

end Assembler

end RegisterMachine.Assembly
