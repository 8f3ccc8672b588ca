import RegisterMachine.Proofs.Assembly.ConstantLines
import RegisterMachine.Proofs.Assembly.Mirroring
import RegisterMachine.Proofs.Assembly.OperandSlots

/-!
# Lines that read alike

A line reads as another one (`ReadsAlike`) when it keeps assemblers mirroring each other, whatever
its number. Lines that are the same without comments and blanks do (`ReadsAlike.of_trim_eq`), and so
do instructions whose operands are encoded alike (`ReadsAlike.of_operands`): in operands that are
registers the case of letters does not matter (`Operands.concur_ofWords`).

So a line may be put in other words (`Rewords`), and `Reformats` collects what may be done to a line
without a change to what it says (`Reformats.readsAlike`).
-/

namespace RegisterMachine.Assembly

/-! ## Operands -/

namespace Operands

/-- The operands are encoded the same, however they are written. -/
structure EncodedAlike (operands operands' : Operands) : Prop where
  bytes : operands'.bytes = operands.bytes
  reference? : operands'.reference? = operands.reference?

variable {operands operands' : Operands} {word word' : List Char}

/-- One more operand is read alike after operands that are encoded alike. -/
theorem concur_add (kind : OperandKind) (word : List Char)
    (h : operands.EncodedAlike operands') :
    Concur Cause.SameKind EncodedAlike (operands.add kind word) (operands'.add kind word) := by
  rw [add_eq, add_eq]
  cases Field.read kind word with
  | error cause => exact .error (.same cause)
  | ok field =>
    refine .ok ⟨?_, ?_⟩
    · unfold push
      rw [h.bytes]
    · unfold push
      rw [h.bytes, h.reference?]

/-- Registers are looked up without regard to case. -/
theorem concur_add_register (hcase : Text.SameCase word word')
    (h : operands.EncodedAlike operands') :
    Concur Cause.SameKind EncodedAlike (operands.add .register word)
      (operands'.add .register word') := by
  have hlength : Text.utf8Length word' = Text.utf8Length word := by
    rw [← Text.utf8Length_map_toLower word', hcase, Text.utf8Length_map_toLower]
  have hlookup : Register.ofName? word' = Register.ofName? word := by
    unfold Register.ofName?
    rw [hcase]
  unfold add Operand.ofName Name.ofChars Name.ofChars?
  -- Either both words are too long for a name, or both are looked up, to the same.
  by_cases hshort : Text.utf8Length word ≤ Name.capacity
  · rw [dif_pos hshort, dif_pos (hlength ▸ hshort)]
    change Concur _ _ (_ >>= _) (_ >>= _)
    dsimp only [bind, Except.bind]
    rw [hlookup]
    cases Register.ofName? word with
    | none => exact .error (.badRegister hcase)
    | some register => exact .ok ⟨congrArg (· ++ _) h.bytes, h.reference?⟩
  · rw [dif_neg hshort, dif_neg (hlength ▸ hshort)]
    exact .error (.same _)

/-- One operand, which is a register, is in the other case. -/
theorem concur_foldlM_add {kinds : List OperandKind} {front : List (List Char)}
    (hkind : kinds[front.length]? = some .register) (hcase : Text.SameCase word word')
    (back : List (List Char)) (h : operands.EncodedAlike operands') :
    Concur Cause.SameKind EncodedAlike
      ((kinds.zip (front ++ word :: back)).foldlM (fun operands (kind, word) =>
        operands.add kind word) operands)
      ((kinds.zip (front ++ word' :: back)).foldlM (fun operands (kind, word) =>
        operands.add kind word) operands') := by
  induction front generalizing kinds operands operands' with
  | nil =>
    obtain ⟨others, rfl⟩ := List.head?_eq_some_iff.mp (List.head?_eq_getElem? ▸ hkind)
    refine (concur_add_register hcase h).bind fun _ _ hnext => ?_
    exact Concur.foldlM (fun item _ _ hitem => concur_add item.1 item.2 hitem) _ hnext
  | cons first front ih =>
    cases kinds with
    | nil => cases hkind
    | cons kind kinds =>
      exact (concur_add kind first h).bind fun _ _ hnext => ih hkind hnext

/-- A register in another case makes no difference to the operands of a line. -/
theorem concur_ofWords {opcode : Opcode} {front : List (List Char)}
    (hkind : opcode.operands[front.length]? = some .register) (hcase : Text.SameCase word word')
    (back : List (List Char)) :
    Concur Cause.SameKind EncodedAlike (ofWords opcode (front ++ word :: back))
      (ofWords opcode (front ++ word' :: back)) := by
  have hlength : (front ++ word' :: back).length = (front ++ word :: back).length := by
    rw [List.length_append, List.length_append, List.length_cons, List.length_cons]
  unfold ofWords
  rw [hlength]
  split
  · exact .error (.same _)
  · exact concur_foldlM_add hkind hcase back ⟨rfl, rfl⟩

end Operands

/-! ## Lines -/

/-- A line reads as another one, whatever number it gets. -/
def ReadsAlike (text text' : List Char) : Prop :=
  ∀ (renumber : Nat → Nat) (number : Nat),
    Parse.Mirrored renumber (Parse.line number text) (Parse.line (renumber number) text')

namespace ReadsAlike

variable {text text' word word' rest rest' : List Char} {opcode : Opcode}

/-- Comments and the blanks around a line do not matter. -/
theorem of_trim_eq
    (h : Text.trim (Text.withoutComment text') = Text.trim (Text.withoutComment text)) :
    ReadsAlike text text' := by
  intro renumber number
  have hline : Parse.line (renumber number) text' = Parse.line (renumber number) text := by
    unfold Parse.line
    rw [h]
  rw [hline]
  exact Parse.mirrored_line number text

/-- A line reads as itself. -/
theorem refl (text : List Char) : ReadsAlike text text :=
  of_trim_eq rfl

/-- An instruction may have another name of its opcode, and operands that are encoded alike. -/
theorem of_operands
    (hline : Text.firstWord (Text.trim (Text.withoutComment text)) = (word, rest))
    (hline' : Text.firstWord (Text.trim (Text.withoutComment text')) = (word', rest'))
    (hword : opcode.IsNamed word) (hword' : opcode.IsNamed word')
    (h : Concur Cause.SameKind Operands.EncodedAlike (Operands.ofWords opcode (Text.fields rest))
      (Operands.ofWords opcode (Text.fields rest'))) : ReadsAlike text text' := by
  intro renumber number
  rw [Parse.line_eq_operation hline hword, Parse.line_eq_operation hline' hword']
  refine Parse.mirrored_operation (h.bind fun operands operands' hoperands => ?_)
  have hname : Name.ofChars word = .ok ⟨word, hword.short⟩ := Name.ofChars_chars ⟨word, hword.short⟩
  have hname' : Name.ofChars word' = .ok ⟨word', hword'.short⟩ :=
    Name.ofChars_chars ⟨word', hword'.short⟩
  rw [hname, hname', hoperands.bytes, hoperands.reference?]
  exact .ok (.operation ..)

/-- A data directive may have its type in the other case. -/
theorem of_directive
    (hline : Text.firstWord (Text.trim (Text.withoutComment text)) = (word, rest))
    (hline' : Text.firstWord (Text.trim (Text.withoutComment text')) = (word, rest'))
    (hdollar : word.head? = some '$')
    (h : Directive.ofChars word rest' = Directive.ofChars word rest) : ReadsAlike text text' := by
  intro renumber number
  have hsame : Parse.directive (renumber number) word rest' =
      Parse.directive (renumber number) word rest := by
    unfold Parse.directive
    rw [h]
  rw [Parse.line_eq_directive _ hline hdollar, Parse.line_eq_directive _ hline' hdollar, hsame]
  exact Parse.mirrored_directive number word rest

end ReadsAlike

/-! ## Other words for a line -/

/-- The beginning of an instruction line: blanks, a name of the opcode, and what starts with a blank
and may go on with operands. -/
structure Opens (opcode : Opcode) (lead word front : List Char) : Prop where
  blank : Text.IsGap lead
  named : opcode.IsNamed word
  apart : ∃ c, front.head? = some c ∧ Text.isBlank c = true

/-- The first word of the line is the name of the opcode, and the operands come after it. -/
theorem Opens.firstWord_eq {opcode : Opcode} {lead word front : List Char}
    (h : Opens opcode lead word front) (back : List Char) :
    Text.firstWord (Text.trim (lead ++ (word ++ front) ++ back)) =
      (word, Text.trim (front ++ back)) := by
  obtain ⟨blank, hhead, hblank⟩ := h.apart
  obtain ⟨others, rfl⟩ := List.head?_eq_some_iff.mp hhead
  rw [List.append_assoc, List.append_assoc]
  refine Text.firstWord_trim_append h.blank h.named.ne_nil
    (fun c hc => (h.named.isLiteralChar c hc).not_isBlank) ?_
  rintro _ ⟨⟩
  exact hblank

/-- A line, without its comment, in other words. -/
inductive Rewords : List Char → List Char → Prop where
  /-- Another name of the opcode, or the same one in another case. -/
  | mnemonic {opcode : Opcode} {lead word word' rest : List Char} (hlead : Text.IsGap lead)
      (hword : opcode.IsNamed word) (hword' : opcode.IsNamed word')
      (hrest : ∀ c, rest.head? = some c → Text.isBlank c = true) :
      Rewords (lead ++ (word ++ rest)) (lead ++ (word' ++ rest))
  /-- Other separators behind the name of the opcode or between operands. -/
  | separators {opcode : Opcode} {lead word front gap gap' back : List Char}
      (hopens : Opens opcode lead word front) (hne : gap ≠ [])
      (hgap : ∀ c ∈ gap, Text.isSeparator c = true) (hne' : gap' ≠ [])
      (hgap' : ∀ c ∈ gap', Text.isSeparator c = true) :
      Rewords (lead ++ (word ++ front) ++ (gap ++ back)) (lead ++ (word ++ front) ++ (gap' ++ back))
  /-- Another case of an operand that is a register. -/
  | register {opcode : Opcode} {lead word front operand operand' back : List Char}
      (hopens : Opens opcode lead word front)
      (hfront : ∃ c, front.getLast? = some c ∧ Text.isSeparator c = true)
      (hne : operand ≠ []) (hoperand : ∀ c ∈ operand, Text.isSeparator c = false)
      (hback : ∀ c, back.head? = some c → Text.isSeparator c = true)
      (hkind : opcode.operands[(Text.fields front).length]? = some .register)
      (hcase : Text.SameCase operand operand') :
      Rewords (lead ++ (word ++ front) ++ (operand ++ back))
        (lead ++ (word ++ front) ++ (operand' ++ back))
  /-- Another case of the type of a data directive. -/
  | dataType {lead symbol gap type type' rest : List Char} (hlead : Text.IsGap lead)
      (hdollar : symbol.head? = some '$') (hsymbol : ∀ c ∈ symbol, Text.isBlank c = false)
      (hgap : Text.IsGap gap) (hapart : gap ≠ []) (hne : type ≠ [])
      (htype : ∀ c ∈ type, Text.isBlank c = false)
      (hrest : ∀ c, rest.head? = some c → Text.isBlank c = true)
      (hcase : Text.SameCase type type') :
      Rewords (lead ++ (symbol ++ gap) ++ (type ++ rest))
        (lead ++ (symbol ++ gap) ++ (type' ++ rest))

namespace Rewords

variable {code code' comment text text' : List Char}

/-- A comment stays where it is. -/
theorem withoutComment_eq (h : Rewords code code')
    (hcode : Text.withoutComment (code ++ comment) = code) :
    Text.withoutComment (code' ++ comment) = code' := by
  cases h with
  | mnemonic hlead hword hword' hrest =>
    refine Text.withoutComment_exchange (.of_plain (fun c hc => ?_) fun c hc => ?_) hcode
    · exact ⟨(hword.isLiteralChar c hc).ne_quote, (hword.isLiteralChar c hc).plain.2.1⟩
    · exact ⟨(hword'.isLiteralChar c hc).ne_quote, (hword'.isLiteralChar c hc).plain.2.1⟩
  | separators hopens hne hgap hne' hgap' =>
    have hplain {gap : List Char} (hgap : ∀ c ∈ gap, Text.isSeparator c = true) :
        ∀ c ∈ gap, c ≠ '"' ∧ c ≠ ';' := by
      refine fun c hc => ⟨?_, ?_⟩
      · rintro rfl
        exact absurd (hgap _ hc) (by decide)
      · rintro rfl
        exact absurd (hgap _ hc) (by decide)
    exact Text.withoutComment_exchange (.of_plain (hplain hgap) (hplain hgap')) hcode
  | register _ _ _ _ _ _ hcase => exact Text.withoutComment_exchange hcase.sameQuotes hcode
  | dataType _ _ _ _ _ _ _ _ hcase => exact Text.withoutComment_exchange hcase.sameQuotes hcode

/-- The line says the same. -/
theorem readsAlike (h : Rewords code code') (htext : Text.withoutComment text = code)
    (htext' : Text.withoutComment text' = code') : ReadsAlike text text' := by
  cases h with
  | @mnemonic opcode lead word word' rest hlead hword hword' hrest =>
    have hline {word : List Char} (hword : opcode.IsNamed word) :
        Text.firstWord (Text.trim (lead ++ (word ++ rest))) = (word, Text.trim rest) :=
      Text.firstWord_trim_append hlead hword.ne_nil
        (fun c hc => (hword.isLiteralChar c hc).not_isBlank) hrest
    refine .of_operands (htext ▸ hline hword) (htext' ▸ hline hword') hword hword' ?_
    exact .refl .same (fun _ => ⟨rfl, rfl⟩) _
  | @separators opcode lead word front gap gap' back hopens hne hgap hne' hgap' =>
    refine .of_operands (htext ▸ hopens.firstWord_eq (gap ++ back))
      (htext' ▸ hopens.firstWord_eq (gap' ++ back)) hopens.named hopens.named ?_
    -- Separators do not show in the operands.
    rw [Text.fields_trim, Text.fields_trim, Text.fields_append_separators hne hgap,
      Text.fields_append_separators hne' hgap']
    exact .refl .same (fun _ => ⟨rfl, rfl⟩) _
  | @register opcode lead word front operand operand' back hopens hfront hne hoperand hback hkind
      hcase =>
    refine .of_operands (htext ▸ hopens.firstWord_eq (operand ++ back))
      (htext' ▸ hopens.firstWord_eq (operand' ++ back)) hopens.named hopens.named ?_
    rw [Text.fields_trim, Text.fields_trim, Text.fields_append_word hne hoperand hfront hback,
      Text.fields_append_word (hcase.ne_nil hne) (hcase.not_isSeparator hoperand) hfront hback]
    exact Operands.concur_ofWords hkind hcase _
  | @dataType lead symbol gap type type' rest hlead hdollar hsymbol hgap hapart hne htype hrest
      hcase =>
    have hblank : ∀ after c, (gap ++ after).head? = some c → Text.isBlank c = true := by
      intro after c hc
      obtain ⟨blank, others, rfl⟩ := List.exists_cons_of_ne_nil hapart
      cases hc
      exact hgap _ List.mem_cons_self
    have hsymbolNe : symbol ≠ [] := List.ne_nil_of_mem (List.mem_of_head? hdollar)
    have hline (after : List Char) : Text.firstWord (Text.trim (lead ++ (symbol ++ gap) ++ after)) =
        (symbol, Text.trim (gap ++ after)) := by
      rw [List.append_assoc, List.append_assoc]
      exact Text.firstWord_trim_append hlead hsymbolNe hsymbol (hblank after)
    refine .of_directive (htext ▸ hline (type ++ rest)) (htext' ▸ hline (type' ++ rest)) hdollar ?_
    -- The symbol stays as it is, for its case matters, and the type is looked up without regard to
    -- case.
    have htypeEq : DataType.ofChars? type' = DataType.ofChars? type := by
      unfold DataType.ofChars?
      rw [hcase]
    have hfull := List.isEmpty_eq_false_iff.mpr hne
    have hfull' := List.isEmpty_eq_false_iff.mpr (hcase.ne_nil hne)
    unfold Directive.ofChars
    rw [Text.firstWord_trim_append hgap hne htype hrest,
      Text.firstWord_trim_append hgap (hcase.ne_nil hne) (hcase.not_isBlank htype) hrest]
    dsimp only
    rw [hfull, hfull', htypeEq]

end Rewords

/-- What may be done to a line without a change to what it says. -/
inductive Reformats : List Char → List Char → Prop where
  /-- Blanks at its start. -/
  | before {gap : List Char} (hgap : Text.IsGap gap) (line : List Char) : Reformats line (gap ++ line)
  /-- Blanks at its end. -/
  | behind {gap : List Char} (hgap : Text.IsGap gap) (line : List Char) : Reformats line (line ++ gap)
  /-- A comment behind it, unless it leaves a quote open. -/
  | comment {line : List Char} (houtside : (Text.withoutComment line).foldl Text.toggle false = false)
      (text : List Char) : Reformats line (line ++ ';' :: text)
  /-- Other words before its comment. -/
  | words {code code' comment : List Char}
      (hcode : Text.withoutComment (code ++ comment) = code) (h : Rewords code code') :
      Reformats (code ++ comment) (code' ++ comment)

/-- A line that has been reformatted reads as before. -/
theorem Reformats.readsAlike {line line' : List Char} (h : Reformats line line') :
    ReadsAlike line line' := by
  cases h with
  | before hgap => exact .of_trim_eq (Text.trim_withoutComment_append_left hgap _)
  | behind hgap => exact .of_trim_eq (Text.trim_withoutComment_append_right hgap _)
  | comment houtside text =>
    exact .of_trim_eq (congrArg Text.trim (Text.withoutComment_append_semicolon houtside text))
  | words hcode h => exact h.readsAlike hcode (h.withoutComment_eq hcode)

end RegisterMachine.Assembly
