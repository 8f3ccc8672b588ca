import RegisterMachine.Proofs.Assembly.ConstantItems
import RegisterMachine.Proofs.Assembly.OperationLines

/-!
# The last operand of a line

An instruction line with a gap where its last operand would stand is a `Slot`, and a word is put
into the gap (`Slot.fill`). The line then reads as the operands before the gap and the word after
them, whatever blanks, commas and comment there are (`Slot.ofLine_fill`).

An operand that is a symbol always stands in such a gap (`Clause.exists_slot`). No opcode has an
operand after one that may be a symbol, and those before it read as bytes, so no quote opens and no
comment starts before the symbol.
-/

namespace RegisterMachine

/-- An operand that may be a symbol is the last one, and the only one. -/
theorem Opcode.last_of_takesSymbol (opcode : Opcode) : ∀ i < opcode.operands.length,
    opcode.operands[i]?.any OperandKind.takesSymbol = true →
      opcode.operands.length = i + 1 ∧
        ∀ kind ∈ opcode.operands.take i, kind.takesSymbol = false := by
  cases opcode <;> decide

/-- A name of an opcode consists of letters. -/
theorem Opcode.IsNamed.isLiteralChar {opcode : Opcode} {word : List Char} (h : opcode.IsNamed word) :
    ∀ c ∈ word, Text.IsLiteralChar c := by
  obtain ⟨name, hname, hfolded⟩ := h
  have hletters : ∀ name ∈ opcode.names, ∀ c ∈ name.toList, Text.IsLiteralChar c := by
    cases opcode <;> decide
  intro c hc
  have hlower : c.toLower ∈ name.toList := hfolded ▸ List.mem_map_of_mem hc
  exact Text.isLiteralChar_of_toLower (hletters name hname _ hlower)

/-- A word that is looked up as a register consists of letters and digits. -/
theorem Register.isLiteralChar_of_ofName? {word : List Char} {register : Register}
    (h : ofName? word = some register) : ∀ c ∈ word, Text.IsLiteralChar c := by
  have hplain : ∀ c ∈ register.name.toList, Text.IsLiteralChar c := by
    cases register <;> decide
  intro c hc
  have hlower : c.toLower ∈ register.name.toList :=
    ofName?_eq_some_iff.mp h ▸ List.mem_map_of_mem hc
  exact Text.isLiteralChar_of_toLower (hplain _ hlower)

namespace Assembly

/-! ## Lines with a gap -/

/-- An instruction line with a gap where its last operand would stand. -/
structure Slot where
  opcode : Opcode
  /-- The blanks before the mnemonic. -/
  lead : List Char
  /-- The mnemonic as written. -/
  mnemonic : List Char
  /-- The separators and the operands between the mnemonic and the gap. -/
  middle : List Char
  /-- The separators behind the gap. -/
  tail : List Char
  comment : List Char
  blank : Text.IsGap lead
  named : opcode.IsNamed mnemonic
  /-- The mnemonic ends where a blank follows. -/
  apart : ∃ c, middle.head? = some c ∧ Text.isBlank c = true
  /-- A separator stands before the gap. -/
  parted : ∃ c, middle.getLast? = some c ∧ Text.isSeparator c = true
  plain : ∀ c ∈ middle, c ≠ '"' ∧ c ≠ ';'
  behind : ∀ c ∈ tail, Text.isSeparator c = true
  commented : IsComment comment

namespace Slot

/-- The line with a word in the gap. -/
def fill (slot : Slot) (word : List Char) : List Char :=
  slot.lead ++ (slot.mnemonic ++ (slot.middle ++ (word ++ (slot.tail ++ slot.comment))))

/-- A word can stand in the gap: nothing in it separates words or starts a comment, and if a comment
follows, the word ends outside quotes. -/
structure Takes (slot : Slot) (word : List Char) : Prop where
  ne_nil : word ≠ []
  undivided : ∀ c ∈ word, Text.isSeparator c = false
  whole : ∀ entry ∈ Text.marked false word, Text.isFree ';' entry = false
  outside : slot.comment = [] ∨ word.foldl Text.toggle false = false

/-- The mnemonic as the assembler stores it. -/
def name (slot : Slot) : Name :=
  ⟨slot.mnemonic, slot.named.short⟩

/-! ## Reading a line -/

variable {slot : Slot} {word : List Char}

/-- A literal can stand in any gap. -/
theorem takes_of_literal (slot : Slot) {v : Int} (h : Text.Literal word v) : slot.Takes word := by
  have hplain : ∀ c ∈ word, c ≠ '"' ∧ c ≠ ';' := fun c hc =>
    ⟨(h.isLiteralChar c hc).ne_quote, (h.isLiteralChar c hc).plain.2.1⟩
  have hclosed : Text.Closed ';' word := .of_plain hplain
  exact ⟨h.ne_nil, fun c hc => (h.isLiteralChar c hc).plain.1, hclosed.whole, .inr hclosed.outside⟩

/-- No quote opens and no comment starts before the gap. -/
theorem closed_front (slot : Slot) :
    Text.Closed ';' (slot.lead ++ (slot.mnemonic ++ slot.middle)) := by
  have hlead : Text.Closed ';' slot.lead := .of_gap slot.blank (by decide)
  have hmnemonic : Text.Closed ';' slot.mnemonic := .of_plain fun c hc =>
    ⟨(slot.named.isLiteralChar c hc).ne_quote, (slot.named.isLiteralChar c hc).plain.2.1⟩
  exact hlead.append (hmnemonic.append (.of_plain slot.plain))

/-- Separators are neither quotes nor semicolons. -/
theorem closed_tail (slot : Slot) : Text.Closed ';' slot.tail := by
  refine .of_plain fun c hc => ⟨?_, ?_⟩
  · rintro rfl
    exact absurd (slot.behind _ hc) (by decide)
  · rintro rfl
    exact absurd (slot.behind _ hc) (by decide)

/-- The comment of the line is that of the slot. -/
theorem withoutComment_fill (h : slot.Takes word) :
    Text.withoutComment (slot.fill word) =
      slot.lead ++ (slot.mnemonic ++ (slot.middle ++ (word ++ slot.tail))) := by
  have hback : Text.withoutComment (word ++ (slot.tail ++ slot.comment)) = word ++ slot.tail := by
    rcases h.outside with hnone | houtside
    · -- The word may leave quotes open, and there is no semicolon after it either.
      rw [hnone, List.append_nil]
      refine Text.withoutComment_eq_self ?_
      rw [Text.marked_append]
      refine List.forall_mem_append.mpr ⟨h.whole, Text.isFree_of_not_mem (fun hmem => ?_) _⟩
      exact absurd (slot.behind _ hmem) (by decide)
    · have hword : Text.Closed ';' word := ⟨houtside, h.whole⟩
      rw [← List.append_assoc, Text.withoutComment_append (hword.append slot.closed_tail),
        withoutComment_of_isComment slot.commented, List.append_nil]
  have hfill : slot.fill word = (slot.lead ++ (slot.mnemonic ++ slot.middle)) ++
      (word ++ (slot.tail ++ slot.comment)) := by
    unfold fill
    simp only [List.append_assoc]
  rw [hfill, Text.withoutComment_append slot.closed_front, hback]
  simp only [List.append_assoc]

/-- The first word of the line is the mnemonic. -/
theorem firstWord_fill (h : slot.Takes word) :
    Text.firstWord (Text.trim (Text.withoutComment (slot.fill word))) =
      (slot.mnemonic, Text.trim (slot.middle ++ (word ++ slot.tail))) := by
  have hletter : ∀ c ∈ slot.mnemonic, Text.isBlank c = false := fun c hc =>
    (slot.named.isLiteralChar c hc).not_isBlank
  obtain ⟨first, others, hmnemonic⟩ := List.exists_cons_of_ne_nil slot.named.ne_nil
  obtain ⟨blank, hhead, hblank⟩ := slot.apart
  obtain ⟨rest, hmiddle⟩ := List.head?_eq_some_iff.mp hhead
  rw [withoutComment_fill h, Text.trim_append_left slot.blank, Text.firstWord_trim,
    Text.firstWord_append hletter]
  · rw [hmiddle]
    rintro _ ⟨⟩
    exact hblank
  · rw [hmnemonic] at hletter ⊢
    rintro _ ⟨⟩
    exact hletter _ List.mem_cons_self

/-- The operands of the line are those before the gap, and the word. -/
theorem fields_fill (h : slot.Takes word) :
    Text.fields (Text.trim (slot.middle ++ (word ++ slot.tail))) =
      Text.fields slot.middle ++ [word] := by
  have hword : Text.fields (word ++ slot.tail) = [word] := by
    rw [Text.fields_append_gap slot.behind, Text.fields_of_run h.ne_nil h.undivided]
  rw [Text.fields_trim, Text.fields_append_of_getLast? slot.parted, hword]

/-- The line reads as the operation of the slot, if its operands do. -/
theorem ofLine_fill (h : slot.Takes word) :
    Clause.ofLine (slot.fill word) =
      (fun fields => some ⟨slot.name, .operation slot.opcode fields⟩) <$>
        Fields.ofWords slot.opcode (Text.fields slot.middle ++ [word]) := by
  have hname : Name.ofChars slot.mnemonic = .ok slot.name := Name.ofChars_chars slot.name
  rw [Clause.ofLine_eq_operation (firstWord_fill h) slot.named]
  unfold Clause.ofOperation
  rw [fields_fill h, hname]
  cases Fields.ofWords slot.opcode (Text.fields slot.middle ++ [word]) <;> rfl

end Slot

/-! ## The operand that is a symbol -/

section

variable {opcode : Opcode} {fields : Fields opcode} {front back : List Field} {field : Field}
  {width : Width} {words : List (List Char)}

/-- Fields have the words that they are read from. -/
theorem Fields.map_word_of_ofWords (h : Fields.ofWords opcode words = .ok fields) :
    (fields.list.map fun field => field.word.chars) = words := by
  -- Operands are read with their words, by induction on the kinds.
  have hreadAll {kinds : List OperandKind} {words : List (List Char)} {list : List Field}
      (hlength : words.length = kinds.length) (h : Field.readAll (kinds.zip words) = .ok list) :
      (list.map fun field => field.word.chars) = words := by
    induction kinds generalizing words list with
    | nil =>
      obtain rfl := List.eq_nil_of_length_eq_zero hlength
      cases h
      rfl
    | cons kind kinds ih =>
      obtain ⟨word, words, rfl⟩ := List.exists_cons_of_length_eq_add_one hlength
      obtain ⟨field, hfield, h⟩ := bind_eq_ok_iff.mp h
      obtain ⟨others, hothers, h⟩ := bind_eq_ok_iff.mp h
      cases h
      rw [List.map_cons, (Field.read_eq_ok_iff.mp hfield).2, ih (Nat.succ.inj hlength) hothers]
  unfold Fields.ofWords at h
  split at h
  · rename_i hlength
    split at h
    · cases h
    · rename_i list hlist
      cases h
      exact hreadAll hlength hlist
  · cases h

/-- An open field is the last one, and the only one. -/
theorem Fields.last_of_open (hlist : fields.list = front ++ field :: back)
    (hopen : field.opens? = some width) :
    back = [] ∧ ∀ other ∈ front, other.opens? = none := by
  have htable : opcode.operands = front.map Field.kind ++ field.kind :: back.map Field.kind := by
    rw [← fields.complete, hlist, List.map_append, List.map_cons]
  have hlength : opcode.operands.length = front.length + (back.length + 1) := by
    rw [htable, List.length_append, List.length_cons, List.length_map, List.length_map]
  have hkind : opcode.operands[front.length]? = some field.kind := by
    rw [htable, List.getElem?_append_right (by rw [List.length_map]), List.length_map, Nat.sub_self,
      List.getElem?_cons_zero]
  have hbefore : opcode.operands.take front.length = front.map Field.kind := by
    rw [htable, List.take_left' (List.length_map _)]
  obtain ⟨hlast, hclosed⟩ := opcode.last_of_takesSymbol front.length (by omega)
    (by rw [hkind]; exact Field.takesSymbol_of_opens? hopen)
  refine ⟨List.eq_nil_of_length_eq_zero (by omega), fun other hmem => ?_⟩
  have htakes : other.kind.takesSymbol = false :=
    hclosed _ (hbefore ▸ List.mem_map_of_mem hmem)
  rcases hother : other.opens? with _ | width'
  · rfl
  · rw [Field.takesSymbol_of_opens? hother] at htakes
    cases htakes

/-- A word that reads as bytes consists of letters, digits and a sign. -/
theorem Operand.isLiteralChar_of_bytes {kind : OperandKind} {word : Name} {bytes : List UInt8}
    (h : ofName kind word = .ok (.bytes bytes)) : ∀ c ∈ word.chars, Text.IsLiteralChar c := by
  have hliteral {width : Width}
      (h : Operand.bytes <$> width.encodeLiteral word.chars = .ok (.bytes bytes)) :
      ∀ c ∈ word.chars, Text.IsLiteralChar c := by
    obtain ⟨_, hencoded, -⟩ := map_eq_ok_iff.mp h
    obtain ⟨value, hvalue, -⟩ := Width.encodeLiteral_eq_ok_iff.mp hencoded
    exact Text.isLiteralChar_of_integer? hvalue
  unfold ofName at h
  cases kind with
  | register =>
    dsimp only at h
    split at h
    · rename_i register hregister
      exact Register.isLiteralChar_of_ofName? hregister
    · cases h
  | immediate8 | address => exact hliteral h
  | immediate32 =>
    dsimp only at h
    split at h
    · -- A symbol has no bytes yet.
      cases h
    · exact hliteral h
  | target =>
    dsimp only at h
    split at h
    · rename_i value hvalue
      exact Text.isLiteralChar_of_integer? hvalue
    · cases h

/-- A closed field is written with letters, decimal digits and signs only. -/
theorem Field.isLiteralChar_of_closed (h : field.opens? = none) :
    ∀ c ∈ field.word.chars, Text.IsLiteralChar c := by
  obtain ⟨kind, word, bytes | width, reads⟩ := field
  · exact Operand.isLiteralChar_of_bytes reads
  · cases h

/-- A line that reads as an operation starts with a name of its opcode, and its other words are the
operands. -/
theorem Clause.exists_words_of_ofLine {text : List Char} {name : Name}
    (h : ofLine text = .ok (some ⟨name, .operation opcode fields⟩)) :
    ∃ word rest, Text.firstWord (Text.trim (Text.withoutComment text)) = (word, rest) ∧
      opcode.IsNamed word ∧ Fields.ofWords opcode (Text.fields rest) = .ok fields := by
  refine ⟨_, _, rfl, ?_⟩
  unfold ofLine at h
  dsimp only at h
  split at h
  · cases h
  · split at h
    · -- A label is no operation.
      obtain ⟨_, hread, ⟨⟩⟩ := map_eq_ok_iff.mp h
      obtain ⟨_, -, ⟨⟩⟩ := bind_eq_ok_iff.mp hread
    · split at h
      · rename_i hlookup
        obtain ⟨_, hread, ⟨⟩⟩ := map_eq_ok_iff.mp h
        obtain ⟨_, hfields, hread⟩ := bind_eq_ok_iff.mp hread
        obtain ⟨_, -, ⟨⟩⟩ := bind_eq_ok_iff.mp hread
        exact ⟨Opcode.isNamed_of_ofMnemonic? hlookup, hfields⟩
      · split at h
        · -- And neither are constants or a reservation.
          obtain ⟨_, hread, ⟨⟩⟩ := map_eq_ok_iff.mp h
          obtain ⟨_, -, hread⟩ := bind_eq_ok_iff.mp hread
          split at hread
          · obtain ⟨_, -, ⟨⟩⟩ := bind_eq_ok_iff.mp hread
          · obtain ⟨_, -, ⟨⟩⟩ := bind_eq_ok_iff.mp hread
        · cases h

end

/-- The last operand of a line stands in a gap, if those before it have no quotes and semicolons. -/
theorem Slot.exists_of_words {line mnemonic rest word : List Char} {opcode : Opcode}
    {words : List (List Char)}
    (hline : Text.firstWord (Text.trim (Text.withoutComment line)) = (mnemonic, rest))
    (hnamed : opcode.IsNamed mnemonic) (hrest : Text.fields rest = words ++ [word])
    (hwords : ∀ other ∈ words, ∀ c ∈ other, c ≠ '"' ∧ c ≠ ';') :
    ∃ slot : Slot, slot.Takes word ∧ slot.fill word = line := by
  -- The line is taken apart at its comment, at the blanks around the rest, after the mnemonic, and
  -- around its last word.
  obtain ⟨comment, hcomment, hoff, hwhole⟩ := Text.exists_comment line
  obtain ⟨lead, trail, hlead, htrail, htrim⟩ := Text.exists_gaps_trim (Text.withoutComment line)
  obtain ⟨operands, hoperands, -, rfl, hblank⟩ := Text.exists_rest_of_firstWord hline
  rw [Text.fields_trim] at hrest
  obtain ⟨middle, tail, rfl, hmiddle, hparted, htail, hne, hundivided⟩ :=
    Text.exists_last_field hrest
  have hmiddleNe : middle ≠ [] := by
    rintro rfl
    obtain ⟨first, _, hfirst⟩ := List.exists_cons_of_ne_nil hne
    have hgap := hblank first (by rw [hfirst]; rfl)
    have hnot := hundivided first (hfirst ▸ List.mem_cons_self)
    rw [Text.not_isBlank_of_isSeparator hnot] at hgap
    cases hgap
  obtain ⟨gap, _, hgap⟩ := List.exists_cons_of_ne_nil hmiddleNe
  have hlast := List.getLast?_eq_some_getLast hmiddleNe
  have hplain : ∀ c ∈ middle, c ≠ '"' ∧ c ≠ ';' := by
    intro c hc
    rcases Text.isSeparator_or_mem_fields hc with hseparator | ⟨other, hother, hc⟩
    · constructor
      · rintro rfl
        exact absurd hseparator (by decide)
      · rintro rfl
        exact absurd hseparator (by decide)
    · exact hwords other (hmiddle ▸ hother) c hc
  let slot : Slot :=
    { opcode, lead, mnemonic, middle, tail := tail ++ trail, comment
      blank := hlead
      named := hnamed
      apart := ⟨gap, by rw [hgap]; rfl, hblank gap (by rw [hgap]; rfl)⟩
      parted := ⟨_, hlast, hparted _ hlast⟩
      plain := hplain
      behind := List.forall_mem_append.mpr ⟨htail, htrail.isSeparator⟩
      commented := hoff.imp_right And.left }
  have hstripped : Text.withoutComment line =
      (slot.lead ++ (slot.mnemonic ++ slot.middle)) ++ (word ++ slot.tail) := by
    rw [htrim, hoperands]
    simp only [slot, List.append_assoc]
  refine ⟨slot, ⟨hne, hundivided, ?_, ?_⟩, ?_⟩
  · -- What is not part of a comment has no free semicolon, and the word starts outside quotes.
    rw [hstripped, Text.marked_append, slot.closed_front.outside,
      Text.marked_append false word] at hwhole
    exact fun entry hentry =>
      hwhole entry (List.mem_append_right _ (List.mem_append_left _ hentry))
  · refine hoff.imp_right fun ⟨_, houtside⟩ => ?_
    have hunquoted : '"' ∉ slot.tail := fun hmem => absurd (slot.behind _ hmem) (by decide)
    rwa [hstripped, List.foldl_append, slot.closed_front.outside, List.foldl_append,
      Text.foldl_toggle_of_not_mem hunquoted] at houtside
  · rw [hcomment, hstripped]
    unfold fill
    simp only [slot, List.append_assoc]

/-- A symbol that is an operand stands in a gap of its line. -/
theorem Clause.exists_slot {line : List Char} {clause : Clause} {field : Field}
    (h : ofLine line = .ok (some clause)) (hfield : field ∈ clause.openFields) :
    ∃ slot : Slot, slot.Takes field.word.chars ∧ slot.fill field.word.chars = line := by
  obtain ⟨name, ⟨opcode, fields⟩ | _ | _ | _⟩ := clause
  · obtain ⟨hmem, hsome⟩ := List.mem_filter.mp hfield
    obtain ⟨width, hopen⟩ := Option.isSome_iff_exists.mp hsome
    obtain ⟨front, back, hlist⟩ := List.append_of_mem hmem
    obtain ⟨rfl, hclosed⟩ := Fields.last_of_open hlist hopen
    obtain ⟨mnemonic, rest, hline, hnamed, hread⟩ := exists_words_of_ofLine h
    have hrest : Text.fields rest =
        (front.map fun field => field.word.chars) ++ [field.word.chars] := by
      rw [← Fields.map_word_of_ofWords hread, hlist, List.map_append]
      rfl
    refine Slot.exists_of_words hline hnamed hrest fun other hother c hc => ?_
    obtain ⟨before, hbefore, rfl⟩ := List.mem_map.mp hother
    have hplain := Field.isLiteralChar_of_closed (hclosed before hbefore) c hc
    exact ⟨hplain.ne_quote, hplain.plain.2.1⟩
  · cases hfield
  · cases hfield
  · cases hfield

end Assembly

end RegisterMachine
