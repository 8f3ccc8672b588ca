import RegisterMachine.Assembly.Operands
import RegisterMachine.Proofs.Computations

/-!
# The fields of an instruction line

The operands of an instruction line, each kept with its word and what the word reads as (`Field`).
The assembler reads them from the left and keeps only their bytes and the field that a symbol will
fill (`Fields.collect`), and reading a line is reading its fields (`ofWords_eq`). An opcode has at
most one operand that may be a symbol, so what has been kept is enough: filling the one open field
gives the bytes that all fields have once symbols have addresses (`Fields.split`).
-/

namespace RegisterMachine

/-- The operands that may be symbols. -/
def OperandKind.takesSymbol : OperandKind → Bool
  | .immediate32 | .target => true
  | .register | .immediate8 | .address => false

/-- An opcode has at most one operand that may be a symbol. -/
theorem Opcode.countP_takesSymbol_le (opcode : Opcode) :
    opcode.operands.countP OperandKind.takesSymbol ≤ 1 := by
  cases opcode <;> decide

namespace Assembly

/-- A word reads as bytes of the width of its kind, or it stands for a symbol in a jump target of
two bytes or in a constant of four. -/
theorem Operand.ofName_eq_ok {kind : OperandKind} {word : Name} {operand : Operand}
    (h : ofName kind word = .ok operand) :
    (∃ bytes, operand = .bytes bytes ∧ bytes.length = kind.width) ∨
      kind = .target ∧ operand = .symbol .half ∨ kind = .immediate32 ∧ operand = .symbol .word := by
  have hliteral {width : Width}
      (h : Operand.bytes <$> width.encodeLiteral word.chars = .ok operand) :
      ∃ bytes, operand = .bytes bytes ∧ bytes.length = width.bytes := by
    obtain ⟨bytes, hbytes, rfl⟩ := map_eq_ok_iff.mp h
    obtain ⟨value, -, hvalue⟩ := Width.encodeLiteral_eq_ok_iff.mp hbytes
    exact ⟨bytes, rfl, Width.length_of_encode hvalue⟩
  unfold ofName at h
  -- A symbol may stand for a constant or a jump target; the other kinds are read or refused.
  rcases kind with _ | _ | _ | _ | _
  · left
    dsimp only at h
    split at h
    · cases h
      exact ⟨_, rfl, rfl⟩
    · cases h
  · exact .inl (hliteral h)
  · dsimp only at h
    split at h
    · cases h
      exact .inr (.inr ⟨rfl, rfl⟩)
    · exact .inl (hliteral h)
  · exact .inl (hliteral h)
  · dsimp only at h
    split at h
    · obtain ⟨bytes, hbytes, rfl⟩ := map_eq_ok_iff.mp h
      exact .inl ⟨bytes, rfl, Width.length_of_encode hbytes⟩
    · cases h
      exact .inr (.inl ⟨rfl, rfl⟩)

/-- An operand of a line with the word that it is read from. -/
structure Field where
  kind : OperandKind
  word : Name
  operand : Operand
  /-- The word reads as the operand. -/
  reads : Operand.ofName kind word = .ok operand

namespace Field

/-- The bytes of a field, given the addresses of symbols. -/
def bytes (addressOf : List Char → Nat) (field : Field) : List UInt8 :=
  match field.operand with
  | .bytes bytes => bytes
  | .symbol width => width.encodeNat (addressOf field.word.chars)

/-- The width of a field that a symbol will fill. -/
def opens? (field : Field) : Option Width :=
  match field.operand with
  | .bytes _ => none
  | .symbol width => some width

/-- Reads a field of a given kind. -/
def read (kind : OperandKind) (word : List Char) : Except Cause Field :=
  match Name.ofChars word with
  | .error cause => .error cause
  | .ok word =>
    match h : Operand.ofName kind word with
    | .error cause => .error cause
    | .ok operand => .ok ⟨kind, word, operand, h⟩

/-- Reads fields from the left. -/
def readAll : List (OperandKind × List Char) → Except Cause (List Field)
  | [] => .ok []
  | (kind, word) :: rest => do
    let field ← read kind word
    let fields ← readAll rest
    return field :: fields

/-- A field is read from a word that is short enough, and keeps its kind. -/
theorem read_eq_ok_iff {kind : OperandKind} {word : List Char} {field : Field} :
    read kind word = .ok field ↔ field.kind = kind ∧ field.word.chars = word := by
  obtain ⟨kind', word', operand, reads⟩ := field
  unfold read Name.ofChars
  constructor
  · intro h
    rcases hname : Name.ofChars? word with _ | name
    · simp only [hname] at h
      cases h
    · simp only [hname] at h
      split at h
      · cases h
      · cases h
        exact ⟨rfl, Name.ofChars?_eq_some_iff.mp hname⟩
  · rintro ⟨rfl, rfl⟩
    rw [Name.ofChars?_eq_some_iff.mpr rfl]
    dsimp only at reads ⊢
    -- The match keeps its own equation for the field, so it cannot be rewritten with `reads`.
    split
    · rename_i cause herror
      rw [reads] at herror
      cases herror
    · rename_i operand' hoperand
      rw [reads] at hoperand
      cases hoperand
      rfl

/-- Only an operand that may be a symbol is left open, by a jump for two bytes and by a load of a
constant for four. -/
theorem opens?_eq_some {field : Field} {width : Width} (h : field.opens? = some width) :
    field.kind = .target ∧ width = .half ∨ field.kind = .immediate32 ∧ width = .word := by
  obtain ⟨kind, word, operand, reads⟩ := field
  rcases Operand.ofName_eq_ok reads with ⟨bytes, rfl, -⟩ | ⟨rfl, rfl⟩ | ⟨rfl, rfl⟩
  · cases h
  · cases h
    exact .inl ⟨rfl, rfl⟩
  · cases h
    exact .inr ⟨rfl, rfl⟩

/-- Only an operand of a kind that takes symbols is left open. -/
theorem takesSymbol_of_opens? {field : Field} {width : Width} (h : field.opens? = some width) :
    field.kind.takesSymbol = true := by
  rcases opens?_eq_some h with ⟨hkind, -⟩ | ⟨hkind, -⟩ <;> rw [hkind] <;> rfl

/-- An open field holds the address of its symbol. -/
theorem bytes_of_opens? {field : Field} {width : Width} (h : field.opens? = some width)
    (addressOf : List Char → Nat) :
    field.bytes addressOf = width.encodeNat (addressOf field.word.chars) := by
  obtain ⟨kind, word, _ | _, reads⟩ := field
  · cases h
  · cases h
    rfl

/-- The bytes of a field that is not open do not depend on any address. -/
theorem bytes_of_closed {field : Field} (h : field.opens? = none) (addressOf : List Char → Nat) :
    field.bytes addressOf = field.bytes fun _ => 0 := by
  obtain ⟨kind, word, _ | _, reads⟩ := field
  · rfl
  · cases h

/-- A field takes the bytes that its kind says. -/
@[simp] theorem length_bytes (addressOf : List Char → Nat) (field : Field) :
    (field.bytes addressOf).length = field.kind.width := by
  obtain ⟨kind, word, operand, reads⟩ := field
  rcases Operand.ofName_eq_ok reads with ⟨bytes, rfl, hlength⟩ | ⟨rfl, rfl⟩ | ⟨rfl, rfl⟩
  · exact hlength
  · exact Width.length_encodeNat ..
  · exact Width.length_encodeNat ..

/-- Reading fields keeps their kinds. -/
theorem map_kind_of_readAll {words : List (OperandKind × List Char)} {fields : List Field}
    (h : readAll words = .ok fields) : fields.map kind = words.map Prod.fst := by
  induction words generalizing fields with
  | nil =>
    cases h
    rfl
  | cons entry rest ih =>
    obtain ⟨field, hfield, h⟩ := bind_eq_ok_iff.mp h
    obtain ⟨fields', hfields, h⟩ := bind_eq_ok_iff.mp h
    cases h
    rw [List.map_cons, List.map_cons, ih hfields, (read_eq_ok_iff.mp hfield).1]

/-- Words can be read as the fields that have them. -/
theorem readAll_of_fields (fields : List Field) :
    readAll (fields.map fun field => (field.kind, field.word.chars)) = .ok fields := by
  induction fields with
  | nil => rfl
  | cons field rest ih =>
    rw [List.map_cons, readAll, read_eq_ok_iff.mpr ⟨rfl, rfl⟩, ih]
    rfl

end Field

/-- The fields of an instruction line. -/
structure Fields (opcode : Opcode) where
  list : List Field
  /-- They are the operands in the table of the opcode. -/
  complete : list.map Field.kind = opcode.operands

/-- Reads the fields of an opcode, which must be as many as its table has. -/
def Fields.ofWords (opcode : Opcode) (words : List (List Char)) : Except Cause (Fields opcode) :=
  if hlength : words.length = opcode.operands.length then
    match h : Field.readAll (opcode.operands.zip words) with
    | .error cause => .error cause
    | .ok fields => .ok ⟨fields, by
        rw [Field.map_kind_of_readAll h, List.map_fst_zip (Nat.le_of_eq hlength.symm)]⟩
  else .error (.badParameterCount opcode.operands.length words.length)

/-- The words of fields read as those fields. -/
theorem Fields.ofWords_map_word {opcode : Opcode} (fields : Fields opcode) :
    Fields.ofWords opcode (fields.list.map fun field => field.word.chars) = .ok fields := by
  obtain ⟨list, complete⟩ := fields
  have hlength : (list.map fun field => field.word.chars).length = opcode.operands.length := by
    rw [← complete, List.length_map, List.length_map]
  have hread : Field.readAll (opcode.operands.zip (list.map fun field => field.word.chars)) =
      .ok list := by
    rw [← complete, List.zip_map']
    exact Field.readAll_of_fields list
  unfold Fields.ofWords
  rw [dif_pos hlength]
  split
  · rename_i cause h
    rw [hread] at h
    cases h
  · rename_i list' h
    rw [hread] at h
    cases h
    rfl

namespace Operands

/-- The operands with one more field kept. -/
def push (operands : Operands) (field : Field) : Operands where
  args := operands.args ++ [field.word]
  bytes := operands.bytes ++ field.bytes fun _ => 0
  reference? :=
    match field.opens? with
    | none => operands.reference?
    | some width => some ⟨field.word, operands.bytes.length, width⟩

/-- The operands with more fields kept, from the left. -/
def pushAll (operands : Operands) (fields : List Field) : Operands :=
  fields.foldl push operands

/-- Reading one more operand is reading its field and keeping it. -/
theorem add_eq (operands : Operands) (kind : OperandKind) (word : List Char) :
    operands.add kind word = operands.push <$> Field.read kind word := by
  unfold add Field.read
  rcases Name.ofChars word with cause | name
  · rfl
  · change (Operand.ofName kind name >>= _) = _
    dsimp only
    split
    · rename_i cause h
      rw [h]
      rfl
    · rename_i operand h
      conv => lhs; rw [h]
      rcases operand with bytes | width <;> rfl

/-- Reading operands is reading their fields and keeping them. -/
theorem foldlM_add (operands : Operands) (words : List (OperandKind × List Char)) :
    words.foldlM (fun operands (kind, word) => operands.add kind word) operands =
      operands.pushAll <$> Field.readAll words := by
  induction words generalizing operands with
  | nil => rfl
  | cons entry rest ih =>
    rw [List.foldlM_cons, Field.readAll]
    dsimp only
    rw [add_eq]
    rcases Field.read entry.1 entry.2 with cause | field
    · rfl
    · change rest.foldlM _ (operands.push field) = _
      rw [ih]
      rcases Field.readAll rest with cause | fields <;> rfl

/-- Reading the operands of a line is reading its fields and keeping them. -/
theorem ofWords_eq (opcode : Opcode) (words : List (List Char)) :
    ofWords opcode words = (fun fields => empty.pushAll fields.list) <$>
      Fields.ofWords opcode words := by
  unfold ofWords Fields.ofWords
  by_cases hlength : words.length = opcode.operands.length
  · rw [if_neg (not_not_intro hlength), dif_pos hlength]
    change List.foldlM _ _ _ = _
    rw [foldlM_add]
    split
    · rename_i cause h
      rw [h]
      rfl
    · rename_i fields h
      conv => lhs; rw [h]
      rfl
  · rw [if_pos hlength, dif_neg hlength]
    rfl

/-! ## What is kept of fields -/

variable (operands : Operands) (fields : List Field)

/-- Fields that are read add their words. -/
theorem args_pushAll : (operands.pushAll fields).args = operands.args ++ fields.map Field.word := by
  induction fields generalizing operands with
  | nil => exact (List.append_nil _).symm
  | cons field rest ih =>
    rw [pushAll, List.foldl_cons, ← pushAll, ih, List.map_cons]
    simp [push]

/-- Fields that are read add their bytes, with zeros where they are open. -/
theorem bytes_pushAll :
    (operands.pushAll fields).bytes =
      operands.bytes ++ fields.flatMap (Field.bytes fun _ => 0) := by
  induction fields generalizing operands with
  | nil => exact (List.append_nil _).symm
  | cons field rest ih =>
    rw [pushAll, List.foldl_cons, ← pushAll, ih, List.flatMap_cons, ← List.append_assoc]
    rfl

variable {operands fields}

/-- Closed fields add no reference. -/
theorem reference?_pushAll_of_closed (h : ∀ field ∈ fields, field.opens? = none) :
    (operands.pushAll fields).reference? = operands.reference? := by
  induction fields generalizing operands with
  | nil => rfl
  | cons field rest ih =>
    rw [List.forall_mem_cons] at h
    rw [pushAll, List.foldl_cons, ← pushAll, ih h.2, push, h.1]

/-- The last open field is the one that is kept as such. -/
theorem reference?_pushAll {front back : List Field} {field : Field} {width : Width}
    (hfield : field.opens? = some width) (hback : ∀ field ∈ back, field.opens? = none) :
    (operands.pushAll (front ++ field :: back)).reference? =
      some ⟨field.word, (operands.bytes ++ front.flatMap (Field.bytes fun _ => 0)).length,
        width⟩ := by
  unfold pushAll
  rw [List.foldl_append, List.foldl_cons, ← pushAll, ← pushAll,
    reference?_pushAll_of_closed hback, push, hfield, bytes_pushAll]

end Operands

/-- Operands with the field filled that refers to a symbol. -/
def Reference.fill (reference : Reference) (address : Nat) (operands : List UInt8) : List UInt8 :=
  operands.take reference.offset ++ reference.width.encodeNat address ++
    operands.drop (reference.offset + reference.width.bytes)

/-- Filling a field inside the operands keeps their length. -/
theorem Reference.length_fill {reference : Reference} {address : Nat} {operands : List UInt8}
    (h : reference.offset + reference.width.bytes ≤ operands.length) :
    (reference.fill address operands).length = operands.length := by
  rw [fill, List.length_append, List.length_append, List.length_take, List.length_drop,
    Width.length_encodeNat]
  omega

namespace Fields

variable {opcode : Opcode}

/-- What the assembler keeps of the fields of a line. -/
def kept (fields : Fields opcode) : Operands :=
  Operands.empty.pushAll fields.list

/-- The bytes of all fields, given the addresses of symbols. -/
def bytes (addressOf : List Char → Nat) (fields : Fields opcode) : List UInt8 :=
  fields.list.flatMap (Field.bytes addressOf)

/-- The fields of an instruction take the bytes that its opcode says. -/
@[simp] theorem length_bytes (addressOf : List Char → Nat) (fields : Fields opcode) :
    (fields.bytes addressOf).length = opcode.operandBytes := by
  have hlength (list : List Field) : (list.flatMap (Field.bytes addressOf)).length =
      (list.map Field.kind).foldr (fun kind bytes => kind.width + bytes) 0 := by
    induction list with
    | nil => rfl
    | cons field rest ih =>
      rw [List.flatMap_cons, List.length_append, Field.length_bytes, ih, List.map_cons,
        List.foldr_cons]
  unfold bytes Opcode.operandBytes
  rw [hlength, fields.complete]

/-- Before symbols have addresses their fields are zero. -/
theorem bytes_kept (fields : Fields opcode) : fields.kept.bytes = fields.bytes fun _ => 0 :=
  Operands.bytes_pushAll _ _

/-- The bytes of closed fields do not depend on addresses. -/
theorem bytes_of_closed {list : List Field} (h : ∀ field ∈ list, field.opens? = none)
    (addressOf : List Char → Nat) :
    list.flatMap (Field.bytes addressOf) = list.flatMap (Field.bytes fun _ => 0) := by
  rw [List.flatMap_def, List.flatMap_def]
  congr 1
  exact List.map_congr_left fun field hmem => Field.bytes_of_closed (h field hmem) addressOf

/-- At most one field is open. -/
theorem split (fields : Fields opcode) :
    (∀ field ∈ fields.list, field.opens? = none) ∨
      ∃ front field back width, fields.list = front ++ field :: back ∧
        field.opens? = some width ∧ (∀ field ∈ front, field.opens? = none) ∧
        ∀ field ∈ back, field.opens? = none := by
  by_cases hclosed : ∀ field ∈ fields.list, field.opens? = none
  · exact .inl hclosed
  · right
    simp only [Classical.not_forall] at hclosed
    obtain ⟨field, hmem, hopen⟩ := hclosed
    obtain ⟨width, hwidth⟩ := Option.ne_none_iff_exists'.mp hopen
    obtain ⟨front, back, hlist⟩ := List.append_of_mem hmem
    -- The table of the opcode has no place for a second open field.
    have hcount : (fields.list.map Field.kind).countP OperandKind.takesSymbol ≤ 1 := by
      rw [fields.complete]
      exact opcode.countP_takesSymbol_le
    have hself := Field.takesSymbol_of_opens? hwidth
    rw [hlist, List.map_append, List.map_cons, List.countP_append,
      List.countP_cons_of_pos hself] at hcount
    have hrest {list : List Field}
        (hzero : (list.map Field.kind).countP OperandKind.takesSymbol = 0) :
        ∀ field ∈ list, field.opens? = none := by
      intro other hother
      rw [List.countP_eq_zero] at hzero
      rcases hopens : other.opens? with _ | width'
      · rfl
      · exact absurd (Field.takesSymbol_of_opens? hopens)
          (hzero _ (List.mem_map_of_mem hother))
    exact ⟨front, field, back, width, hlist, hwidth, hrest (by omega), hrest (by omega)⟩

/-- The fields that are symbols. -/
def opened (fields : Fields opcode) : List Field :=
  fields.list.filter fun field => field.opens?.isSome

/-- Of closed fields none is open. -/
theorem opened_of_closed {fields : Fields opcode}
    (h : ∀ field ∈ fields.list, field.opens? = none) : fields.opened = [] := by
  unfold opened
  rw [List.filter_eq_nil_iff]
  intro field hmem
  rw [h field hmem]
  decide

/-- A field that is open between closed ones is the only one. -/
theorem opened_of_open {fields : Fields opcode} {front back : List Field} {field : Field}
    {width : Width} (hlist : fields.list = front ++ field :: back)
    (hfield : field.opens? = some width) (hfront : ∀ field ∈ front, field.opens? = none)
    (hback : ∀ field ∈ back, field.opens? = none) : fields.opened = [field] := by
  have hnone {list : List Field} (h : ∀ field ∈ list, field.opens? = none) :
      list.filter (fun field => field.opens?.isSome) = [] := by
    rw [List.filter_eq_nil_iff]
    intro other hmem
    rw [h other hmem]
    decide
  unfold opened
  rw [hlist, List.filter_append, hnone hfront, List.filter_cons_of_pos (by rw [hfield]; rfl),
    hnone hback]
  rfl

/-- What is kept of fields without an open one: their bytes, which are final. -/
theorem kept_of_closed {fields : Fields opcode} (h : ∀ field ∈ fields.list, field.opens? = none) :
    fields.kept.reference? = none ∧
      ∀ addressOf, fields.bytes addressOf = fields.kept.bytes := by
  refine ⟨Operands.reference?_pushAll_of_closed h, fun addressOf => ?_⟩
  rw [bytes_kept]
  exact bytes_of_closed h addressOf

section

variable {fields : Fields opcode} {front back : List Field} {field : Field} {width : Width}

/-- The reference that is kept of an open field says how many bytes stand before it. -/
theorem reference?_kept_of_open (hlist : fields.list = front ++ field :: back)
    (hfield : field.opens? = some width) (hback : ∀ field ∈ back, field.opens? = none) :
    fields.kept.reference? =
      some ⟨field.word, (front.flatMap (Field.bytes fun _ => 0)).length, width⟩ := by
  unfold kept
  rw [hlist, Operands.reference?_pushAll hfield hback]
  rfl

/-- The bytes that are kept of an open field are zero. -/
theorem bytes_kept_of_open (hlist : fields.list = front ++ field :: back)
    (hfield : field.opens? = some width) :
    fields.kept.bytes = front.flatMap (Field.bytes fun _ => 0) ++
      (width.encodeNat 0 ++ back.flatMap (Field.bytes fun _ => 0)) := by
  rw [bytes_kept, bytes, hlist, List.flatMap_append, List.flatMap_cons,
    Field.bytes_of_opens? hfield]

/-- What is kept of fields with an open one: the symbol, the place and the width of that field, from
which all bytes follow once the symbol has an address. -/
theorem kept_of_open (hlist : fields.list = front ++ field :: back)
    (hfield : field.opens? = some width) (hfront : ∀ field ∈ front, field.opens? = none)
    (hback : ∀ field ∈ back, field.opens? = none) :
    ∃ reference, fields.kept.reference? = some reference ∧ reference.symbol = field.word ∧
      reference.width = width ∧
      reference.offset + reference.width.bytes ≤ fields.kept.bytes.length ∧
      ∀ addressOf, fields.bytes addressOf =
        reference.fill (addressOf field.word.chars) fields.kept.bytes := by
  have hopen := Field.bytes_of_opens? hfield
  have hkept := bytes_kept_of_open hlist hfield
  -- Only the bytes of the open field differ between what is kept and what all fields have.
  refine ⟨_, reference?_kept_of_open hlist hfield hback, rfl, rfl, ?_, fun addressOf => ?_⟩
  · rw [hkept, List.length_append, List.length_append, Width.length_encodeNat]
    dsimp only
    omega
  · unfold Reference.fill bytes
    rw [hlist, List.flatMap_append, List.flatMap_cons, hopen, bytes_of_closed hfront,
      bytes_of_closed hback, hkept, List.take_left, ← List.drop_drop, List.drop_left,
      ← Width.length_encodeNat width 0, List.drop_left, List.append_assoc]

end

end Fields

end Assembly

end RegisterMachine
