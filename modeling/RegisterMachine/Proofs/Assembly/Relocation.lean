import RegisterMachine.Proofs.Assembly.History
import RegisterMachine.Proofs.Assembly.Limits

/-!
# Relocation

Fields of an image that hold the address of a symbol can be raised by an amount, with nothing else
changed (`Assembler.relocate`, `Assembler.getElem?_relocate`). This is what becomes of the image of
clauses when each symbol has its address raised by that amount (`relocate_settled`): there is at
most one such field in the bytes of a clause, where it stands follows from the bytes before it, and
it has room for every address (`Clause.HasField`).

Where clauses start and what their symbols stand for is told from the bytes before them
(`StartsFrom`, `labelsOf`), so that both are moved by whatever else is put before
(`startsFrom_append`, `labelsOf_add`).
-/

namespace RegisterMachine.Assembly

/-! ## Relocation -/

/-- The number that a field holds. -/
def Reference.value (reference : Reference) (bytes : List UInt8) : Nat :=
  LittleEndian.ofBytes ((bytes.drop reference.offset).take reference.width.bytes)

/-- The bytes that a field takes. -/
def Reference.Covers (reference : Reference) (i : Nat) : Prop :=
  reference.offset ≤ i ∧ i < reference.offset + reference.width.bytes

/-- The field of a statement that refers to a symbol, where it stands in the image: after the opcode
byte at the address of the statement. -/
def Statement.fieldInImage? (statement : Statement) : Option Reference :=
  statement.reference?.map fun reference =>
    { reference with offset := statement.address.toNat + 1 + reference.offset }

/-- An image with the field of a statement that refers to a symbol raised by an amount. -/
def Statement.relocate (amount : Nat) (image : List UInt8) (statement : Statement) : List UInt8 :=
  match statement.fieldInImage? with
  | none => image
  | some field => field.fill (field.value image + amount) image

/-- An image with all fields that refer to symbols raised by an amount, given the assembler that has
laid it out. -/
def Assembler.relocate (amount : Nat) (assembler : Assembler) (image : List UInt8) : List UInt8 :=
  assembler.statements.toList.foldl (Statement.relocate amount) image

/-- The symbols of an assembler with their addresses. -/
def Assembler.labels (assembler : Assembler) : List (Name × Nat) :=
  assembler.symbols.entries.map fun symbol => (symbol.name, symbol.address.toNat)

namespace Reference

variable {reference : Reference} {operands front back : List UInt8}

/-- What stands before a field. -/
theorem length_take_offset (h : reference.offset + reference.width.bytes ≤ operands.length) :
    (operands.take reference.offset).length = reference.offset := by
  rw [List.length_take]
  omega

/-- A field that has been filled holds what it has been filled with. -/
theorem value_fill (h : reference.offset + reference.width.bytes ≤ operands.length) {number : Nat}
    (hnumber : number < reference.width.modulus) :
    reference.value (reference.fill number operands) = number := by
  have hfield : ((reference.fill number operands).drop reference.offset).take
      reference.width.bytes = reference.width.encodeNat number := by
    unfold fill
    rw [List.append_assoc, List.drop_left' (length_take_offset h),
      ← Width.length_encodeNat reference.width number, List.take_left]
  unfold value
  rw [hfield, Width.encodeNat, LittleEndian.ofBytes_toBytes]
  exact Nat.mod_eq_of_lt hnumber

/-- A field can be filled again. -/
theorem fill_fill (h : reference.offset + reference.width.bytes ≤ operands.length)
    (number number' : Nat) :
    reference.fill number' (reference.fill number operands) = reference.fill number' operands := by
  have htake : (reference.fill number operands).take reference.offset =
      operands.take reference.offset := by
    unfold fill
    rw [List.append_assoc, List.take_left' (length_take_offset h)]
  have hdrop : (reference.fill number operands).drop (reference.offset + reference.width.bytes) =
      operands.drop (reference.offset + reference.width.bytes) := by
    unfold fill
    refine List.drop_left' ?_
    rw [List.length_append, length_take_offset h, Width.length_encodeNat]
  show (reference.fill number operands).take reference.offset ++ _ ++
    (reference.fill number operands).drop _ = _
  rw [htake, hdrop]
  rfl

/-- Filling a field changes no byte that it does not take. -/
theorem getElem?_fill (h : reference.offset + reference.width.bytes ≤ operands.length)
    (number : Nat) {i : Nat} (hi : ¬ reference.Covers i) :
    (reference.fill number operands)[i]? = operands[i]? := by
  have hlength := length_take_offset h
  have hwritten : (operands.take reference.offset ++ reference.width.encodeNat number).length =
      reference.offset + reference.width.bytes := by
    rw [List.length_append, hlength, Width.length_encodeNat]
  unfold fill
  rcases Nat.lt_or_ge i reference.offset with hbefore | hafter
  · rw [List.append_assoc, List.getElem?_append_left (by omega), List.getElem?_take_of_lt hbefore]
  · have hbehind : reference.offset + reference.width.bytes ≤ i :=
      Nat.le_of_not_lt fun hlt => hi ⟨hafter, hlt⟩
    rw [List.getElem?_append_right (by omega), hwritten, List.getElem?_drop,
      Nat.add_sub_cancel' hbehind]

/-- A field of operands where they stand between other bytes. -/
theorem value_append (h : reference.offset + reference.width.bytes ≤ operands.length) :
    { reference with offset := front.length + reference.offset }.value (front ++ operands ++ back) =
      reference.value operands := by
  unfold value
  dsimp only
  rw [List.append_assoc, ← List.drop_drop, List.drop_left, List.drop_append_of_le_length (by omega),
    List.take_append_of_le_length (by rw [List.length_drop]; omega)]

/-- A field that lies inside the operands is filled behind other bytes as it is without them. -/
theorem fill_append (h : reference.offset + reference.width.bytes ≤ operands.length)
    (number : Nat) :
    { reference with offset := front.length + reference.offset }.fill number
        (front ++ operands ++ back) = front ++ reference.fill number operands ++ back := by
  have htake : (front ++ operands ++ back).take (front.length + reference.offset) =
      front ++ operands.take reference.offset := by
    rw [List.append_assoc, List.take_length_add_append, List.take_append_of_le_length (by omega)]
  have hdrop : (front ++ operands ++ back).drop
      (front.length + reference.offset + reference.width.bytes) =
      operands.drop (reference.offset + reference.width.bytes) ++ back := by
    rw [List.append_assoc, Nat.add_assoc, ← List.drop_drop, List.drop_left,
      List.drop_append_of_le_length h]
  unfold fill
  dsimp only
  rw [htake, hdrop]
  simp only [List.append_assoc]

end Reference

/-- Every address of a symbol is a 16-bit one. -/
theorem SymbolTable.addressOf_le (symbols : SymbolTable) (name : List Char) :
    symbols.addressOf name ≤ 0xFFFF := by
  unfold addressOf
  cases symbols.address? name with
  | none => exact Nat.zero_le _
  | some address => exact Nat.le_of_lt_succ address.toNat_lt

/-- A field for a symbol has room for every address. -/
theorem Width.lt_modulus_of_opens? {field : Field} {width : Width}
    (h : field.opens? = some width) {number : Nat} (hnumber : number ≤ 0xFFFF) :
    number < width.modulus := by
  have hhalf : 0xFFFF < Width.half.modulus := by decide
  have hword : 0xFFFF < Width.word.modulus := by decide
  rcases Field.opens?_eq_some h with ⟨-, rfl⟩ | ⟨-, rfl⟩
  · exact Nat.lt_of_le_of_lt hnumber hhalf
  · exact Nat.lt_of_le_of_lt hnumber hword

/-- The field of a statement is moved by its address and the opcode byte. -/
theorem fieldInImage?_of_reference? {statement : Statement} {reference? : Option Reference}
    (h : statement.reference? = reference?) (address : UInt16) :
    Statement.fieldInImage? { statement with address } = reference?.map fun reference =>
      { reference with offset := address.toNat + 1 + reference.offset } := by
  rw [← h]
  rfl

/-- The bytes of a clause are an opcode byte and operands with a field that takes the address of a
symbol. -/
structure Clause.HasField (clause : Clause) (reference : Reference) (opcode : UInt8)
    (operands : List UInt8) : Prop where
  bytes : ∀ addressOf, clause.bytes addressOf =
    opcode :: reference.fill (addressOf reference.symbol.chars) operands
  inside : reference.offset + reference.width.bytes ≤ operands.length
  wide : ∀ number ≤ 0xFFFF, number < reference.width.modulus
  listed : ∃ field ∈ clause.openFields, field.word = reference.symbol

/-- Where a clause refers to no symbol its bytes are final, else one field depends on addresses. -/
theorem Clause.reference?_statement (clause : Clause) (number start : Nat) :
    (clause.statement number start).reference? = none ∧
        (∀ addressOf addressOf', clause.bytes addressOf = clause.bytes addressOf') ∨
      ∃ reference opcode operands,
        (clause.statement number start).reference? = some reference ∧
          clause.HasField reference opcode operands := by
  obtain ⟨name, ⟨opcode, fields⟩ | _ | _ | _⟩ := clause
  · rcases fields.split with hclosed | ⟨before, field, after, width, hlist, hfield, hbefore, hafter⟩
    · -- All fields are closed.
      obtain ⟨hnone, hbytes⟩ := Fields.kept_of_closed hclosed
      refine .inl ⟨hnone, fun addressOf addressOf' => ?_⟩
      show opcode.byte :: fields.bytes addressOf = opcode.byte :: fields.bytes addressOf'
      rw [hbytes, hbytes]
    · -- One field is open, the one of the reference.
      obtain ⟨reference, hreference, hsymbol, hwidth, hinside, hbytes⟩ :=
        Fields.kept_of_open hlist hfield hbefore hafter
      refine .inr ⟨reference, opcode.byte, fields.kept.bytes, hreference, fun addressOf => ?_,
        hinside, fun number hnumber => ?_, field, ?_, hsymbol.symm⟩
      · rw [hsymbol]
        exact congrArg _ (hbytes addressOf)
      · rw [hwidth]
        exact Width.lt_modulus_of_opens? hfield hnumber
      · show field ∈ fields.opened
        rw [Fields.opened_of_open hlist hfield hbefore hafter]
        exact List.mem_singleton_self field
  · -- Nothing but an operation refers to a symbol.
    exact .inl ⟨rfl, fun _ _ => rfl⟩
  · exact .inl ⟨rfl, fun _ _ => rfl⟩
  · exact .inl ⟨rfl, fun _ _ => rfl⟩

section

variable {clause : Clause} {reference : Reference} {opcode : UInt8} {operands : List UInt8}
  {front back : List UInt8} {addressOf : List Char → Nat}

/-- The bytes of a clause between others, with the opcode byte before the operands. -/
theorem Clause.HasField.bytes_append (h : clause.HasField reference opcode operands) :
    front ++ clause.bytes addressOf ++ back =
      front ++ [opcode] ++ reference.fill (addressOf reference.symbol.chars) operands ++ back := by
  rw [h.bytes, List.append_assoc front [opcode]]
  rfl

/-- A field holds the address of its symbol where the bytes of its clause stand between others, and
is raised as if the symbol had another address. -/
theorem Clause.HasField.value_fill (h : clause.HasField reference opcode operands)
    (haddress : addressOf reference.symbol.chars ≤ 0xFFFF) (front back : List UInt8)
    (amount : Nat) :
    let field := { reference with offset := front.length + 1 + reference.offset }
    field.value (front ++ clause.bytes addressOf ++ back) = addressOf reference.symbol.chars ∧
      field.fill (addressOf reference.symbol.chars + amount)
          (front ++ clause.bytes addressOf ++ back) =
        front ++ clause.bytes (fun name => addressOf name + amount) ++ back := by
  have hfilled : reference.offset + reference.width.bytes ≤
      (reference.fill (addressOf reference.symbol.chars) operands).length := by
    rw [Reference.length_fill h.inside]
    exact h.inside
  have hfront : (front ++ [opcode]).length = front.length + 1 := List.length_append
  rw [h.bytes_append, h.bytes_append, ← hfront]
  constructor
  · rw [Reference.value_append hfilled, Reference.value_fill h.inside (h.wide _ haddress)]
  · rw [Reference.fill_append hfilled, Reference.fill_fill h.inside]

end

/-- An image with the field of a clause raised, where its bytes stand between others. -/
theorem Clause.relocate_statement (clause : Clause) (number start amount : Nat)
    {addressOf : List Char → Nat} {front back : List UInt8} (hcursor : front.length ≤ 0xFFFF)
    (haddresses : ∀ field ∈ clause.openFields, addressOf field.word.chars ≤ 0xFFFF) :
    Statement.relocate amount (front ++ clause.bytes addressOf ++ back)
        { clause.statement number start with address := UInt16.ofNat front.length } =
      front ++ clause.bytes (fun name => addressOf name + amount) ++ back := by
  rcases clause.reference?_statement number start with
    ⟨hnone, hbytes⟩ | ⟨reference, opcode, operands, hreference, hfield⟩
  · have hunchanged := fieldInImage?_of_reference? hnone (UInt16.ofNat front.length)
    unfold Statement.relocate
    rw [hunchanged, hbytes addressOf]
    rfl
  · obtain ⟨field, hmem, hsymbol⟩ := hfield.listed
    obtain ⟨hvalue, hfill⟩ :=
      hfield.value_fill (hsymbol ▸ haddresses field hmem) front back amount
    have hplace := fieldInImage?_of_reference? hreference (UInt16.ofNat front.length)
    rw [Option.map_some, UInt16.toNat_ofNat_of_lt' (Nat.lt_succ_of_le hcursor)] at hplace
    unfold Statement.relocate
    rw [hplace]
    dsimp only at hvalue hfill ⊢
    rw [hvalue, hfill]

/-- Raising fields changes no byte that they do not take. -/
theorem Assembler.getElem?_relocate {assembler : Assembler} {image : List UInt8}
    (hinside : ∀ statement ∈ assembler.statements.toList,
      ∀ field, statement.fieldInImage? = some field →
        field.offset + field.width.bytes ≤ image.length) (amount : Nat) {i : Nat}
    (hi : ∀ statement ∈ assembler.statements.toList,
      ∀ field, statement.fieldInImage? = some field → ¬ field.Covers i) :
    (assembler.relocate amount image)[i]? = image[i]? := by
  unfold relocate
  generalize assembler.statements.toList = statements at hinside hi ⊢
  -- A field that is moved keeps the length, and every byte that it does not cover.
  induction statements generalizing image with
  | nil => rfl
  | cons statement rest ih =>
    rw [List.forall_mem_cons] at hinside hi
    obtain ⟨hlength, hsame⟩ : (Statement.relocate amount image statement).length = image.length ∧
        (Statement.relocate amount image statement)[i]? = image[i]? := by
      unfold Statement.relocate
      split
      · exact ⟨rfl, rfl⟩
      · rename_i field hfield
        exact ⟨Reference.length_fill (hinside.1 field hfield),
          Reference.getElem?_fill (hinside.1 field hfield) _ (hi.1 field hfield)⟩
    rw [List.foldl_cons, ih (hlength ▸ hinside.2) hi.2, hsame]

/-! ## Clauses one after the other -/

/-- Clauses start at 16-bit addresses when the first one starts at `start`. -/
def StartsFrom (start : Nat) : List (Nat × Clause) → Prop
  | [] => True
  | entry :: rest => start ≤ 0xFFFF ∧ StartsFrom (start + (entry.2.bytes fun _ => 0).length) rest

/-- The image is as long as the first clause and the others. -/
theorem length_imageOf_cons (entry : Nat × Clause) (rest : List (Nat × Clause)) :
    (imageOf (fun _ => 0) (entry :: rest)).length =
      (entry.2.bytes fun _ => 0).length + (imageOf (fun _ => 0) rest).length := by
  rw [imageOf_cons, List.length_append]

/-- Clauses one after the other start at 16-bit addresses if both parts do, the second one behind
the first. -/
theorem startsFrom_append {start : Nat} {first second : List (Nat × Clause)} :
    StartsFrom start (first ++ second) ↔
      StartsFrom start first ∧
        StartsFrom (start + (imageOf (fun _ => 0) first).length) second := by
  induction first generalizing start with
  | nil => exact ⟨fun h => ⟨trivial, h⟩, And.right⟩
  | cons entry rest ih =>
    rw [List.cons_append, StartsFrom, StartsFrom, ih, length_imageOf_cons, Nat.add_assoc, and_assoc]

/-- Each clause starts at a 16-bit address behind those before it. -/
theorem startsFrom_iff {start : Nat} {clauses : List (Nat × Clause)} :
    StartsFrom start clauses ↔ ∀ front entry back, clauses = front ++ entry :: back →
      start + (imageOf (fun _ => 0) front).length ≤ 0xFFFF := by
  constructor
  · rintro h front entry back rfl
    exact (startsFrom_append.mp h).2.1
  · intro h
    induction clauses generalizing start with
    | nil => trivial
    | cons entry rest ih =>
      refine ⟨h [] entry rest rfl, ih fun front other back hrest => ?_⟩
      have hstart := h (entry :: front) other back (by rw [hrest, List.cons_append])
      rwa [length_imageOf_cons, ← Nat.add_assoc] at hstart

/-- An image with the fields of all clauses raised, where their bytes stand between others. -/
theorem relocate_located {pool : Array UInt8} {addressOf : List Char → Nat}
    {clauses : List (Nat × Clause)} {before after : List UInt8} (amount : Nat)
    (front back : List UInt8)
    (hpool : pool.toList = before ++ constantsOf clauses ++ after)
    (hstarts : StartsFrom front.length clauses)
    (haddresses : ∀ entry ∈ clauses, ∀ field ∈ entry.2.openFields,
      addressOf field.word.chars ≤ 0xFFFF) :
    (Layout.located pool front.length (statementsOf before.length clauses)).foldl
        (Statement.relocate amount) (front ++ imageOf addressOf clauses ++ back) =
      front ++ imageOf (fun name => addressOf name + amount) clauses ++ back := by
  induction clauses generalizing before front with
  | nil => rfl
  | cons entry rest ih =>
    rw [constantsOf_cons, ← List.append_assoc] at hpool
    have hheld : entry.2.HeldBy pool before.length := by
      rw [List.append_assoc] at hpool
      exact Clause.heldBy_of_toList hpool
    obtain ⟨hcursor, hrest⟩ := hstarts
    rw [List.forall_mem_cons] at haddresses
    -- Once the first clause is raised its bytes belong to what stands in front.
    have hfirst : Statement.relocate amount
        (front ++ entry.2.bytes addressOf ++ (imageOf addressOf rest ++ back))
        { entry.2.statement entry.1 before.length with address := UInt16.ofNat front.length } =
        front ++ entry.2.bytes (fun name => addressOf name + amount) ++
          (imageOf addressOf rest ++ back) :=
      entry.2.relocate_statement entry.1 before.length amount hcursor haddresses.1
    have hnext : front.length + (entry.2.bytes fun _ => 0).length =
        (front ++ entry.2.bytes fun name => addressOf name + amount).length := by
      rw [List.length_append, Clause.length_bytes]
    have hothers := ih (front ++ _) hpool (hnext ▸ hrest) haddresses.2
    rw [← hnext, List.length_append] at hothers
    rw [statementsOf, Layout.located, List.foldl_cons, imageOf_cons, imageOf_cons,
      Clause.draft_statement hheld]
    simp only [List.append_assoc] at hfirst hothers ⊢
    rw [hfirst, hothers]

/-- The symbols that clauses define, with their addresses when the first one starts at `start`. -/
def labelsOf (start : Nat) : List (Nat × Clause) → List (Name × Nat)
  | [] => []
  | entry :: rest =>
    let later := labelsOf (start + (entry.2.bytes fun _ => 0).length) rest
    if entry.2.defines then (entry.2.name, start) :: later else later

/-- The labels of the second part are moved behind the image of the first. -/
theorem labelsOf_append (start : Nat) (first second : List (Nat × Clause)) :
    labelsOf start (first ++ second) =
      labelsOf start first ++ labelsOf (start + (imageOf (fun _ => 0) first).length) second := by
  induction first generalizing start with
  | nil => rfl
  | cons entry rest ih =>
    rw [List.cons_append, labelsOf, labelsOf, ih, length_imageOf_cons, Nat.add_assoc]
    split <;> rfl

/-- Symbols move with what stands before the clauses that define them. -/
theorem labelsOf_add (amount start : Nat) (clauses : List (Nat × Clause)) :
    labelsOf (amount + start) clauses =
      (labelsOf start clauses).map fun label => (label.1, amount + label.2) := by
  induction clauses generalizing start with
  | nil => rfl
  | cons entry rest ih =>
    rw [labelsOf, labelsOf, Nat.add_assoc, ih]
    split <;> rfl

/-- The definitions of both parts follow each other. -/
theorem symbolsOf_append (first second : List (Nat × Clause)) :
    symbolsOf (first ++ second) = symbolsOf first ++ symbolsOf second := by
  unfold symbolsOf
  rw [List.filter_append, List.map_append]

/-- The constants of both parts follow each other. -/
theorem constantsOf_append (first second : List (Nat × Clause)) :
    constantsOf (first ++ second) = constantsOf first ++ constantsOf second :=
  List.flatMap_append

/-- A symbol that is defined is defined by a clause among the others. -/
theorem exists_split_of_mem_symbolsOf {clauses : List (Nat × Clause)} {name : Name}
    (h : name ∈ symbolsOf clauses) :
    ∃ front entry back, clauses = front ++ entry :: back ∧ entry.2.defines = true ∧
      entry.2.name = name := by
  obtain ⟨entry, hentry, hname⟩ := List.mem_map.mp h
  obtain ⟨hmem, hdefines⟩ := List.mem_filter.mp hentry
  obtain ⟨front, back, hsplit⟩ := List.append_of_mem hmem
  exact ⟨front, entry, back, hsplit, hdefines, hname⟩

/-- The bytes of a clause do not depend on the addresses of symbols that it does not refer to. -/
theorem Clause.bytes_congr {addressOf addressOf' : List Char → Nat} {clause : Clause}
    (h : ∀ field ∈ clause.openFields, addressOf field.word.chars = addressOf' field.word.chars) :
    clause.bytes addressOf = clause.bytes addressOf' := by
  obtain ⟨name, ⟨opcode, fields⟩ | _ | _ | _⟩ := clause
  · have hfield (field : Field) (hmem : field ∈ fields.list) :
        field.bytes addressOf = field.bytes addressOf' := by
      rcases hopens : field.opens? with _ | width
      · rw [Field.bytes_of_closed hopens, ← Field.bytes_of_closed hopens addressOf']
      · have hopened : field ∈ fields.opened :=
          List.mem_filter.mpr ⟨hmem, by rw [hopens]; rfl⟩
        rw [Field.bytes_of_opens? hopens, Field.bytes_of_opens? hopens, h field hopened]
    show opcode.byte :: fields.list.flatMap _ = opcode.byte :: fields.list.flatMap _
    rw [List.flatMap_def, List.flatMap_def, List.map_congr_left hfield]
  · rfl
  · rfl
  · rfl

/-- The image depends on the addresses of the symbols that are referred to, and no others. -/
theorem imageOf_congr {addressOf addressOf' : List Char → Nat} {clauses : List (Nat × Clause)}
    (h : ∀ entry ∈ clauses, ∀ field ∈ entry.2.openFields,
      addressOf field.word.chars = addressOf' field.word.chars) :
    imageOf addressOf clauses = imageOf addressOf' clauses := by
  unfold imageOf
  rw [List.flatMap_def, List.flatMap_def]
  exact congrArg List.flatten (List.map_congr_left fun entry hmem =>
    Clause.bytes_congr (h entry hmem))

namespace Assembler

/-! ## What clauses settle as -/

section

variable {capacities : Capacities} {clauses front back : List (Nat × Clause)}
  {entry : Nat × Clause}

/-- A program fits exactly if all clauses start at 16-bit addresses and the buffer has room for the
image. -/
theorem fits_ofClauses_iff_startsFrom {size : Nat} :
    (ofClauses capacities clauses).Fits size ↔
      StartsFrom 0 clauses ∧ (imageOf (fun _ => 0) clauses).length ≤ size := by
  rw [fits_ofClauses_iff, startsFrom_iff]
  constructor
  · intro h
    refine ⟨fun front entry back hsplit => ?_, ?_⟩
    · rw [Nat.zero_add]
      exact (h front entry back hsplit).1
    · -- There is room for all clauses where there is room for the last one.
      rcases List.eq_nil_or_concat clauses with rfl | ⟨front, last, hlast⟩
      · exact Nat.zero_le _
      · rw [List.concat_eq_append] at hlast
        have hstop := (h front last [] hlast).2
        rw [hlast, imageOf_append, List.length_append, length_imageOf_cons]
        exact hstop
  · rintro ⟨hstarts, hsize⟩ front entry back hsplit
    have hstart := hstarts front entry back hsplit
    rw [hsplit, imageOf_append, List.length_append, length_imageOf_cons] at hsize
    exact ⟨by omega, by omega⟩

/-- A symbol has the address at which its clause starts. -/
theorem addressOf_settled (hadmits : (empty capacities).AdmitsAll clauses)
    (hstarts : StartsFrom 0 clauses) (hsplit : clauses = front ++ entry :: back)
    (hdefines : entry.2.defines = true) :
    (ofClauses capacities clauses).settled.symbols.addressOf entry.2.name.chars =
      (imageOf (fun _ => 0) front).length := by
  have hstart := startsFrom_iff.mp hstarts front entry back hsplit
  have haddress : (ofClauses capacities clauses).settled.symbols.address? entry.2.name.chars = _ :=
    address?_settled hadmits hsplit hdefines
  rw [Nat.zero_add] at hstart
  rw [SymbolTable.addressOf_of_address? haddress,
    UInt16.toNat_ofNat_of_lt' (Nat.lt_succ_of_le hstart)]

/-- The names of the symbols are the definitions in their order. -/
theorem names_settled_ofClauses (capacities : Capacities) (clauses : List (Nat × Clause)) :
    (ofClauses capacities clauses).settled.names = symbolsOf clauses :=
  (names_settled _).trans (names_ofClauses capacities clauses)

/-- The symbols that are settled are those of the clauses, where the clauses start. -/
theorem labels_ofClauses (hadmits : (empty capacities).AdmitsAll clauses)
    (hstarts : StartsFrom 0 clauses) :
    (ofClauses capacities clauses).settled.labels = labelsOf 0 clauses := by
  have hnames : (ofClauses capacities clauses).settled.symbols.entries.map Symbol.name =
      symbolsOf clauses :=
    names_settled_ofClauses capacities clauses
  have hlabels : (ofClauses capacities clauses).settled.labels =
      (symbolsOf clauses).map fun name =>
        (name, (ofClauses capacities clauses).settled.symbols.addressOf name.chars) := by
    have hnodup : ((ofClauses capacities clauses).settled.symbols.entries.map
        Symbol.name).Nodup := by
      rw [hnames, ← names_ofClauses capacities]
      exact (admitsAll_empty_iff.mp hadmits).1
    unfold labels
    rw [SymbolTable.entries_eq_map hnodup, hnames, List.map_map]
    refine List.map_congr_left fun name _ => ?_
    rw [Function.comp_apply, SymbolTable.addressOf]
    cases (ofClauses capacities clauses).settled.symbols.address? name.chars <;> rfl
  -- The labels of the clauses that are left, whatever stands before them.
  have hsuffix (back front : List (Nat × Clause)) (hsplit : clauses = front ++ back) :
      labelsOf (imageOf (fun _ => 0) front).length back = (symbolsOf back).map fun name =>
        (name, (ofClauses capacities clauses).settled.symbols.addressOf name.chars) := by
    induction back generalizing front with
    | nil => rfl
    | cons entry rest ih =>
      have hrest := ih (front ++ [entry]) (by rw [hsplit, List.append_assoc]; rfl)
      rw [imageOf_append, List.length_append, length_imageOf_cons] at hrest
      unfold symbolsOf at hrest ⊢
      rw [labelsOf, List.filter_cons]
      split
      · rename_i hdefines
        rw [List.map_cons, List.map_cons, addressOf_settled hadmits hstarts hsplit hdefines]
        exact congrArg _ hrest
      · exact hrest
  rw [hlabels]
  exact (hsuffix clauses [] rfl).symm

/-- All symbols are defined that clauses refer to. -/
def Closed (clauses : List (Nat × Clause)) : Prop :=
  ∀ entry ∈ clauses, ∀ field ∈ entry.2.openFields, field.word ∈ symbolsOf clauses

/-- All symbols are defined that clauses refer to exactly if every statement finds an address. -/
theorem closed_iff_resolves :
    Closed clauses ↔ ∀ statement ∈ (ofClauses capacities clauses).statements.toList,
      statement.Resolves (ofClauses capacities clauses).settled.symbols := by
  have hlisted (name : Name) : name ∈ symbolsOf clauses ↔
      ((ofClauses capacities clauses).settled.symbols.address? name.chars).isSome := by
    rw [isSome_address?_settled_iff, ← names_ofClauses capacities clauses]
    rfl
  rw [resolves_ofClauses_iff]
  exact forall₄_congr fun _ _ field _ => hlisted field.word

/-- The statement that is settled for the clause at a place of the list. -/
theorem getElem?_settled_of_lt (capacities : Capacities) {i : Nat} (hi : i < clauses.length) :
    (ofClauses capacities clauses).settled.statements[i]? =
      some { clauses[i].2.statement clauses[i].1 (constantsOf (clauses.take i)).length with
        address := UInt16.ofNat (imageOf (fun _ => 0) (clauses.take i)).length } := by
  have hsplit : clauses = clauses.take i ++ clauses[i] :: clauses.drop (i + 1) := by
    rw [List.getElem_cons_drop, List.take_append_drop]
  have hsettled : (ofClauses capacities clauses).settled.statements[_]? = _ :=
    getElem?_settled hsplit
  rwa [List.length_take, Nat.min_eq_left (Nat.le_of_lt hi)] at hsettled

/-- Every statement comes from a clause, and is located behind the clauses before it. -/
theorem exists_split_of_mem_settled {statement : Statement}
    (h : statement ∈ (ofClauses capacities clauses).settled.statements.toList) :
    ∃ front entry back, clauses = front ++ entry :: back ∧
      statement = { entry.2.statement entry.1 (constantsOf front).length with
        address := UInt16.ofNat (imageOf (fun _ => 0) front).length } := by
  obtain ⟨i, hi, hstatement⟩ := List.mem_iff_getElem.mp h
  have hcount : i < clauses.length := by
    rwa [settled, Layout.length_located, statements_ofClauses, length_statementsOf] at hi
  have hsplit : clauses = clauses.take i ++ clauses[i] :: clauses.drop (i + 1) := by
    rw [List.getElem_cons_drop, List.take_append_drop]
  have hsettled := getElem?_settled_of_lt capacities hcount
  rw [← Array.getElem?_toList, List.getElem?_eq_getElem hi, hstatement] at hsettled
  exact ⟨_, _, _, hsplit, Option.some.inj hsettled⟩

/-- The field of a statement lies in the image and holds the address of a symbol that a clause
refers to. -/
theorem field_settled (hstarts : StartsFrom 0 clauses) {statement : Statement}
    (h : statement ∈ (ofClauses capacities clauses).settled.statements.toList) {field : Reference}
    (hfield : statement.fieldInImage? = some field) :
    (∃ entry ∈ clauses, ∃ source ∈ entry.2.openFields, source.word = field.symbol) ∧
      ∀ addressOf, field.offset + field.width.bytes ≤ (imageOf addressOf clauses).length ∧
        (addressOf field.symbol.chars ≤ 0xFFFF →
          field.value (imageOf addressOf clauses) = addressOf field.symbol.chars) := by
  obtain ⟨front, entry, back, hsplit, rfl⟩ := exists_split_of_mem_settled h
  have hcursor := startsFrom_iff.mp hstarts front entry back hsplit
  rw [Nat.zero_add] at hcursor
  rcases entry.2.reference?_statement entry.1 (constantsOf front).length with
    ⟨hnone, -⟩ | ⟨reference, opcode, operands, hreference, hholds⟩
  · rw [fieldInImage?_of_reference? hnone] at hfield
    cases hfield
  · rw [fieldInImage?_of_reference? hreference, Option.map_some,
      UInt16.toNat_ofNat_of_lt' (Nat.lt_succ_of_le hcursor)] at hfield
    cases hfield
    refine ⟨⟨entry, hsplit ▸ List.mem_append_cons_self, hholds.listed⟩, fun addressOf => ?_⟩
    have himage : imageOf addressOf clauses =
        imageOf addressOf front ++ entry.2.bytes addressOf ++ imageOf addressOf back := by
      rw [hsplit, imageOf_append, imageOf_cons, List.append_assoc]
    -- The field stands where the bytes in front end, and these have a length of their own whatever
    -- the addresses are.
    have hlength := length_imageOf addressOf (fun _ => 0) front
    rw [himage, ← hlength]
    refine ⟨?_, fun haddress => (hholds.value_fill haddress _ _ 0).1⟩
    rw [hholds.bytes, List.length_append, List.length_append, List.length_cons,
      Reference.length_fill hholds.inside]
    have hinside := hholds.inside
    dsimp only
    omega

/-- The fields that are raised in an image are those that hold addresses. -/
theorem relocate_settled (hstarts : StartsFrom 0 clauses) (amount : Nat) (symbols : SymbolTable) :
    (ofClauses capacities clauses).settled.relocate amount (imageOf symbols.addressOf clauses) =
      imageOf (fun name => symbols.addressOf name + amount) clauses := by
  have hpool : (ofClauses capacities clauses).pool.toList = [] ++ constantsOf clauses ++ [] := by
    rw [pool_ofClauses, List.nil_append, List.append_nil]
  have himage := relocate_located amount [] [] hpool hstarts
    fun _ _ field _ => symbols.addressOf_le field.word.chars
  simp only [List.nil_append, List.append_nil] at himage
  unfold relocate settled
  dsimp only
  rw [statements_ofClauses]
  exact himage

end

end Assembler

end RegisterMachine.Assembly
