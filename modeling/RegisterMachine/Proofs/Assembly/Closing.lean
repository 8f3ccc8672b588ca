import RegisterMachine.Proofs.Assembly.Composition
import RegisterMachine.Proofs.Assembly.OperandSlots

/-!
# Closed fields

A field that is left open for a symbol is closed when a literal stands in place of the symbol
(`Field.Closes`). The clause then refers to nothing, and in all that other clauses see of it, it is
as it was (`Clause.Alike`): it defines no other symbol and takes as many bytes. With the address of
the symbol for the literal, its bytes are those that it would have been linked to
(`Clause.Closes.bytes_eq`).

So clauses still assemble when some of them are closed by the addresses of their symbols
(`Assembles.restated`). The program is the same (`program_restated`), the symbols are the same
(`symbols_restated`), and a statement is either kept or has its field filled
(`getElem?_restated`).
-/

namespace RegisterMachine.Assembly

/-- A word has the mark of a symbol. -/
def IsMarked (word : List Char) : Prop :=
  word.head? = some '.' ∨ word.head? = some '$'

/-! ## Fields -/

/-- An open field and one of bytes in its place, from a literal for a number. -/
structure Field.Closes (n : Nat) (field field' : Field) : Prop where
  kind : field'.kind = field.kind
  literal : Text.Literal field'.word.chars n
  bytes : ∃ width, field.opens? = some width ∧ field'.operand = .bytes (width.encodeNat n)

section

variable {n : Nat} {field field' : Field} {addressOf addressOf' : List Char → Nat}

/-- A field that has been closed refers to no symbol. -/
theorem Field.Closes.opens?_eq_none (h : field.Closes n field') : field'.opens? = none := by
  obtain ⟨width, -, hoperand⟩ := h.bytes
  unfold opens?
  rw [hoperand]

/-- The bytes of the literal are those of the open field once its symbol has that address. -/
theorem Field.Closes.bytes_eq (h : field.Closes n field') (hn : addressOf field.word.chars = n) :
    field'.bytes addressOf' = field.bytes addressOf := by
  obtain ⟨width, hopen, hoperand⟩ := h.bytes
  have hbytes : field'.bytes addressOf' = width.encodeNat n := by
    unfold Field.bytes
    rw [hoperand]
  rw [hbytes, Field.bytes_of_opens? hopen, hn]

/-- A literal for a 16-bit number closes an open field. -/
theorem Field.exists_closes {width : Width} {numeral : Name} (hopen : field.opens? = some width)
    (hliteral : Text.Literal numeral.chars n) (hn : n ≤ 0xFFFF) :
    ∃ field', field'.word = numeral ∧ field.Closes n field' := by
  -- An address is in the range of every width that a symbol may have.
  have hlt : n < width.modulus := Width.lt_modulus_of_opens? hopen hn
  obtain ⟨-, -, hmodulus⟩ := width.range_eq
  have hhigh : (n : Int) < 2 ^ width.bits := by
    rw [← hmodulus]
    exact Int.ofNat_lt.mpr hlt
  have hlow : -2 ^ (width.bits - 1) ≤ (n : Int) := by
    have hpower : (0 : Int) < 2 ^ (width.bits - 1) := Int.pow_pos (by decide)
    omega
  have hvalue : Text.integer? numeral.chars = some (n : Int) := by
    have hmagnitude : (n : Int).natAbs ≤ Text.maxMagnitude := by
      rw [Int.natAbs_natCast]
      exact Nat.le_trans hn (by decide)
    exact Text.integer?_eq_some_iff.mpr ⟨hliteral, hmagnitude⟩
  have hwidth : literalWidth? field.kind = some width := by
    rcases Field.opens?_eq_some hopen with ⟨hkind, rfl⟩ | ⟨hkind, rfl⟩ <;> rw [hkind] <;> rfl
  have hreads := ofName_of_reads (.literal hwidth hvalue hlow (Int.le_sub_one_of_lt hhigh))
  -- It is not negative, so it is its own residue.
  have hsame : ((n : Int) % 2 ^ width.bits).toNat = n := by
    rw [Int.emod_eq_of_lt (Int.natCast_nonneg n) hhigh, Int.toNat_natCast]
  rw [hsame] at hreads
  exact ⟨⟨field.kind, numeral, _, hreads⟩, rfl, rfl, hliteral, width, hopen, rfl⟩

/-- A field whose word has the mark of a symbol is open. -/
theorem Field.exists_opens?_of_isMarked (h : IsMarked field.word.chars) :
    ∃ width, field.opens? = some width := by
  rcases hopen : field.opens? with _ | width
  · obtain ⟨hdot, hdollar⟩ := Text.head?_ne_of_isLiteralChar (Field.isLiteralChar_of_closed hopen)
    exact (h.elim hdot hdollar).elim
  · exact ⟨width, rfl⟩

end

/-! ## Clauses -/

/-- An operation and what it is with its open field, the last one, closed by a number. -/
inductive Clause.Closes (symbol : List Char) (n : Nat) : Clause → Clause → Prop where
  | operation {name : Name} {opcode : Opcode} {fields fields' : Fields opcode} {front : List Field}
      {field field' : Field} (hlist : fields.list = front ++ [field])
      (hlist' : fields'.list = front ++ [field']) (hsymbol : field.word.chars = symbol)
      (hcloses : field.Closes n field') :
      Closes symbol n ⟨name, .operation opcode fields⟩ ⟨name, .operation opcode fields'⟩

/-- Two clauses are the same in what other clauses see of them. -/
structure Clause.Alike (clause clause' : Clause) : Prop where
  name : clause'.name = clause.name
  defines : clause'.defines = clause.defines
  constants : clause'.constants = clause.constants
  reserved : clause'.reserved = clause.reserved
  length : (clause'.bytes fun _ => 0).length = (clause.bytes fun _ => 0).length

/-- An instruction with an open field, and the same instruction with a literal for the address of
the symbol in its place: the address stands in the operands, and no field is open. -/
inductive Statement.Fills (symbols : SymbolTable) : Statement → Statement → Prop where
  | operation {line : Nat} {name numeral : Name} {opcode : Opcode} {front : List Name}
      {operands : List UInt8} {reference : Reference} {target address : UInt16}
      (htarget : symbols.address? reference.symbol.chars = some target)
      (hnumeral : Text.Literal numeral.chars target.toNat) :
      Fills symbols
        ⟨line, name, .operation opcode (front ++ [reference.symbol]) operands (some reference),
          address⟩
        ⟨line, name, .operation opcode (front ++ [numeral])
          (reference.fill target.toNat operands) none, address⟩

namespace Clause

variable {clause clause' : Clause} {symbol : List Char} {n : Nat}

/-- A clause is the same as itself in what others see of it. -/
theorem Alike.refl (clause : Clause) : clause.Alike clause :=
  ⟨rfl, rfl, rfl, rfl, rfl⟩

/-- A closed clause takes as many bytes as it did, since its opcode says how many they are. -/
theorem Closes.alike (h : clause.Closes symbol n clause') : clause.Alike clause' := by
  obtain ⟨hlist, hlist', -, -⟩ := h
  refine ⟨rfl, rfl, rfl, rfl, ?_⟩
  unfold bytes
  rw [List.length_cons, List.length_cons, Fields.length_bytes, Fields.length_bytes]

/-- The fields of a closed clause are all closed. -/
theorem closed_of_closes {opcode : Opcode} {fields fields' : Fields opcode} {front : List Field}
    {field field' : Field} (hlist : fields.list = front ++ [field])
    (hlist' : fields'.list = front ++ [field']) (hcloses : field.Closes n field') :
    ∀ other ∈ fields'.list, other.opens? = none := by
  obtain ⟨width, hopen, -⟩ := hcloses.bytes
  obtain ⟨-, hfront⟩ := Fields.last_of_open hlist hopen
  rw [hlist']
  exact List.forall_mem_append.mpr ⟨hfront, List.forall_mem_singleton.mpr hcloses.opens?_eq_none⟩

/-- An operation that has been closed refers to no symbol. -/
theorem Closes.openFields_eq_nil (h : clause.Closes symbol n clause') : clause'.openFields = [] := by
  obtain ⟨hlist, hlist', -, hcloses⟩ := h
  exact Fields.opened_of_closed (closed_of_closes hlist hlist' hcloses)

/-- A closed clause has the bytes that the open one is linked to. -/
theorem Closes.bytes_eq (h : clause.Closes symbol n clause') {addressOf : List Char → Nat}
    (hn : addressOf symbol = n) (addressOf' : List Char → Nat) :
    clause'.bytes addressOf' = clause.bytes addressOf := by
  obtain ⟨hlist, hlist', rfl, hcloses⟩ := h
  obtain ⟨width, hopen, -⟩ := hcloses.bytes
  obtain ⟨-, hfront⟩ := Fields.last_of_open hlist hopen
  unfold bytes Fields.bytes
  dsimp only
  rw [hlist, hlist', List.flatMap_append, List.flatMap_append,
    Fields.bytes_of_closed hfront addressOf, Fields.bytes_of_closed hfront addressOf',
    List.flatMap_singleton, List.flatMap_singleton, hcloses.bytes_eq hn]

/-- The statement of a closed clause is that of the open one with its field filled. -/
theorem Closes.fills {symbols : SymbolTable} {target : UInt16}
    (h : clause.Closes symbol target.toNat clause')
    (htarget : symbols.address? symbol = some target) (number start : Nat) (address : UInt16) :
    Statement.Fills symbols { clause.statement number start with address }
      { clause'.statement number start with address } := by
  have hbytes : clause'.bytes (fun _ => 0) = clause.bytes fun _ => target.toNat := h.bytes_eq rfl _
  obtain ⟨hlist, hlist', rfl, hcloses⟩ := h
  rename_i name opcode fields fields' front field field'
  obtain ⟨width, hopen, -⟩ := hcloses.bytes
  obtain ⟨-, hfront⟩ := Fields.last_of_open hlist hopen
  obtain ⟨reference, hreference, hsymbol, -, -, hfill⟩ :=
    Fields.kept_of_open hlist hopen hfront fun _ hmem => nomatch hmem
  obtain ⟨hnone, -⟩ := Fields.kept_of_closed (closed_of_closes hlist hlist' hcloses)
  -- The words of the operands differ in the last one alone, the symbol or the numeral.
  have hargs : fields.kept.args = front.map Field.word ++ [reference.symbol] := by
    have hwords : fields.kept.args = fields.list.map Field.word := Operands.args_pushAll ..
    rw [hwords, hlist, List.map_append, hsymbol]
    rfl
  have hargs' : fields'.kept.args = front.map Field.word ++ [field'.word] := by
    have hwords : fields'.kept.args = fields'.list.map Field.word := Operands.args_pushAll ..
    rw [hwords, hlist', List.map_append]
    rfl
  have hoperands : fields'.kept.bytes = reference.fill target.toNat fields.kept.bytes :=
    calc fields'.kept.bytes = fields'.bytes fun _ => 0 := fields'.bytes_kept
      _ = fields.bytes fun _ => target.toNat := List.tail_eq_of_cons_eq hbytes
      _ = reference.fill target.toNat fields.kept.bytes := hfill _
  unfold statement body
  dsimp only
  rw [hargs, hargs', hoperands, hreference, hnone]
  exact .operation (hsymbol ▸ htarget) hcloses.literal

end Clause

/-! ## Clauses one after the other -/

/-- A clause is closed by the address of its symbol if its line is one that is changed, and else it
is kept. -/
inductive Restates (symbols : SymbolTable) (changed : Nat → Prop) :
    Nat × Clause → Nat × Clause → Prop where
  | kept {number : Nat} {clause : Clause} (hsame : ¬ changed number) :
      Restates symbols changed (number, clause) (number, clause)
  | closed {number : Nat} {clause clause' : Clause} {symbol : List Char} {target : UInt16}
      (hchanged : changed number) (htarget : symbols.address? symbol = some target)
      (hcloses : clause.Closes symbol target.toNat clause') :
      Restates symbols changed (number, clause) (number, clause')

section

variable {symbols : SymbolTable} {changed : Nat → Prop} {entry entry' : Nat × Clause}
  {clauses clauses' : List (Nat × Clause)}

/-- Closed or kept, a clause is the same in what others see of it. -/
theorem Restates.alike (h : Restates symbols changed entry entry') : entry.2.Alike entry'.2 := by
  cases h with
  | kept => exact .refl _
  | closed _ _ hcloses => exact hcloses.alike

/-- A clause that is closed by the address of its symbol has the bytes that it is linked to. -/
theorem Restates.bytes_eq (h : Restates symbols changed entry entry') :
    entry'.2.bytes symbols.addressOf = entry.2.bytes symbols.addressOf := by
  cases h with
  | kept => rfl
  | closed _ htarget hcloses =>
    exact hcloses.bytes_eq (SymbolTable.addressOf_of_address? htarget) _

/-- What is the same for alike clauses is the same along two lists of them. -/
theorem map_eq_of_alike {β : Type} {f : Clause → β}
    (hf : ∀ clause clause' : Clause, clause.Alike clause' → f clause' = f clause)
    (h : List.Forall₂ (Restates symbols changed) clauses clauses') :
    (clauses'.map fun entry => f entry.2) = clauses.map fun entry => f entry.2 := by
  induction h with
  | nil => rfl
  | cons hfirst _ ih => rw [List.map_cons, List.map_cons, hf _ _ hfirst.alike, ih]

section

variable (h : List.Forall₂ (Restates symbols changed) clauses clauses')

include h

/-- Closing changes no constants. -/
theorem constantsOf_restated : constantsOf clauses' = constantsOf clauses := by
  unfold constantsOf
  rw [List.flatMap_def, List.flatMap_def]
  exact congrArg List.flatten (map_eq_of_alike (fun _ _ halike => halike.constants) h)

/-- Closing keeps the length of the image. -/
theorem length_imageOf_restated :
    (imageOf (fun _ => 0) clauses').length = (imageOf (fun _ => 0) clauses).length := by
  unfold imageOf
  rw [List.length_flatMap, List.length_flatMap]
  exact congrArg List.sum (map_eq_of_alike (fun _ _ halike => halike.length) h)

/-- Closing changes no definitions. -/
theorem symbolsOf_restated : symbolsOf clauses' = symbolsOf clauses := by
  induction h with
  | nil => rfl
  | cons hfirst _ ih =>
    obtain ⟨hname, hdefines, -, -, -⟩ := hfirst.alike
    unfold symbolsOf at ih ⊢
    rw [List.filter_cons, List.filter_cons, hdefines]
    split
    · rw [List.map_cons, List.map_cons, hname, ih]
    · exact ih

/-- Clauses stay where they are, and so do their symbols. -/
theorem labelsOf_restated (start : Nat) : labelsOf start clauses' = labelsOf start clauses := by
  induction h generalizing start with
  | nil => rfl
  | cons hfirst _ ih =>
    obtain ⟨hname, hdefines, -, -, hlength⟩ := hfirst.alike
    rw [labelsOf, labelsOf, hdefines, hname, hlength, ih]

/-- Closing moves no clause. -/
theorem startsFrom_restated (start : Nat) : StartsFrom start clauses' ↔ StartsFrom start clauses := by
  induction h generalizing start with
  | nil => exact Iff.rfl
  | cons hfirst _ ih => rw [StartsFrom, StartsFrom, hfirst.alike.length, ih]

/-- The image is the same, if the symbols have the addresses that clauses are closed by. -/
theorem imageOf_restated :
    imageOf symbols.addressOf clauses' = imageOf symbols.addressOf clauses := by
  induction h with
  | nil => rfl
  | cons hfirst _ ih => rw [imageOf_cons, imageOf_cons, hfirst.bytes_eq, ih]

/-- Closed clauses refer to no symbols, and the others to the same as before. -/
theorem exists_open_of_restated {field : Field} (hentry : entry' ∈ clauses')
    (hfield : field ∈ entry'.2.openFields) : ∃ entry ∈ clauses, field ∈ entry.2.openFields := by
  induction h with
  | nil => cases hentry
  | cons hfirst _ ih =>
    rcases List.mem_cons.mp hentry with rfl | hentry
    · cases hfirst with
      | kept => exact ⟨_, List.mem_cons_self, hfield⟩
      | closed _ _ hcloses =>
        rw [hcloses.openFields_eq_nil] at hfield
        cases hfield
    · obtain ⟨entry, hmem, hopen⟩ := ih hentry
      exact ⟨entry, List.mem_cons_of_mem _ hmem, hopen⟩

end

end

namespace Assembler

section

variable {capacities : Capacities} {size : Nat} {symbols : SymbolTable} {changed : Nat → Prop}
  {clauses clauses' : List (Nat × Clause)} {buffer : Array UInt8}

/-- Clauses that assemble still do when some of them are closed. -/
theorem Assembles.restated (hassembles : Assembles capacities size clauses)
    (h : List.Forall₂ (Restates symbols changed) clauses clauses') :
    Assembles capacities size clauses' := by
  refine ⟨?_, (startsFrom_restated h 0).mpr hassembles.starts, ?_, fun entry hentry field hfield => ?_⟩
  · have hadmits := hassembles.admits
    rw [admitsAll_empty_iff, withinCapacities_ofClauses_iff] at hadmits ⊢
    unfold names at hadmits ⊢
    rw [names_ofClauses] at hadmits ⊢
    rwa [symbolsOf_restated h, constantsOf_restated h, ← h.length_eq]
  · rw [length_imageOf_restated h]
    exact hassembles.room
  · obtain ⟨source, hsource, hopen⟩ := exists_open_of_restated h hentry hfield
    rw [symbolsOf_restated h]
    exact hassembles.closed source hsource field hopen

/-- Symbols are told apart by their names and addresses. -/
theorem symbols_eq_of_labels {assembler assembler' : Assembler}
    (h : assembler'.labels = assembler.labels) : assembler'.symbols = assembler.symbols := by
  have hinjective : Function.Injective
      fun symbol : Symbol => (symbol.name, symbol.address.toNat) := by
    rintro ⟨name, address⟩ ⟨name', address'⟩ hsame
    obtain ⟨rfl, haddress⟩ := Prod.mk.inj hsame
    obtain rfl := UInt16.toNat_inj.mp haddress
    rfl
  have hentries := hinjective.list_map h
  obtain ⟨capacities, statements, ⟨entries⟩, pool⟩ := assembler
  obtain ⟨capacities', statements', ⟨entries'⟩, pool'⟩ := assembler'
  exact congrArg SymbolTable.mk hentries

/-- Closing changes no address of a symbol. -/
theorem symbols_restated (hassembles : Assembles capacities size clauses)
    (h : List.Forall₂ (Restates symbols changed) clauses clauses') :
    (ofClauses capacities clauses').settled.symbols =
      (ofClauses capacities clauses).settled.symbols := by
  have hassembles' := hassembles.restated h
  apply symbols_eq_of_labels
  rw [labels_ofClauses hassembles.admits hassembles.starts,
    labels_ofClauses hassembles'.admits hassembles'.starts, labelsOf_restated h]

/-- Only statements differ in what is parsed and settled. -/
theorem settled_restated (hassembles : Assembles capacities size clauses)
    (h : List.Forall₂ (Restates symbols changed) clauses clauses') :
    (ofClauses capacities clauses').settled =
      { (ofClauses capacities clauses).settled with
        statements := (ofClauses capacities clauses').settled.statements } := by
  have hcapacities : (ofClauses capacities clauses').settled.capacities =
      (ofClauses capacities clauses).settled.capacities := by
    have hboth (clauses : List (Nat × Clause)) :
        (ofClauses capacities clauses).settled.capacities = capacities := capacities_extendAll
    rw [hboth, hboth]
  have hpool : (ofClauses capacities clauses').settled.pool =
      (ofClauses capacities clauses).settled.pool := by
    have hboth (clauses : List (Nat × Clause)) :
        (ofClauses capacities clauses).settled.pool.toList = constantsOf clauses :=
      pool_ofClauses capacities clauses
    rw [← Array.toList_inj, hboth, hboth, constantsOf_restated h]
  have hsymbols := symbols_restated hassembles h
  -- The statements are all that may differ.
  rcases hsettled : (ofClauses capacities clauses').settled with ⟨_, _, _, _⟩
  rw [hsettled] at hcapacities hpool hsymbols
  cases hcapacities
  cases hpool
  cases hsymbols
  rfl

/-- The program is the same if clauses are closed by the addresses that symbols have in it. -/
theorem program_restated (hassembles : Assembles capacities size clauses)
    (h : List.Forall₂ (Restates (ofClauses capacities clauses).settled.symbols changed)
      clauses clauses') :
    (ofClauses capacities clauses').program buffer =
      (ofClauses capacities clauses).program buffer := by
  have himage : (ofClauses capacities clauses').image = (ofClauses capacities clauses).image := by
    rw [image_ofClauses, image_ofClauses, symbols_restated hassembles h, imageOf_restated h]
  have hram := map_eq_of_alike (fun _ _ halike => halike.reserved) h
  have hconstants := map_eq_of_alike (f := fun clause => clause.constants.length)
    (fun _ _ halike => congrArg List.length halike.constants) h
  unfold program
  rw [himage, ramSize_ofClauses, ramSize_ofClauses, constantsSize_ofClauses,
    constantsSize_ofClauses, hram, hconstants]

/-- A statement is kept, or it is filled if its line is changed. -/
theorem getElem?_restated
    (h : List.Forall₂ (Restates symbols changed) clauses clauses') {i : Nat} {statement : Statement}
    (hstatement : (ofClauses capacities clauses).settled.statements[i]? = some statement) :
    (¬ changed statement.line →
      (ofClauses capacities clauses').settled.statements[i]? = some statement) ∧
    (changed statement.line →
      ∃ statement', (ofClauses capacities clauses').settled.statements[i]? = some statement' ∧
        statement.Fills symbols statement') := by
  have hi : i < clauses.length := by
    rw [← size_statements_settled capacities clauses]
    exact (Array.getElem?_eq_some_iff.mp hstatement).1
  have hi' : i < clauses'.length := h.length_eq ▸ hi
  have hentry : Restates symbols changed clauses[i] clauses'[i] := h.get hi hi'
  -- What stands before takes as many bytes and constants as before.
  have hbefore := List.forall₂_take i h
  have hsettled := getElem?_settled_of_lt capacities hi
  have hsettled' := getElem?_settled_of_lt capacities hi'
  rw [constantsOf_restated hbefore, length_imageOf_restated hbefore] at hsettled'
  rw [hsettled, Option.some.injEq] at hstatement
  subst hstatement
  generalize clauses[i] = entry at hentry hsettled'
  generalize clauses'[i] = entry' at hentry hsettled'
  rw [hsettled']
  cases hentry with
  | kept hsame => exact ⟨fun _ => rfl, fun hchanged => absurd hchanged hsame⟩
  | closed hchanged htarget hcloses =>
    exact ⟨fun hsame => absurd hchanged hsame,
      fun _ => ⟨_, rfl, hcloses.fills htarget _ _ _⟩⟩

end

end Assembler

end RegisterMachine.Assembly
