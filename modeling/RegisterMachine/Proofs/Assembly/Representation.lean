import RegisterMachine.Proofs.Assembly.Refusals
import RegisterMachine.Proofs.Assembly.Residue

/-!
# What an assembler represents

The stores of an assembler change at different moments of a line, and a line may be refused between
them. They agree all the same in every assembler that a sequence of operations leads to, failed ones
among them (`Reachable`): the symbols are those that statements define, the constants of the
statements follow one another in the pool, and the field that an instruction leaves open is one of
its operands (`Consistent`). A refused line may leave one symbol too many, and bytes of constants
that no statement has.

The proof finds the clauses that an assembler has parsed (`Parsed`). Parsing gives them, and a build
changes nothing of them but addresses. So a build never misses what it looks for: it is refused for
lack of room in its first pass, and for a symbol that is not defined in its second
(`reachable_consistent`).
-/

namespace RegisterMachine.Assembly

/-! ## Instructions -/

/-- A field for a symbol is the operand of a jump or of a load of a constant, and all of its bytes
are there and still zero. -/
structure Reference.OpensIn (reference : Reference) (opcode : Opcode) (operands : List UInt8) :
    Prop where
  operand : ∃ front kind back, opcode.operands = front ++ kind :: back ∧
    reference.offset = (front.map OperandKind.width).sum ∧
    (kind = .target ∧ reference.width = .half ∨ kind = .immediate32 ∧ reference.width = .word)
  inside : reference.offset + reference.width.bytes ≤ operands.length
  zero : (operands.drop reference.offset).take reference.width.bytes =
    List.replicate reference.width.bytes 0

/-- An instruction has the operands of its opcode. -/
def Body.WellFormed : Body → Prop
  | .operation opcode args operands reference? =>
    args.length = opcode.operands.length ∧ operands.length = opcode.operandBytes ∧
      ∀ reference, reference? = some reference → reference.OpensIn opcode operands
  | .label | .constants _ _ _ | .reservation _ _ => True

/-- A field that holds nothing yet is zero. -/
theorem Width.encodeNat_zero (width : Width) :
    width.encodeNat 0 = List.replicate width.bytes 0 := by
  have hzero (n : Nat) : LittleEndian.toBytes n 0 = List.replicate n 0 := by
    induction n with
    | zero => rfl
    | succ n ih =>
      rw [LittleEndian.toBytes, Nat.zero_div, ih]
      rfl
  exact hzero width.bytes

/-- Fields take the bytes that their kinds say. -/
theorem Field.length_flatMap_bytes (fields : List Field) (addressOf : List Char → Nat) :
    (fields.flatMap (Field.bytes addressOf)).length =
      ((fields.map Field.kind).map OperandKind.width).sum := by
  rw [List.length_flatMap, List.map_map]
  congr 1
  exact List.map_congr_left fun field _ => Field.length_bytes addressOf field

/-- What is kept of an open field is where its operand stands. -/
theorem Fields.opensIn {opcode : Opcode} {fields : Fields opcode} {front back : List Field}
    {field : Field} {width : Width} (hlist : fields.list = front ++ field :: back)
    (hfield : field.opens? = some width) :
    Reference.OpensIn ⟨field.word, (front.flatMap (Field.bytes fun _ => 0)).length, width⟩ opcode
      fields.kept.bytes := by
  have hkept := Fields.bytes_kept_of_open hlist hfield
  refine ⟨⟨front.map Field.kind, field.kind, back.map Field.kind, ?_,
    Field.length_flatMap_bytes front _, Field.opens?_eq_some hfield⟩, ?_, ?_⟩
  · rw [← fields.complete, hlist, List.map_append, List.map_cons]
  · rw [hkept, List.length_append, List.length_append, Width.length_encodeNat]
    dsimp only
    omega
  · rw [hkept, List.drop_left, ← Width.length_encodeNat width 0, List.take_left,
      Width.encodeNat_zero, List.length_replicate]

/-- What the assembler stores for a clause has the operands of its opcode. -/
theorem Clause.wellFormed_body (start : Nat) (clause : Clause) : (clause.body start).WellFormed := by
  obtain ⟨name, ⟨opcode, fields⟩ | _ | _ | _⟩ := clause
  · refine ⟨?_, ?_, ?_⟩
    · unfold Fields.kept
      rw [Operands.args_pushAll, ← fields.complete, List.length_map]
      change ([] ++ fields.list.map Field.word).length = _
      rw [List.nil_append, List.length_map]
    · rw [Fields.bytes_kept, Fields.length_bytes]
    · intro reference hreference
      rcases fields.split with hclosed | ⟨front, field, back, width, hlist, hfield, -, hback⟩
      · rw [(Fields.kept_of_closed hclosed).1] at hreference
        cases hreference
      · rw [Fields.reference?_kept_of_open hlist hfield hback] at hreference
        cases hreference
        exact Fields.opensIn hlist hfield
  · trivial
  · trivial
  · trivial

/-! ## Constants -/

/-- The constants of statements follow one another in the pool, from one place to another. -/
def SlicesFrom (start : Nat) : List Body → Nat → Prop
  | [], stop => start = stop
  | body :: rest, stop =>
    match body with
    | .constants _ first length => first = start ∧ SlicesFrom (start + length) rest stop
    | .operation _ _ _ _ | .label | .reservation _ _ => SlicesFrom start rest stop

/-- The constants of statements follow one another in the pool. -/
theorem slicesFrom_statementsOf (start : Nat) (clauses : List (Nat × Clause)) :
    SlicesFrom start ((statementsOf start clauses).map Statement.body)
      (start + (constantsOf clauses).length) := by
  induction clauses generalizing start with
  | nil => rfl
  | cons entry rest ih =>
    have hrest := ih (start + entry.2.constants.length)
    rw [statementsOf, List.map_cons, constantsOf_cons, List.length_append, ← Nat.add_assoc]
    obtain ⟨number, name, ⟨opcode, fields⟩ | _ | ⟨width, bytes⟩ | _⟩ := entry
    · exact hrest
    · exact hrest
    · exact ⟨rfl, hrest⟩
    · exact hrest

/-- Constants that follow one another end before the last of them does. -/
theorem SlicesFrom.le {start stop : Nat} {bodies : List Body} (h : SlicesFrom start bodies stop) :
    start ≤ stop ∧ ∀ width first length, .constants width first length ∈ bodies →
      first + length ≤ stop := by
  induction bodies generalizing start with
  | nil => exact ⟨Nat.le_of_eq h, fun _ _ _ hmem => nomatch hmem⟩
  | cons body rest ih =>
    cases body with
    | constants width first length =>
      obtain ⟨rfl, hrest⟩ := h
      obtain ⟨hle, hinside⟩ := ih hrest
      refine ⟨Nat.le_of_add_right_le hle, fun width' first' length' hmem => ?_⟩
      rcases List.mem_cons.mp hmem with heq | hmem
      · cases heq
        exact hle
      · exact hinside width' first' length' hmem
    | operation _ _ _ _ | label | reservation _ _ =>
      obtain ⟨hle, hinside⟩ := ih h
      refine ⟨hle, fun width' first' length' hmem => ?_⟩
      rcases List.mem_cons.mp hmem with heq | hmem
      · cases heq
      · exact hinside width' first' length' hmem

namespace Assembler

/-! ## The invariant -/

/-- The symbols of an assembler, in order. -/
def names (assembler : Assembler) : List Name :=
  assembler.symbols.entries.map Symbol.name

/-- The stores of an assembler agree. -/
structure Consistent (complete : Bool) (assembler : Assembler) : Prop where
  distinct : assembler.names.Nodup
  operations : ∀ statement ∈ assembler.statements.toList, statement.body.WellFormed
  lines : (assembler.statements.toList.map Statement.line).Pairwise (· < ·)
  /-- The symbols are those that statements define, and the pool their constants. When the last
  parsing has failed there may be one further symbol, and only then bytes after those of the
  statements. -/
  stores : ∃ (leftover? : Option Name) (used : Nat),
    assembler.names = Layout.defined assembler.statements.toList ++ leftover?.toList ∧
    SlicesFrom 0 (assembler.statements.toList.map Statement.body) used ∧
    used ≤ assembler.pool.size ∧ (leftover? = none → used = assembler.pool.size) ∧
    (complete = true → leftover? = none)

/-- An assembler whose stores agree is sound. -/
theorem Consistent.sound {complete : Bool} {assembler : Assembler}
    (h : assembler.Consistent complete) : assembler.Sound := by
  constructor
  · obtain ⟨-, used, -, hslices, hle, -⟩ := h.stores
    intro statement hmem
    have hbody := List.mem_map_of_mem (f := Statement.body) hmem
    obtain ⟨line, name, ⟨_⟩ | _ | ⟨width, first, length⟩ | _, address⟩ := statement
    · trivial
    · trivial
    · exact Nat.le_trans (hslices.le.2 width first length hbody) hle
    · trivial
  · intro statement hmem
    have hoperation := h.operations statement hmem
    obtain ⟨line, name, ⟨opcode, args, operands, _ | reference⟩ | _ | _ | _, address⟩ := statement
    · trivial
    · exact (hoperation.2.2 reference rfl).inside
    · trivial
    · trivial
    · trivial

/-- The symbol that a statement defines is in the table. -/
theorem Consistent.isSome_address? {complete : Bool} {assembler : Assembler}
    (h : assembler.Consistent complete) {statement : Statement}
    (hmem : statement ∈ assembler.statements.toList) (hdefines : statement.defines = true) :
    (assembler.address? statement.name.chars).isSome := by
  obtain ⟨leftover?, -, hnames, -⟩ := h.stores
  unfold address?
  rw [SymbolTable.address?_isSome_iff]
  change statement.name ∈ assembler.names
  rw [hnames]
  exact List.mem_append_left _
    (List.mem_map_of_mem (List.mem_filter.mpr ⟨hmem, hdefines⟩))

end Assembler

/-! ## What has been parsed -/

/-- The statements of clauses have their line numbers. -/
theorem map_line_statementsOf (start : Nat) (clauses : List (Nat × Clause)) :
    (statementsOf start clauses).map Statement.line = clauses.map Prod.fst := by
  induction clauses generalizing start with
  | nil => rfl
  | cons entry rest ih =>
    rw [statementsOf, List.map_cons, List.map_cons, ih]
    rfl

namespace Assembler

variable {complete : Bool} {assembler assembler' : Assembler} {clauses : List (Nat × Clause)}

/-- Clauses that have been parsed keep the stores in agreement, with a symbol and bytes that may be
left of the line after them. -/
theorem consistent_of_clauses (leftover? : Option Name) (bytes : List UInt8)
    (hnumbered : (0 :: clauses.map Prod.fst).Pairwise (· < ·))
    (hstatements : assembler.statements.toList = statementsOf 0 clauses)
    (hnames : assembler.names = symbolsOf clauses ++ leftover?.toList)
    (hdistinct : assembler.names.Nodup)
    (hpool : assembler.pool.toList = constantsOf clauses ++ bytes)
    (hbytes : leftover? = none → bytes = [])
    (hcomplete : complete = true → leftover? = none) : assembler.Consistent complete where
  distinct := hdistinct
  operations := by
    rw [hstatements]
    exact forall_mem_statementsOf 0 fun entry _ start => entry.2.wellFormed_body start
  lines := by
    rw [hstatements, map_line_statementsOf]
    exact (List.pairwise_cons.mp hnumbered).2
  stores := by
    have hslices := slicesFrom_statementsOf 0 clauses
    have hsize : assembler.pool.size = (constantsOf clauses).length + bytes.length := by
      rw [← Array.length_toList, hpool, List.length_append]
    rw [Nat.zero_add] at hslices
    refine ⟨leftover?, (constantsOf clauses).length, ?_, ?_, ?_, fun hnone => ?_, hcomplete⟩
    · rw [hnames, hstatements, defined_statementsOf]
    · rw [hstatements]
      exact hslices
    · omega
    · rw [hsize, hbytes hnone, List.length_nil, Nat.add_zero]

/-- What a line leaves that is refused, or parsed as the last one, is consistent. -/
theorem consistent_of_residue {capacities : Capacities} {left : Assembler}
    (h : Residue (ofClauses capacities clauses) left)
    (hnumbered : (0 :: clauses.map Prod.fst).Pairwise (· < ·))
    (hadmits : (empty capacities).AdmitsAll clauses)
    (hcomplete : complete = true → left = ofClauses capacities clauses) :
    left.Consistent complete := by
  have hnodup : (ofClauses capacities clauses).names.Nodup :=
    nodup_names_extendAll hadmits List.nodup_nil
  have hnothing (complete : Bool) : (ofClauses capacities clauses).Consistent complete :=
    consistent_of_clauses none [] hnumbered (statements_ofClauses capacities clauses)
      ((names_ofClauses capacities clauses).trans (List.append_nil _).symm) hnodup
      ((pool_ofClauses capacities clauses).trans (List.append_nil _).symm) (fun _ => rfl)
      fun _ => rfl
  cases complete with
  | true =>
    rw [hcomplete rfl]
    exact hnothing true
  | false =>
    cases h with
    | nothing => exact hnothing false
    | symbol name bytes hfresh =>
      -- The refused line has left a symbol and some of its constants, and no statement.
      refine consistent_of_clauses (some name) bytes hnumbered
        (statements_ofClauses capacities clauses) ?_ (nodup_names_add hfresh hnodup) ?_
        (fun h => nomatch h) (fun h => nomatch h)
      · have hnames := names_ofClauses capacities clauses
        unfold names SymbolTable.add
        rw [List.map_append, hnames]
        rfl
      · rw [Array.toList_appendList, pool_ofClauses]

/-- What can be seen of statements without their addresses. -/
theorem map_eq_of_map_unplaced {β : Type} {f : Statement → β}
    (hf : ∀ statement, f statement.unplaced = f statement) {statements statements' : List Statement}
    (h : statements'.map Statement.unplaced = statements.map Statement.unplaced) :
    statements'.map f = statements.map f := by
  have hmap (list : List Statement) : (list.map Statement.unplaced).map f = list.map f := by
    rw [List.map_map]
    exact List.map_congr_left fun statement _ => hf statement
  rw [← hmap statements', ← hmap statements, h]

/-- Which symbols are defined does not depend on addresses. -/
theorem defined_map_unplaced (statements : List Statement) :
    Layout.defined (statements.map Statement.unplaced) = Layout.defined statements := by
  unfold Layout.defined
  rw [List.filter_map, List.map_map]
  rfl

/-- The names of symbols do not depend on addresses. -/
theorem names_unplaced (assembler : Assembler) : assembler.unplaced.names = assembler.names := by
  unfold names unplaced SymbolTable.unplaced
  rw [List.map_map]
  rfl

/-- Whether the stores agree has nothing to do with addresses. -/
theorem Consistent.of_unplaced (h : assembler.Consistent complete)
    (hsame : assembler'.unplaced = assembler.unplaced) : assembler'.Consistent complete := by
  -- Consistency does not mention addresses, and all the rest is the same.
  have hpool : assembler'.pool = assembler.pool := by
    show assembler'.unplaced.pool = assembler.unplaced.pool
    rw [hsame]
  have hnames : assembler'.names = assembler.names := by
    rw [← names_unplaced assembler', hsame, names_unplaced]
  have hstatements : assembler'.statements.toList.map Statement.unplaced =
      assembler.statements.toList.map Statement.unplaced := by
    have harrays : assembler'.statements.map Statement.unplaced =
        assembler.statements.map Statement.unplaced := by
      show assembler'.unplaced.statements = assembler.unplaced.statements
      rw [hsame]
    rw [← Array.toList_map, harrays, Array.toList_map]
  have hbodies := map_eq_of_map_unplaced (fun statement => (rfl :
    statement.unplaced.body = statement.body)) hstatements
  have hlines := map_eq_of_map_unplaced (fun statement => (rfl :
    statement.unplaced.line = statement.line)) hstatements
  have hdefined : Layout.defined assembler'.statements.toList =
      Layout.defined assembler.statements.toList := by
    rw [← defined_map_unplaced, hstatements, defined_map_unplaced]
  refine ⟨?_, ?_, ?_, ?_⟩
  · rw [hnames]
    exact h.distinct
  · rw [← List.forall_mem_map, hbodies, List.forall_mem_map]
    exact h.operations
  · rw [hlines]
    exact h.lines
  · rw [hnames, hdefined, hbodies, hpool]
    exact h.stores

/-! ## Operations -/

/-- The assemblers that any sequence of operations leads to, whether they succeed or fail: a new
one is cleared, parses, assembles and builds. They are told apart by whether the last parsing has
succeeded, if there has been one since the assembler was empty. -/
inductive Reachable : Bool → Assembler → Prop where
  | empty (capacities : Capacities) : Reachable true (empty capacities)
  | clear {complete : Bool} {assembler : Assembler} (h : Reachable complete assembler) :
      Reachable true assembler.clear
  | parse {complete : Bool} {assembler : Assembler} (h : Reachable complete assembler)
      (source : String) :
      Reachable (succeeded ((parse source).run assembler)) (ending ((parse source).run assembler))
  | assemble {complete : Bool} {assembler : Assembler} (h : Reachable complete assembler)
      (source : String) (buffer : Array UInt8) :
      Reachable (succeeded ((Assembler.parse source).run assembler))
        (ending ((assemble source buffer).run assembler))
  | build {complete : Bool} {assembler : Assembler} (h : Reachable complete assembler)
      (buffer : Array UInt8) :
      Reachable complete (ending ((build buffer).run assembler))

/-- Parsing leaves an assembler whose stores agree, whatever it is given. -/
theorem consistent_parse (source : String) (assembler : Assembler) :
    (ending ((parse source).run assembler)).Consistent
      (succeeded ((parse source).run assembler)) := by
  obtain ⟨clauses, hleaves⟩ := parse_leaves source assembler
  exact consistent_of_residue hleaves.residue hleaves.numbered hleaves.admits hleaves.complete

/-- Empty stores agree, and no line has been left half stored. -/
theorem consistent_empty (capacities : Capacities) : (empty capacities).Consistent true := by
  have hnothing : Residue (ofClauses capacities []) (empty capacities) := .nothing
  exact consistent_of_residue hnothing (List.pairwise_singleton _ _) trivial fun _ => rfl

/-- A build keeps the stores in agreement, whether it succeeds or fails. -/
theorem Consistent.build (h : assembler.Consistent complete) (buffer : Array UInt8) :
    (ending ((build buffer).run assembler)).Consistent complete :=
  h.of_unplaced (unplaced_build h.sound buffer)

/-- Assembling is parsing, and building what has been parsed if that has succeeded. -/
theorem consistent_assemble (source : String) (buffer : Array UInt8) (assembler : Assembler) :
    (ending ((assemble source buffer).run assembler)).Consistent
      (succeeded ((parse source).run assembler)) := by
  have hparse := consistent_parse source assembler
  unfold assemble
  rw [EStateM.run_bind]
  rcases hrun : (parse source).run assembler with ⟨⟨⟩, parsed⟩ | ⟨error, parsed⟩
  · rw [hrun] at hparse
    exact hparse.build buffer
  · rw [hrun] at hparse
    exact hparse

/-- The stores of every assembler that is reached agree. -/
theorem Reachable.consistent (h : Reachable complete assembler) :
    assembler.Consistent complete := by
  induction h with
  | empty capacities => exact consistent_empty capacities
  | clear _ _ => exact consistent_empty _
  | parse _ source _ => exact consistent_parse source _
  | assemble _ source buffer _ => exact consistent_assemble source buffer _
  | build _ buffer ih => exact ih.build buffer

/-- What builds look for in an assembler they find. -/
structure Dependable (assembler : Assembler) : Prop where
  /-- The symbol of every statement that defines one is in the table. -/
  symbols : ∀ statement ∈ assembler.statements.toList, statement.defines = true →
    (assembler.address? statement.name.chars).isSome
  /-- The first pass fails for lack of room alone, so the constants of every statement are in the
  pool. -/
  place : ∀ buffer error layout,
    (Layout.placeAll assembler.pool assembler.statements.toList).run
      (.start buffer assembler.symbols) = .error error layout → error.cause = .programTooLarge
  /-- The second pass fails for a symbol that is not defined alone, so every field is in the
  buffer. -/
  link : ∀ buffer layout error,
    (Layout.placeAll assembler.pool assembler.statements.toList).run
      (.start buffer assembler.symbols) = .ok () layout →
    Layout.linkAll layout.symbols layout.placed.toList layout.buffer = .error error →
    ∃ name, error.cause = .labelNotFound name
  /-- So a build has no other reason to fail. -/
  build : ∀ buffer error final, (Assembler.build buffer).run assembler = .error error final →
    error.cause = .programTooLarge ∨ ∃ name, error.cause = .labelNotFound name

/-- The stores of an assembler agree after every sequence of operations, whatever the sources, the
buffers and the results, and so a build finds whatever it looks for but symbols that no line
defines. -/
theorem reachable_consistent (h : Reachable complete assembler) :
    assembler.Consistent complete ∧ assembler.Dependable := by
  have hconsistent := h.consistent
  refine ⟨hconsistent, fun statement => hconsistent.isSome_address?, ?_, ?_, ?_⟩
  · exact fun buffer error layout => cause_of_placeAll hconsistent.sound
  · exact fun buffer layout error => cause_of_linkAll hconsistent.sound
  · exact fun buffer error final => cause_of_build hconsistent.sound

/-- A source that is refused in its last line, after the symbol of that line and one of its
constants have been stored. -/
def halfStored : String :=
  "$first DC8 1\njmp .nowhere\n$second DC8 2, two"

/-- What parsing this source leaves. -/
def halfStoredParsed : Assembler :=
  ending ((parse halfStored).run (empty ⟨none, none, none⟩))

/-- Parsing the source fails, and then a build of what it leaves. -/
theorem reachable_consistent_halfStored :
    ∃ built, Reachable false built ∧ built.names.length = 2 ∧
      (Layout.defined built.statements.toList).length = 1 ∧ built.pool.size = 2 ∧
      built.Consistent false ∧ built.Dependable := by
  have hrefused : succeeded ((parse halfStored).run (empty ⟨none, none, none⟩)) = false := by
    decide +kernel
  have hparsed : Reachable false halfStoredParsed := by
    rw [← hrefused]
    exact (Reachable.empty _).parse halfStored
  have hbuilt := hparsed.build (Array.replicate 9 0)
  obtain ⟨hconsistent, hdependable⟩ := reachable_consistent hbuilt
  exact ⟨_, hbuilt, by decide +kernel, by decide +kernel, by decide +kernel, hconsistent,
    hdependable⟩

end Assembler

end RegisterMachine.Assembly
