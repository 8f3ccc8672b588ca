import RegisterMachine.Proofs.Assembly.Reading

/-!
# Layout and symbol resolution

What a source assembles to, told from its lines. The lines read as clauses by themselves; the image
is the bytes of the clauses one after the other, with every symbol replaced by its address, and the
address of a clause is the length of what stands before it (`Settles`).

The proof goes through the parsed assembler. It stores the statements of the clauses in order
(`statementsOf`), and its pool holds the constants of each clause where the statement says
(`map_statementsOf`), so whatever the passes over statements see of a statement they could see in
the clause. The symbols of clauses are new when they are defined, so they are distinct, and each of
them gets the address of the clause that defines it.
-/

namespace RegisterMachine.Assembly

/-- The bytes of clauses one after the other, given the addresses of symbols. -/
def imageOf (addressOf : List Char → Nat) (clauses : List (Nat × Clause)) : List UInt8 :=
  clauses.flatMap fun entry => entry.2.bytes addressOf

/-- The symbols that clauses define, in order. -/
def symbolsOf (clauses : List (Nat × Clause)) : List Name :=
  (clauses.filter fun entry => entry.2.defines).map fun entry => entry.2.name

/-- The constants of clauses one after the other. -/
def constantsOf (clauses : List (Nat × Clause)) : List UInt8 :=
  clauses.flatMap fun entry => entry.2.constants

/-- The constants of the first clause stand before those of the others. -/
@[simp] theorem constantsOf_cons (entry : Nat × Clause) (rest : List (Nat × Clause)) :
    constantsOf (entry :: rest) = entry.2.constants ++ constantsOf rest :=
  List.flatMap_cons

/-- The bytes of the first clause stand before those of the others. -/
@[simp] theorem imageOf_cons (addressOf : List Char → Nat) (entry : Nat × Clause)
    (rest : List (Nat × Clause)) :
    imageOf addressOf (entry :: rest) = entry.2.bytes addressOf ++ imageOf addressOf rest :=
  List.flatMap_cons

/-- The images of clauses one after the other stand one after the other. -/
@[simp] theorem imageOf_append (addressOf : List Char → Nat) (front back : List (Nat × Clause)) :
    imageOf addressOf (front ++ back) = imageOf addressOf front ++ imageOf addressOf back :=
  List.flatMap_append

/-- The length of an image does not depend on the addresses of symbols. -/
theorem length_imageOf (addressOf addressOf' : List Char → Nat) (clauses : List (Nat × Clause)) :
    (imageOf addressOf clauses).length = (imageOf addressOf' clauses).length := by
  induction clauses with
  | nil => rfl
  | cons entry rest ih =>
    rw [imageOf_cons, imageOf_cons, List.length_append, List.length_append, ih,
      Clause.length_bytes _ addressOf addressOf']

/-- The statements of clauses, with their constants in the pool from `start` on. -/
def statementsOf (start : Nat) : List (Nat × Clause) → List Statement
  | [] => []
  | entry :: rest =>
    entry.2.statement entry.1 start :: statementsOf (start + entry.2.constants.length) rest

/-! ## What has been parsed -/

namespace Assembler

variable {assembler : Assembler} {clauses : List (Nat × Clause)}

/-- Clauses that are added add their statements. -/
theorem statements_extendAll :
    (assembler.extendAll clauses).statements.toList =
      assembler.statements.toList ++ statementsOf assembler.pool.size clauses := by
  induction clauses generalizing assembler with
  | nil => exact (List.append_nil _).symm
  | cons entry rest ih =>
    rw [extendAll, List.foldl_cons, ← extendAll, ih, statementsOf]
    simp [extend]

/-- Clauses that are added add their constants. -/
theorem pool_extendAll :
    (assembler.extendAll clauses).pool.toList =
      assembler.pool.toList ++ constantsOf clauses := by
  induction clauses generalizing assembler with
  | nil => exact (List.append_nil _).symm
  | cons entry rest ih =>
    rw [extendAll, List.foldl_cons, ← extendAll, ih, constantsOf_cons]
    simp [extend]

/-- Clauses that are added add their definitions. -/
theorem names_extendAll :
    (assembler.extendAll clauses).symbols.entries.map Symbol.name =
      assembler.symbols.entries.map Symbol.name ++ symbolsOf clauses := by
  induction clauses generalizing assembler with
  | nil => exact (List.append_nil _).symm
  | cons entry rest ih =>
    rw [extendAll, List.foldl_cons, ← extendAll, ih]
    unfold extend symbolsOf
    rw [List.filter_cons]
    split
    · rw [List.map_cons, SymbolTable.add, List.map_append, List.append_assoc]
      rfl
    · rfl

/-- Adding a name that no symbol has yet keeps symbols distinct. -/
theorem nodup_names_add {table : SymbolTable} {name : Name}
    (hfresh : table.defines name = false) (hnodup : (table.entries.map Symbol.name).Nodup) :
    ((table.add name).entries.map Symbol.name).Nodup := by
  unfold SymbolTable.defines at hfresh
  rw [List.any_eq_false] at hfresh
  rw [SymbolTable.add, List.map_append, List.map_singleton, List.nodup_append]
  refine ⟨hnodup, List.pairwise_singleton _ _, ?_⟩
  intro name' hmem other hother
  obtain ⟨symbol, hsymbol, rfl⟩ := List.mem_map.mp hmem
  rw [List.mem_singleton.mp hother]
  exact fun heq => hfresh symbol hsymbol (beq_iff_eq.mpr heq)

/-- Clauses that can be added to distinct symbols leave distinct symbols. -/
theorem nodup_names_extendAll (h : assembler.AdmitsAll clauses)
    (hnodup : (assembler.symbols.entries.map Symbol.name).Nodup) :
    ((assembler.extendAll clauses).symbols.entries.map Symbol.name).Nodup := by
  induction clauses generalizing assembler with
  | nil => exact hnodup
  | cons entry rest ih =>
    obtain ⟨hadmits, hrest⟩ := h
    rw [extendAll, List.foldl_cons, ← extendAll]
    refine ih hrest ?_
    unfold extend
    dsimp only
    split
    · -- A clause is admitted only with a name that no symbol has yet.
      rename_i hdefines
      exact nodup_names_add (hadmits.fresh hdefines) hnodup
    · exact hnodup

end Assembler

/-- Where a pool shows the constants of a clause. -/
theorem Clause.heldBy_of_toList {clause : Clause} {pool : Array UInt8} {front back : List UInt8}
    (h : pool.toList = front ++ clause.constants ++ back) : clause.HeldBy pool front.length := by
  constructor
  · rw [← Array.length_toList, h, List.length_append, List.length_append]
    omega
  · rw [Array.toList_extract, h, List.extract_eq_take_drop, List.append_assoc, List.drop_left,
      Nat.add_sub_cancel_left, List.take_left]

/-- What can be seen of a statement as soon as the pool holds its constants, and does not depend on
where, can be seen of its clause. -/
theorem map_statementsOf {β : Type} {pool : Array UInt8} {front back : List UInt8}
    {clauses : List (Nat × Clause)} {f : Statement → β} {g : Clause → β}
    (hpool : pool.toList = front ++ constantsOf clauses ++ back)
    (h : ∀ number start (clause : Clause), clause.HeldBy pool start →
      f (clause.statement number start) = g clause) :
    (statementsOf front.length clauses).map f = clauses.map fun entry => g entry.2 := by
  induction clauses generalizing front with
  | nil => rfl
  | cons entry rest ih =>
    rw [constantsOf_cons, ← List.append_assoc] at hpool
    have hheld : entry.2.HeldBy pool front.length := by
      rw [List.append_assoc] at hpool
      exact Clause.heldBy_of_toList hpool
    rw [statementsOf, List.map_cons, List.map_cons, h _ _ _ hheld, ← List.length_append, ih hpool]

/-- The constants of the second part start in the pool behind those of the first. -/
theorem statementsOf_append (start : Nat) (front back : List (Nat × Clause)) :
    statementsOf start (front ++ back) =
      statementsOf start front ++ statementsOf (start + (constantsOf front).length) back := by
  induction front generalizing start with
  | nil => rfl
  | cons entry rest ih =>
    rw [List.cons_append, statementsOf, statementsOf, ih, List.cons_append, constantsOf_cons,
      List.length_append, Nat.add_assoc]

/-- There is a statement for each clause. -/
@[simp] theorem length_statementsOf (start : Nat) (clauses : List (Nat × Clause)) :
    (statementsOf start clauses).length = clauses.length := by
  induction clauses generalizing start with
  | nil => rfl
  | cons entry rest ih => rw [statementsOf, List.length_cons, ih, List.length_cons]

/-- The statements define what the clauses define. -/
theorem defined_statementsOf (start : Nat) (clauses : List (Nat × Clause)) :
    Layout.defined (statementsOf start clauses) = symbolsOf clauses := by
  induction clauses generalizing start with
  | nil => rfl
  | cons entry rest ih =>
    have hrest := ih (start + entry.2.constants.length)
    unfold Layout.defined symbolsOf at hrest ⊢
    rw [statementsOf, List.filter_cons, List.filter_cons, Clause.defines_statement]
    split
    · rw [List.map_cons, List.map_cons, hrest]
      rfl
    · exact hrest

/-- Where statements split, their clauses do. -/
theorem exists_split_of_statementsOf {start : Nat} {clauses : List (Nat × Clause)}
    {before after : List Statement} {statement : Statement}
    (h : statementsOf start clauses = before ++ statement :: after) :
    ∃ front entry back, clauses = front ++ entry :: back ∧ before = statementsOf start front ∧
      statement = entry.2.statement entry.1 (start + (constantsOf front).length) := by
  induction before generalizing start clauses with
  | nil =>
    rcases clauses with _ | ⟨entry, rest⟩
    · cases h
    · rw [statementsOf, List.nil_append, List.cons.injEq] at h
      exact ⟨[], entry, rest, rfl, rfl, h.1.symm⟩
  | cons first before ih =>
    rcases clauses with _ | ⟨entry, rest⟩
    · cases h
    · rw [statementsOf, List.cons_append, List.cons.injEq] at h
      obtain ⟨front, entry', back, rfl, rfl, hstatement⟩ := ih h.2
      refine ⟨entry :: front, entry', back, rfl, ?_, ?_⟩
      · rw [statementsOf, h.1]
      · rw [hstatement, constantsOf_cons, List.length_append, Nat.add_assoc]

/-- What holds of the statement of any clause. -/
theorem forall_mem_statementsOf {P : Statement → Prop} {clauses : List (Nat × Clause)}
    (start : Nat) (h : ∀ entry ∈ clauses, ∀ start, P (entry.2.statement entry.1 start)) :
    ∀ statement ∈ statementsOf start clauses, P statement := by
  induction clauses generalizing start with
  | nil => simp [statementsOf]
  | cons entry rest ih =>
    rw [List.forall_mem_cons] at h
    rw [statementsOf, List.forall_mem_cons]
    exact ⟨h.1 start, ih _ h.2⟩

namespace Assembler

/-- The assembler that has parsed clauses and nothing else. -/
def ofClauses (capacities : Capacities) (clauses : List (Nat × Clause)) : Assembler :=
  (empty capacities).extendAll clauses

section

variable (capacities : Capacities) (clauses : List (Nat × Clause))

/-- The statements of an assembler of clauses are those of the clauses. -/
theorem statements_ofClauses :
    (ofClauses capacities clauses).statements.toList = statementsOf 0 clauses :=
  statements_extendAll

/-- Its pool has the constants of the clauses. -/
theorem pool_ofClauses : (ofClauses capacities clauses).pool.toList = constantsOf clauses :=
  pool_extendAll

/-- Its symbols are the definitions of the clauses. -/
theorem names_ofClauses :
    (ofClauses capacities clauses).symbols.entries.map Symbol.name = symbolsOf clauses :=
  names_extendAll

/-- What the statements of the first clauses show of them. -/
theorem map_statements_ofClauses {β : Type} {f : Statement → β} {g : Clause → β}
    {front back : List (Nat × Clause)} (h : clauses = front ++ back)
    (hsame : ∀ number start (clause : Clause),
      clause.HeldBy (ofClauses capacities clauses).pool start →
        f (clause.statement number start) = g clause) :
    (statementsOf 0 front).map f = front.map fun entry => g entry.2 := by
  have hpool : (ofClauses capacities clauses).pool.toList =
      [] ++ constantsOf front ++ constantsOf back := by
    rw [pool_ofClauses, h, constantsOf, List.flatMap_append]
    rfl
  exact map_statementsOf hpool hsame

/-- The drafts of the first clauses are those clauses with all symbols at address zero. -/
theorem drafts_ofClauses {front back : List (Nat × Clause)} (h : clauses = front ++ back) :
    Layout.drafts (ofClauses capacities clauses).pool (statementsOf 0 front) =
      imageOf (fun _ => 0) front := by
  unfold Layout.drafts imageOf
  rw [List.flatMap_def, List.flatMap_def]
  exact congrArg List.flatten
    (map_statements_ofClauses capacities clauses h fun _ _ _ => Clause.draft_statement)

/-- The image of parsed clauses. -/
theorem image_ofClauses :
    (ofClauses capacities clauses).image =
      imageOf (ofClauses capacities clauses).settled.symbols.addressOf clauses := by
  unfold image Layout.image imageOf
  rw [List.flatMap_def, List.flatMap_def, statements_ofClauses]
  exact congrArg List.flatten (map_statements_ofClauses capacities clauses
    (List.append_nil clauses).symm fun _ _ _ => Clause.bytes_statement _)

/-- Its statements reserve what the clauses reserve. -/
theorem ramSize_ofClauses :
    ((ofClauses capacities clauses).statements.toList.map Statement.reserved).sum =
      (clauses.map fun entry => entry.2.reserved).sum := by
  rw [statements_ofClauses]
  exact congrArg List.sum (map_statements_ofClauses capacities clauses
    (List.append_nil clauses).symm fun _ _ _ _ => Clause.reserved_statement ..)

/-- Its statements emit as many bytes as the clauses have constants. -/
theorem constantsSize_ofClauses :
    ((ofClauses capacities clauses).statements.toList.map Statement.emitted).sum =
      (clauses.map fun entry => entry.2.constants.length).sum := by
  rw [statements_ofClauses]
  exact congrArg List.sum (map_statements_ofClauses capacities clauses
    (List.append_nil clauses).symm fun _ _ _ _ => Clause.emitted_statement ..)

/-- The fields of its statements lie inside their operands. -/
theorem encloses_ofClauses :
    ∀ statement ∈ (ofClauses capacities clauses).statements.toList, statement.Encloses := by
  rw [statements_ofClauses]
  exact forall_mem_statementsOf 0 fun entry _ start => entry.2.encloses_statement _ _

variable {capacities clauses}

/-- The statement that a build settles for a clause: its address is the length of what stands before
it. -/
theorem getElem?_settled {front back : List (Nat × Clause)} {entry : Nat × Clause}
    (h : clauses = front ++ entry :: back) :
    (ofClauses capacities clauses).settled.statements[front.length]? =
      some { entry.2.statement entry.1 (constantsOf front).length with
        address := UInt16.ofNat (imageOf (fun _ => 0) front).length } := by
  have hsplit : statementsOf 0 clauses = statementsOf 0 front ++
      entry.2.statement entry.1 (constantsOf front).length ::
        statementsOf ((constantsOf front).length + entry.2.constants.length) back := by
    rw [h, statementsOf_append, statementsOf, Nat.zero_add]
  have hlength : front.length = (statementsOf 0 front).length := (length_statementsOf ..).symm
  unfold settled
  dsimp only
  rw [List.getElem?_toArray, Layout.getElem?_located, statements_ofClauses, hsplit, hlength,
    List.take_left, List.getElem?_append_right (Nat.le_refl _), Nat.sub_self,
    List.getElem?_cons_zero, Option.map_some, Nat.zero_add, drafts_ofClauses _ _ h]

/-- The pool holds the constants of a clause after those of the clauses before it. -/
theorem heldBy_ofClauses {front back : List (Nat × Clause)} {entry : Nat × Clause}
    (h : clauses = front ++ entry :: back) :
    entry.2.HeldBy (ofClauses capacities clauses).pool (constantsOf front).length := by
  have hpool : (ofClauses capacities clauses).pool.toList =
      constantsOf front ++ entry.2.constants ++ constantsOf back := by
    rw [pool_ofClauses, h, constantsOf, List.flatMap_append, List.flatMap_cons, List.append_assoc]
    rfl
  exact Clause.heldBy_of_toList hpool

/-- There is room for every statement when there is room for every clause. -/
theorem fits_ofClauses_iff {size : Nat} :
    (ofClauses capacities clauses).Fits size ↔
      ∀ front entry back, clauses = front ++ entry :: back →
        (imageOf (fun _ => 0) front).length ≤ 0xFFFF ∧
          (imageOf (fun _ => 0) front).length + (entry.2.bytes fun _ => 0).length ≤ size := by
  -- Where the clauses split, the statements split, and the constants before it say where the slice
  -- of a statement starts.
  have hsplit {front back : List (Nat × Clause)} {entry : Nat × Clause}
      (h : clauses = front ++ entry :: back) :
      (ofClauses capacities clauses).statements.toList = statementsOf 0 front ++
        entry.2.statement entry.1 (0 + (constantsOf front).length) ::
          statementsOf (0 + (constantsOf front).length + entry.2.constants.length) back := by
    rw [statements_ofClauses, h, statementsOf_append, statementsOf]
  unfold Fits
  constructor
  · intro h front entry back hclauses
    obtain ⟨hstart, -, hstop⟩ := h _ _ _ (hsplit hclauses)
    rw [drafts_ofClauses _ _ hclauses] at hstart hstop
    rw [Nat.zero_add, Clause.draft_statement (heldBy_ofClauses hclauses)] at hstop
    exact ⟨hstart, hstop⟩
  · intro h before statement after hstatements
    rw [statements_ofClauses] at hstatements
    obtain ⟨front, entry, back, hclauses, rfl, rfl⟩ := exists_split_of_statementsOf hstatements
    rw [drafts_ofClauses _ _ hclauses, Nat.zero_add,
      Clause.draft_statement (heldBy_ofClauses hclauses)]
    obtain ⟨hstart, hstop⟩ := h front entry back hclauses
    exact ⟨hstart, Clause.inPool_statement (heldBy_ofClauses hclauses), hstop⟩

/-- All statements resolve when all symbols have addresses that clauses refer to. -/
theorem resolves_ofClauses_iff {symbols : SymbolTable} :
    (∀ statement ∈ (ofClauses capacities clauses).statements.toList, statement.Resolves symbols) ↔
      ∀ entry ∈ clauses, ∀ field ∈ entry.2.openFields,
        (symbols.address? field.word.chars).isSome := by
  rw [statements_ofClauses]
  constructor
  · intro h entry hmem
    obtain ⟨front, back, hclauses⟩ := List.append_of_mem hmem
    refine (entry.2.resolves_statement_iff entry.1 (0 + (constantsOf front).length) symbols).mp
      (h _ ?_)
    rw [hclauses, statementsOf_append, statementsOf]
    exact List.mem_append_cons_self
  · intro h
    exact forall_mem_statementsOf 0 fun entry hmem start =>
      (entry.2.resolves_statement_iff entry.1 start symbols).mpr (h entry hmem)

end

end Assembler

/-- The image at the start of the output buffer. -/
def Program.image (program : Program) : List UInt8 :=
  program.buffer.toList.take program.romSize

/-- What a source assembles to, told from its clauses. -/
structure Settles (clauses : List (Nat × Clause)) (buffer : Array UInt8) (program : Program)
    (final : Assembler) : Prop where
  /-- The bytes of the clauses stand at the start of the buffer, and what it had stands after
  them. -/
  buffer : program.buffer.toList =
    imageOf final.symbols.addressOf clauses ++ buffer.toList.drop program.romSize
  romSize : program.romSize = (imageOf final.symbols.addressOf clauses).length
  ramSize : program.ramSize = (clauses.map fun entry => entry.2.reserved).sum
  constantsSize : program.constantsSize = (clauses.map fun entry => entry.2.constants.length).sum
  /-- There is one statement for each clause. -/
  count : final.statements.size = clauses.length
  /-- The symbols are those that clauses define. -/
  names : final.symbols.entries.map Symbol.name = symbolsOf clauses
  /-- A statement says what its clause says. Its address and that of the symbol it defines is the
  length of what stands before it. -/
  statement : ∀ front number clause back, clauses = front ++ (number, clause) :: back →
    ∃ start address,
      final.statements[front.length]? = some { clause.statement number start with address } ∧
      clause.HeldBy final.pool start ∧
      address.toNat = (imageOf final.symbols.addressOf front).length ∧
      (clause.defines = true → final.address? clause.name.chars = some address)
  /-- Every symbol that a clause refers to has an address, which stands in two bytes of a jump and
  in four of a constant. -/
  resolved : ∀ entry ∈ clauses, ∀ field ∈ entry.2.openFields,
    ∃ address, final.address? field.word.chars = some address ∧
      (field.kind = .target ∧
          field.bytes final.symbols.addressOf = LittleEndian.toBytes 2 address.toNat ∨
        field.kind = .immediate32 ∧
          field.bytes final.symbols.addressOf = LittleEndian.toBytes 4 address.toNat)

/-- The image of a program that settles clauses has their bytes, with the final addresses of the
symbols. -/
theorem Settles.image {clauses : List (Nat × Clause)} {buffer : Array UInt8} {program : Program}
    {final : Assembler} (h : Settles clauses buffer program final) :
    program.image = imageOf final.symbols.addressOf clauses := by
  unfold Program.image
  rw [h.buffer, h.romSize, List.take_left]

namespace Assembler

/-- The symbol that a clause defines gets the address of its statement. -/
theorem address?_settled {capacities : Capacities} {clauses front back : List (Nat × Clause)}
    {entry : Nat × Clause} (hadmits : (empty capacities).AdmitsAll clauses)
    (h : clauses = front ++ entry :: back) (hdefines : entry.2.defines = true) :
    (ofClauses capacities clauses).settled.address? entry.2.name.chars =
      some (UInt16.ofNat (imageOf (fun _ => 0) front).length) := by
  have hmem : entry.2.name ∈ symbolsOf clauses := by
    refine List.mem_map.mpr ⟨entry, List.mem_filter.mpr ⟨?_, hdefines⟩, rfl⟩
    rw [h]
    exact List.mem_append_cons_self
  have hlisted : ((ofClauses capacities clauses).symbols.address? entry.2.name.chars).isSome := by
    rw [SymbolTable.address?_isSome_iff, names_ofClauses]
    exact hmem
  have hnodup : (symbolsOf clauses).Nodup := by
    rw [← names_ofClauses capacities]
    exact nodup_names_extendAll hadmits List.nodup_nil
  have hlocated : { entry.2.statement entry.1 (constantsOf front).length with
      address := UInt16.ofNat (imageOf (fun _ => 0) front).length } ∈
      Layout.located (ofClauses capacities clauses).pool 0
        (ofClauses capacities clauses).statements.toList :=
    List.mem_of_getElem? ((List.getElem?_toArray ..).symm.trans (getElem?_settled h))
  -- No other statement defines the symbol, so no later one assigns it again.
  refine Layout.address?_assignAll_of_mem ?_ hlocated ?_ hlisted
  · rw [Layout.defined_located, statements_ofClauses, defined_statementsOf]
    exact hnodup
  · exact (entry.2.defines_statement entry.1 _).trans hdefines

/-- Clauses that can be added, for which there is room and all of whose symbols are defined, settle
as they say. -/
theorem settles_ofClauses {capacities : Capacities} {clauses : List (Nat × Clause)}
    {buffer : Array UInt8} (hadmits : (empty capacities).AdmitsAll clauses)
    (hfits : (ofClauses capacities clauses).Fits buffer.size)
    (hresolves : ∀ statement ∈ (ofClauses capacities clauses).statements.toList,
      statement.Resolves (ofClauses capacities clauses).settled.symbols) :
    Settles clauses buffer ((ofClauses capacities clauses).program buffer)
      (ofClauses capacities clauses).settled where
  buffer := by
    rw [← image_ofClauses]
    rfl
  romSize := by
    rw [← image_ofClauses]
    rfl
  ramSize := ramSize_ofClauses capacities clauses
  constantsSize := constantsSize_ofClauses capacities clauses
  count := by
    unfold settled
    rw [List.size_toArray, Layout.length_located, statements_ofClauses, length_statementsOf]
  names := (Layout.map_name_assignAll _ _).trans (names_ofClauses capacities clauses)
  statement := by
    intro front number clause back h
    have hstart := (fits_ofClauses_iff.mp hfits front (number, clause) back h).1
    refine ⟨_, _, getElem?_settled h, heldBy_ofClauses h, ?_,
      fun hdefines => address?_settled hadmits h hdefines⟩
    · -- Statements are located by their drafts, which are as long as their bytes.
      rw [UInt16.toNat_ofNat_of_lt' (Nat.lt_succ_of_le hstart)]
      exact length_imageOf ..
  resolved := by
    intro entry hmem field hfield
    have hsome := resolves_ofClauses_iff.mp hresolves entry hmem field hfield
    obtain ⟨address, haddress⟩ := Option.isSome_iff_exists.mp hsome
    have hvalue : (ofClauses capacities clauses).settled.symbols.addressOf field.word.chars =
        address.toNat := SymbolTable.addressOf_of_address? haddress
    refine ⟨address, haddress, ?_⟩
    rw [← hvalue]
    exact Clause.bytes_of_mem_openFields hfield _

/-- A source assembles when its lines read as clauses that can be added, for which there is room,
and all of whose symbols are defined. -/
theorem assemble_run_eq_ok_iff {source : String} {buffer : Array UInt8}
    {assembler final : Assembler} {program : Program} :
    (assemble source buffer).run assembler = .ok program final ↔
      (Text.lines source.toList).length ≤ maxLine ∧
        ∃ clauses, clausesOf 0 (Text.lines source.toList) = .ok clauses ∧
          (empty assembler.capacities).AdmitsAll clauses ∧
          (ofClauses assembler.capacities clauses).Fits buffer.size ∧
          (∀ statement ∈ (ofClauses assembler.capacities clauses).statements.toList,
            statement.Resolves (ofClauses assembler.capacities clauses).settled.symbols) ∧
          program = (ofClauses assembler.capacities clauses).program buffer ∧
          final = (ofClauses assembler.capacities clauses).settled := by
  unfold assemble
  rw [bind_run_eq_ok_iff]
  constructor
  · rintro ⟨⟨⟩, parsed, hparse, hbuild⟩
    obtain ⟨hlength, clauses, hclauses, hadmits, rfl⟩ := parse_run_eq_ok_iff.mp hparse
    exact ⟨hlength, clauses, hclauses, hadmits,
      (build_run_eq_ok_iff (encloses_ofClauses _ clauses)).mp hbuild⟩
  · rintro ⟨hlength, clauses, hclauses, hadmits, hbuild⟩
    exact ⟨(), _, parse_run_eq_ok_iff.mpr ⟨hlength, clauses, hclauses, hadmits, rfl⟩,
      (build_run_eq_ok_iff (encloses_ofClauses _ clauses)).mpr hbuild⟩

/-- Whatever the source, the capacities and the buffer: when a source assembles, its lines read as
clauses, and it is laid out as they say. -/
theorem assemble_settles {source : String} {buffer : Array UInt8} {assembler final : Assembler}
    {program : Program} (h : (assemble source buffer).run assembler = .ok program final) :
    ∃ clauses, clausesOf 0 (Text.lines source.toList) = .ok clauses ∧
      Settles clauses buffer program final := by
  obtain ⟨-, clauses, hclauses, hadmits, hfits, hresolves, rfl, rfl⟩ :=
    assemble_run_eq_ok_iff.mp h
  exact ⟨clauses, hclauses, settles_ofClauses hadmits hfits hresolves⟩

/-- A source with jumps forward and back, a constant after the load of its address, and a
reservation. -/
def crossReferences : String :=
  ".loop:\njmp .end\nlcons r0, $text\n$text DC8 \"hi\", 7\n$count DV16 3\njmp .loop\n.end:\nhalt"

/-- The source assembles into a buffer that is not empty. -/
theorem assemble_settles_crossReferences :
    ∃ program final,
      (assemble crossReferences (Array.replicate 20 9)).run (empty ⟨none, none, none⟩) =
        .ok program final ∧
      ∃ clauses, clausesOf 0 (Text.lines crossReferences.toList) = .ok clauses ∧
        Settles clauses (Array.replicate 20 9) program final := by
  have hsucceeded : succeeded ((assemble crossReferences (Array.replicate 20 9)).run
      (empty ⟨none, none, none⟩)) = true := by decide +kernel
  obtain ⟨program, final, h⟩ := exists_of_succeeded hsucceeded
  exact ⟨program, final, h, assemble_settles h⟩

end Assembler

end RegisterMachine.Assembly
