import RegisterMachine.Proofs.Assembly.Clause

/-!
# Parsing, line by line

Parsing a line succeeds exactly when the line reads as a clause, its symbol is new, and there is
room for what it stores; the clause is then added to the assembler (`line_run_eq_ok_iff`). So a
source parses exactly when its lines read as clauses that can be added one after the other
(`parse_run_eq_ok_iff`), and what was parsed before plays no part.
-/

namespace RegisterMachine.Assembly

/-- A store that may have a size may have any smaller one. -/
theorem Limit.admits_of_le {limit : Limit} {m n : Nat} (hle : m ≤ n)
    (h : limit.admits n = true) : limit.admits m = true := by
  rcases limit with _ | most
  · rfl
  · have hmost : n ≤ most := of_decide_eq_true h
    exact decide_eq_true (Nat.le_trans hle hmost)

namespace Assembler

/-- The assembler with the clause of a line added. -/
def extend (assembler : Assembler) (entry : Nat × Clause) : Assembler :=
  { assembler with
    statements := assembler.statements.push (entry.2.statement entry.1 assembler.pool.size)
    symbols :=
      if entry.2.defines then assembler.symbols.add entry.2.name else assembler.symbols
    pool := assembler.pool ++ entry.2.constants }

/-- A clause can be added: its symbol is new, and there is room for what it stores. -/
structure Admits (assembler : Assembler) (clause : Clause) : Prop where
  fresh : clause.defines = true → assembler.symbols.defines clause.name = false
  symbols : clause.defines = true →
    assembler.capacities.symbols.admits (assembler.symbols.entries.length + 1) = true
  constants : ∀ width bytes, clause.content = .constants width bytes →
    assembler.capacities.constants.admits (assembler.pool.size + bytes.length) = true
  statements : assembler.capacities.statements.admits (assembler.statements.size + 1) = true

/-- A clause without constants leaves the pool. -/
theorem extend_of_constants_eq_nil (assembler : Assembler) {entry : Nat × Clause}
    (h : entry.2.constants = []) :
    assembler.extend entry = { assembler with
      statements := assembler.statements.push (entry.2.statement entry.1 assembler.pool.size)
      symbols :=
        if entry.2.defines then assembler.symbols.add entry.2.name else assembler.symbols } := by
  unfold extend
  rw [h, Array.appendList_nil]

end Assembler

namespace Parse

/-! ## Stores -/

variable {assembler assembler' : Assembler}

/-- A symbol is defined exactly if it was not, and the table has room for it. -/
theorem define_run_eq_ok_iff {name : Name} :
    (define name).run assembler = .ok () assembler' ↔
      assembler.symbols.defines name = false ∧
        assembler.capacities.symbols.admits (assembler.symbols.entries.length + 1) = true ∧
        assembler' = { assembler with symbols := assembler.symbols.add name } := by
  unfold define
  rw [get_bind_run_eq_ok_iff, demand_run_eq_ok_iff, demand_run_eq_ok_iff, EStateM.run_set,
    Bool.not_eq_true, Bool.not_eq_true, Bool.not_eq_false']
  constructor
  · rintro ⟨hfresh, hroom, ⟨⟩⟩
    exact ⟨hfresh, hroom, rfl⟩
  · rintro ⟨hfresh, hroom, rfl⟩
    exact ⟨hfresh, hroom, rfl⟩

/-- A statement is stored exactly if the store has room for it. -/
theorem store_run_eq_ok_iff {statement : Statement} :
    (store statement).run assembler = .ok () assembler' ↔
      assembler.capacities.statements.admits (assembler.statements.size + 1) = true ∧
        assembler' = { assembler with statements := assembler.statements.push statement } := by
  unfold store
  rw [get_bind_run_eq_ok_iff, demand_run_eq_ok_iff, EStateM.run_set, Bool.not_eq_true,
    Bool.not_eq_false']
  constructor
  · rintro ⟨hroom, ⟨⟩⟩
    exact ⟨hroom, rfl⟩
  · rintro ⟨hroom, rfl⟩
    exact ⟨hroom, rfl⟩

/-- Constants are stored exactly if the pool has room for all their bytes. -/
theorem storeBytes_run_eq_ok_iff {bytes : List UInt8} :
    (storeBytes bytes).run assembler = .ok () assembler' ↔
      assembler.capacities.constants.admits (assembler.pool.size + bytes.length) = true ∧
        assembler' = { assembler with pool := assembler.pool ++ bytes } := by
  unfold storeBytes
  rw [get_bind_run_eq_ok_iff, demand_run_eq_ok_iff, EStateM.run_set, Bool.not_eq_true,
    Bool.not_eq_false']
  constructor
  · rintro ⟨hroom, ⟨⟩⟩
    exact ⟨hroom, rfl⟩
  · rintro ⟨hroom, rfl⟩
    exact ⟨hroom, rfl⟩

/-- The pool grows by the bytes that are stored. -/
@[simp] theorem size_pool_append (pool : Array UInt8) (bytes : List UInt8) :
    (pool ++ bytes).size = pool.size + bytes.length := by
  rw [← Array.length_toList, Array.toList_appendList, List.length_append, Array.length_toList]

/-- Adding bytes to a pool in two goes is adding them in one. -/
theorem pool_append (pool : Array UInt8) (first second : List UInt8) :
    pool ++ first ++ second = pool ++ (first ++ second) := by
  apply Array.toList_inj.mp
  rw [Array.toList_appendList, Array.toList_appendList, Array.toList_appendList,
    List.append_assoc]

/-- Pieces of bytes are stored when there is room for all of them together. -/
theorem forM_storeBytes_run_eq_ok_iff {pieces : List (List UInt8)} :
    (pieces.forM storeBytes).run assembler = .ok () assembler' ↔
      (pieces ≠ [] → assembler.capacities.constants.admits
        (assembler.pool.size + pieces.flatten.length) = true) ∧
        assembler' = { assembler with pool := assembler.pool ++ pieces.flatten } := by
  rw [List.forM_eq_forM]
  induction pieces generalizing assembler with
  | nil =>
    rw [List.forM_nil, List.flatten_nil, Array.appendList_nil]
    constructor
    · rintro ⟨⟩
      exact ⟨fun h => absurd rfl h, rfl⟩
    · rintro ⟨-, rfl⟩
      rfl
  | cons piece pieces ih =>
    rw [List.forM_cons, bind_run_eq_ok_iff, List.flatten_cons, ← pool_append, List.length_append,
      ← Nat.add_assoc]
    constructor
    · -- The last piece needs the most room, and if there is no other that is the first one.
      rintro ⟨⟨⟩, _, hpiece, hrest⟩
      obtain ⟨hfirst, rfl⟩ := storeBytes_run_eq_ok_iff.mp hpiece
      obtain ⟨hroom, rfl⟩ := ih.mp hrest
      refine ⟨fun _ => ?_, rfl⟩
      rcases pieces with _ | ⟨next, pieces⟩
      · simpa using hfirst
      · simpa using hroom (by simp)
    · rintro ⟨hroom, rfl⟩
      have hall := hroom (by simp)
      have hpiece := storeBytes_run_eq_ok_iff.mpr
        ⟨Limit.admits_of_le (Nat.le_add_right _ _) hall, rfl⟩
      refine ⟨(), _, hpiece, ih.mpr ⟨fun _ => ?_, rfl⟩⟩
      simpa using hall

/-- An item is stored as at least one piece. -/
theorem ne_nil_of_constantBytes {width : Width} {item : List Char} {pieces : List (List UInt8)}
    (h : constantBytes width item = .ok pieces) : pieces ≠ [] := by
  unfold constantBytes at h
  split at h
  · cases h
    simp
  · obtain ⟨bytes, -, rfl⟩ := map_eq_ok_iff.mp h
    simp

/-- Items of constants are stored when all of them read and there is room for their bytes
together. -/
theorem forM_constant_run_eq_ok_iff {width : Width} {items : List (List Char)} (h : items ≠ []) :
    (items.forM fun item => constant width (Text.trim item)).run assembler = .ok () assembler' ↔
      ∃ bytes, Clause.constantsOf width items = .ok bytes ∧
        assembler.capacities.constants.admits (assembler.pool.size + bytes.length) = true ∧
        assembler' = { assembler with pool := assembler.pool ++ bytes } := by
  rw [List.forM_eq_forM]
  induction items generalizing assembler with
  | nil => exact absurd rfl h
  | cons item items ih =>
    have hitem (final : Assembler) :
        (constant width (Text.trim item)).run assembler = .ok () final ↔
          ∃ pieces, constantBytes width (Text.trim item) = .ok pieces ∧
            assembler.capacities.constants.admits
              (assembler.pool.size + pieces.flatten.length) = true ∧
            final = { assembler with pool := assembler.pool ++ pieces.flatten } := by
      unfold constant
      rw [ofExcept_bind_run_eq_ok_iff]
      simp only [forM_storeBytes_run_eq_ok_iff]
      constructor
      · rintro ⟨pieces, hpieces, hroom, rfl⟩
        exact ⟨pieces, hpieces, hroom (ne_nil_of_constantBytes hpieces), rfl⟩
      · rintro ⟨pieces, hpieces, hroom, rfl⟩
        exact ⟨pieces, hpieces, fun _ => hroom, rfl⟩
    rw [List.forM_cons, bind_run_eq_ok_iff, Clause.constantsOf]
    -- The last item has no rest to apply the induction hypothesis to, and is told apart twice.
    constructor
    · rintro ⟨⟨⟩, _, hfirst, hrest⟩
      obtain ⟨pieces, hpieces, hroom, rfl⟩ := (hitem _).mp hfirst
      rw [hpieces]
      rcases items with _ | ⟨next, items⟩
      · cases hrest
        exact ⟨pieces.flatten ++ [], rfl, by simpa using hroom, by simp⟩
      · obtain ⟨bytes, hbytes, hroom', rfl⟩ := (ih (by simp)).mp hrest
        rw [hbytes]
        refine ⟨pieces.flatten ++ bytes, rfl, ?_, by rw [← pool_append]⟩
        simpa [Nat.add_assoc] using hroom'
    · rintro ⟨_, hbytes, hroom, rfl⟩
      obtain ⟨pieces, hpieces, hbytes⟩ := bind_eq_ok_iff.mp hbytes
      obtain ⟨bytes, hrest, hbytes⟩ := bind_eq_ok_iff.mp hbytes
      cases hbytes
      rw [List.length_append, ← Nat.add_assoc] at hroom
      refine ⟨(), _, (hitem _).mpr
        ⟨pieces, hpieces, Limit.admits_of_le (Nat.le_add_right _ _) hroom, rfl⟩, ?_⟩
      rcases items with _ | ⟨next, items⟩
      · cases hrest
        rw [List.append_nil]
        rfl
      · refine (ih (by simp)).mpr ⟨bytes, hrest, ?_, by rw [pool_append]⟩
        simpa using hroom

/-! ## Lines -/

/-- A text has at least one item, which may be empty. -/
theorem items_ne_nil (cs : List Char) : Text.items cs ≠ [] := by
  unfold Text.items
  rw [Ne, List.map_eq_nil_iff]
  exact List.splitOnP_ne_nil _ _

variable {number : Nat} {word rest : List Char}

/-- A label line is parsed exactly if it reads as a clause that the assembler admits. -/
theorem label_run_eq_ok_iff :
    (label number word rest).run assembler = .ok () assembler' ↔
      ∃ clause, Clause.ofLabel word rest = .ok clause ∧ assembler.Admits clause ∧
        assembler' = assembler.extend (number, clause) := by
  unfold label Clause.ofLabel
  rw [ofExcept_bind_run_eq_ok_iff]
  constructor
  · rintro ⟨name, hname, hrun⟩
    obtain ⟨⟨⟩, _, hdefine, hstore⟩ := bind_run_eq_ok_iff.mp hrun
    obtain ⟨hfresh, hsymbols, rfl⟩ := define_run_eq_ok_iff.mp hdefine
    obtain ⟨hstatements, rfl⟩ := store_run_eq_ok_iff.mp hstore
    rw [hname]
    refine ⟨⟨name, .label⟩, rfl, ⟨fun _ => hfresh, fun _ => hsymbols, ?_, hstatements⟩, ?_⟩
    · rintro _ _ ⟨⟩
    · rw [Assembler.extend_of_constants_eq_nil _ rfl]
      rfl
  · rintro ⟨_, hclause, hadmits, rfl⟩
    obtain ⟨name, hname, hclause⟩ := bind_eq_ok_iff.mp hclause
    cases hclause
    rw [Assembler.extend_of_constants_eq_nil _ rfl]
    exact ⟨name, hname, bind_run_eq_ok_iff.mpr ⟨(), _, define_run_eq_ok_iff.mpr
      ⟨hadmits.fresh rfl, hadmits.symbols rfl, rfl⟩, store_run_eq_ok_iff.mpr
      ⟨hadmits.statements, rfl⟩⟩⟩

/-- The statement of an instruction is the one of its clause. -/
theorem operation_eq (opcode : Opcode) :
    Statement.operation number opcode word rest =
      (fun clause => clause.statement number 0) <$> Clause.ofOperation opcode word rest := by
  unfold Statement.operation Clause.ofOperation
  rw [Operands.ofWords_eq]
  rcases Fields.ofWords opcode (Text.fields rest) with cause | fields
  · rfl
  · rcases Name.ofChars word with cause | name <;> rfl

/-- An operation line is parsed exactly if it reads as a clause that the assembler admits. -/
theorem operation_run_eq_ok_iff {opcode : Opcode} :
    (operation number opcode word rest).run assembler = .ok () assembler' ↔
      ∃ clause, Clause.ofOperation opcode word rest = .ok clause ∧ assembler.Admits clause ∧
        assembler' = assembler.extend (number, clause) := by
  -- An instruction defines no symbol and has no constants, wherever they would start.
  have hclause {clause : Clause} (h : Clause.ofOperation opcode word rest = .ok clause) :
      ∃ name fields, clause = ⟨name, .operation opcode fields⟩ := by
    obtain ⟨fields, -, h⟩ := bind_eq_ok_iff.mp h
    obtain ⟨name, -, h⟩ := bind_eq_ok_iff.mp h
    cases h
    exact ⟨name, fields, rfl⟩
  unfold operation
  rw [ofExcept_bind_run_eq_ok_iff, operation_eq]
  constructor
  · rintro ⟨statement, hstatement, hstore⟩
    obtain ⟨clause, hread, rfl⟩ := map_eq_ok_iff.mp hstatement
    obtain ⟨hstatements, rfl⟩ := store_run_eq_ok_iff.mp hstore
    obtain ⟨name, fields, rfl⟩ := hclause hread
    refine ⟨_, hread, ⟨?_, ?_, ?_, hstatements⟩, ?_⟩
    · rintro ⟨⟩
    · rintro ⟨⟩
    · rintro _ _ ⟨⟩
    · rw [Assembler.extend_of_constants_eq_nil _ rfl]
      rfl
  · rintro ⟨clause, hread, hadmits, rfl⟩
    refine ⟨_, map_eq_ok_iff.mpr ⟨clause, hread, rfl⟩, store_run_eq_ok_iff.mpr
      ⟨hadmits.statements, ?_⟩⟩
    obtain ⟨name, fields, rfl⟩ := hclause hread
    rw [Assembler.extend_of_constants_eq_nil _ rfl]
    rfl

/-- RAM is reserved when the number of elements reads and there is room for the statement. -/
theorem reserve_run_eq_ok_iff {name : Name} {width : Width} {values : List Char} :
    (do
      let count ← MonadExcept.ofExcept (elementCount values)
      store ⟨number, name, .reservation width count, 0⟩ : Parse Unit).run assembler =
        .ok () assembler' ↔
      ∃ count, elementCount values = .ok count ∧
        assembler.capacities.statements.admits (assembler.statements.size + 1) = true ∧
        assembler' = { assembler with
          statements := assembler.statements.push
            ⟨number, name, .reservation width count, 0⟩ } := by
  rw [ofExcept_bind_run_eq_ok_iff]
  simp only [store_run_eq_ok_iff]

/-- Constants are emitted when their items read and there is room for their bytes and for the
statement, which keeps where in the pool they stand. -/
theorem emit_run_eq_ok_iff {name : Name} {width : Width} {values : List Char} :
    (do
      let start := (← get).pool.size
      (Text.items values).forM fun item => constant width (Text.trim item)
      let stop := (← get).pool.size
      store ⟨number, name, .constants width start (stop - start), 0⟩ : Parse Unit).run assembler =
        .ok () assembler' ↔
      ∃ bytes, Clause.constantsOf width (Text.items values) = .ok bytes ∧
        assembler.capacities.constants.admits (assembler.pool.size + bytes.length) = true ∧
        assembler.capacities.statements.admits (assembler.statements.size + 1) = true ∧
        assembler' = { assembler with
          pool := assembler.pool ++ bytes
          statements := assembler.statements.push
            ⟨number, name, .constants width assembler.pool.size bytes.length, 0⟩ } := by
  rw [get_bind_run_eq_ok_iff]
  constructor
  · intro hrun
    -- The constants go to the pool one after the other, and the statement says where they start.
    obtain ⟨⟨⟩, _, hconstants, hrun⟩ := bind_run_eq_ok_iff.mp hrun
    obtain ⟨bytes, hbytes, hroom, rfl⟩ :=
      (forM_constant_run_eq_ok_iff (items_ne_nil values)).mp hconstants
    rw [get_bind_run_eq_ok_iff] at hrun
    obtain ⟨hstatements, rfl⟩ := store_run_eq_ok_iff.mp hrun
    refine ⟨bytes, hbytes, hroom, hstatements, ?_⟩
    rw [size_pool_append, Nat.add_sub_cancel_left]
  · rintro ⟨bytes, hbytes, hroom, hstatements, rfl⟩
    refine bind_run_eq_ok_iff.mpr ⟨(), _,
      (forM_constant_run_eq_ok_iff (items_ne_nil values)).mpr ⟨bytes, hbytes, hroom, rfl⟩, ?_⟩
    rw [get_bind_run_eq_ok_iff]
    refine store_run_eq_ok_iff.mpr ⟨hstatements, ?_⟩
    rw [size_pool_append, Nat.add_sub_cancel_left]

/-- A directive is parsed exactly if it reads as a clause that the assembler admits. -/
theorem directive_run_eq_ok_iff :
    (directive number word rest).run assembler = .ok () assembler' ↔
      ∃ clause, Clause.ofDirective word rest = .ok clause ∧ assembler.Admits clause ∧
        assembler' = assembler.extend (number, clause) := by
  unfold directive Clause.ofDirective
  rw [ofExcept_bind_run_eq_ok_iff]
  constructor
  · rintro ⟨⟨name, ⟨storage, width⟩, values⟩, hdirective, hrun⟩
    obtain ⟨⟨⟩, _, hdefine, hrun⟩ := bind_run_eq_ok_iff.mp hrun
    obtain ⟨hfresh, hsymbols, rfl⟩ := define_run_eq_ok_iff.mp hdefine
    rw [hdirective]
    -- The symbol is defined before the values are read, so the room for it is known in both cases.
    rcases storage with _ | _
    · obtain ⟨bytes, hbytes, hroom, hstatements, rfl⟩ := emit_run_eq_ok_iff.mp hrun
      refine ⟨⟨name, .constants width bytes⟩, ?_,
        ⟨fun _ => hfresh, fun _ => hsymbols, ?_, hstatements⟩, rfl⟩
      · change (Clause.constantsOf width (Text.items values) >>= _) = _
        rw [hbytes]
        rfl
      · rintro _ _ ⟨⟩
        exact hroom
    · obtain ⟨count, hcount, hstatements, rfl⟩ := reserve_run_eq_ok_iff.mp hrun
      refine ⟨⟨name, .reservation width count⟩, ?_,
        ⟨fun _ => hfresh, fun _ => hsymbols, ?_, hstatements⟩, ?_⟩
      · change (elementCount values >>= _) = _
        rw [hcount]
        rfl
      · rintro _ _ ⟨⟩
      · rw [Assembler.extend_of_constants_eq_nil _ rfl]
        rfl
  · rintro ⟨clause, hclause, hadmits, rfl⟩
    obtain ⟨⟨name, ⟨storage, width⟩, values⟩, hdirective, hclause⟩ := bind_eq_ok_iff.mp hclause
    refine ⟨_, hdirective, ?_⟩
    rcases storage with _ | _
    · obtain ⟨bytes, hbytes, hclause⟩ := bind_eq_ok_iff.mp hclause
      cases hclause
      have hdefine := define_run_eq_ok_iff.mpr ⟨hadmits.fresh rfl, hadmits.symbols rfl, rfl⟩
      exact bind_run_eq_ok_iff.mpr ⟨(), _, hdefine, emit_run_eq_ok_iff.mpr
        ⟨bytes, hbytes, hadmits.constants _ _ rfl, hadmits.statements, rfl⟩⟩
    · obtain ⟨count, hcount, hclause⟩ := bind_eq_ok_iff.mp hclause
      cases hclause
      have hdefine := define_run_eq_ok_iff.mpr ⟨hadmits.fresh rfl, hadmits.symbols rfl, rfl⟩
      rw [Assembler.extend_of_constants_eq_nil _ rfl]
      exact bind_run_eq_ok_iff.mpr ⟨(), _, hdefine, reserve_run_eq_ok_iff.mpr
        ⟨count, hcount, hadmits.statements, rfl⟩⟩

end Parse

namespace Assembler

/-- The assembler with the clause of a line added, if the line has one. -/
def extend? (assembler : Assembler) (number : Nat) : Option Clause → Assembler
  | none => assembler
  | some clause => assembler.extend (number, clause)

/-- A line can be added that has no clause, or one that can be added. -/
def Admits? (assembler : Assembler) : Option Clause → Prop
  | none => True
  | some clause => assembler.Admits clause

end Assembler

/-- A line is parsed when it reads by itself and its clause can be added. -/
theorem Parse.line_run_eq_ok_iff {number : Nat} {text : List Char}
    {assembler assembler' : Assembler} :
    (line number text).run assembler = .ok () assembler' ↔
      ∃ clause?, Clause.ofLine text = .ok clause? ∧ assembler.Admits? clause? ∧
        assembler' = assembler.extend? number clause? := by
  have hsome (read : Except Cause Clause) :
      (∃ clause, read = .ok clause ∧ assembler.Admits clause ∧
        assembler' = assembler.extend (number, clause)) ↔
      ∃ clause?, some <$> read = .ok clause? ∧ assembler.Admits? clause? ∧
        assembler' = assembler.extend? number clause? := by
    constructor
    · rintro ⟨clause, rfl, hadmits, rfl⟩
      exact ⟨some clause, rfl, hadmits, rfl⟩
    · rintro ⟨_, hread, hadmits, rfl⟩
      obtain ⟨clause, rfl, rfl⟩ := map_eq_ok_iff.mp hread
      exact ⟨clause, rfl, hadmits, rfl⟩
  unfold line Clause.ofLine
  dsimp only
  -- Both sides branch on the same tests, and each kind of line has its own lemma.
  generalize (Text.firstWord (Text.trim (Text.withoutComment text))).1 = word
  generalize (Text.firstWord (Text.trim (Text.withoutComment text))).2 = rest
  split
  · constructor
    · rintro ⟨⟩
      exact ⟨none, rfl, trivial, rfl⟩
    · rintro ⟨_, ⟨⟩, -, rfl⟩
      rfl
  · split
    · rw [label_run_eq_ok_iff, hsome]
    · rcases Opcode.ofMnemonic? word with _ | opcode
      · dsimp only
        split
        · rw [directive_run_eq_ok_iff, hsome]
        · constructor
          · rintro ⟨⟩
          · rintro ⟨_, ⟨⟩, -⟩
      · rw [operation_run_eq_ok_iff, hsome]

/-! ## Lines and their clauses -/

/-- Reads lines by themselves. Those that are not blank keep their numbers; they are counted from
the one after `number`. -/
def clausesOf (number : Nat) : List (List Char) → Except Cause (List (Nat × Clause))
  | [] => .ok []
  | text :: rest => do
    let clause? ← Clause.ofLine text
    let clauses ← clausesOf (number + 1) rest
    return (clause?.map (number + 1, ·)).toList ++ clauses

/-- A word becomes a name of the same characters. -/
theorem Name.chars_of_ofChars {chars : List Char} {name : Name} (h : ofChars chars = .ok name) :
    name.chars = chars := by
  unfold ofChars at h
  split at h
  · rename_i hname
    cases h
    exact ofChars?_eq_some_iff.mp hname
  · cases h

/-- A directive is named for its symbol. -/
theorem Directive.name_of_ofChars {symbol rest : List Char} {directive : Directive}
    (h : ofChars symbol rest = .ok directive) : directive.name.chars = symbol := by
  unfold ofChars at h
  dsimp only at h
  split at h
  · cases h
  · split at h
    · cases h
    · obtain ⟨name, hname, h⟩ := bind_eq_ok_iff.mp h
      cases h
      exact Name.chars_of_ofChars hname

/-- Every symbol that is defined has the mark of one. -/
theorem Clause.marked_of_defines {text : List Char} {clause : Clause}
    (h : ofLine text = .ok (some clause)) (hdefines : clause.defines = true) :
    clause.name.chars.head? = some '.' ∨ clause.name.chars.head? = some '$' := by
  unfold ofLine at h
  dsimp only at h
  generalize (Text.firstWord (Text.trim (Text.withoutComment text))).1 = word at h
  generalize (Text.firstWord (Text.trim (Text.withoutComment text))).2 = rest at h
  split at h
  · -- A blank line has no clause.
    cases h
  · split at h
    · -- A label has its dot, since there is more than that before the colon.
      rename_i hdot
      obtain ⟨_, hread, ⟨⟩⟩ := map_eq_ok_iff.mp h
      obtain ⟨name, hname, hread⟩ := bind_eq_ok_iff.mp hread
      cases hread
      unfold Parse.labelName at hname
      split at hname
      · rename_i hlabel
        left
        rw [Name.chars_of_ofChars hname, List.head?_dropLast, if_pos, hdot]
        have hlength := hlabel.2.2
        rw [List.length_dropLast] at hlength
        omega
      · cases hname
    · split at h
      · -- An operation defines nothing.
        obtain ⟨_, hread, ⟨⟩⟩ := map_eq_ok_iff.mp h
        obtain ⟨fields, -, hread⟩ := bind_eq_ok_iff.mp hread
        obtain ⟨name, -, hread⟩ := bind_eq_ok_iff.mp hread
        cases hread
        cases hdefines
      · split at h
        · -- The symbol of a directive is the word with its dollar.
          rename_i hdollar
          obtain ⟨_, hread, ⟨⟩⟩ := map_eq_ok_iff.mp h
          obtain ⟨directive, hdirective, hread⟩ := bind_eq_ok_iff.mp hread
          have hname : clause.name = directive.name := by
            split at hread
            · obtain ⟨count, -, hread⟩ := bind_eq_ok_iff.mp hread
              cases hread
              rfl
            · obtain ⟨bytes, -, hread⟩ := bind_eq_ok_iff.mp hread
              cases hread
              rfl
          right
          rw [hname, Directive.name_of_ofChars hdirective, hdollar]
        · cases h

/-- Clauses are read from the lines that they are numbered after. -/
theorem exists_line_of_mem_clausesOf {number : Nat} {lines : List (List Char)}
    {clauses : List (Nat × Clause)} (h : clausesOf number lines = .ok clauses)
    {entry : Nat × Clause} (hmem : entry ∈ clauses) :
    ∃ i text, entry.1 = number + 1 + i ∧ lines[i]? = some text ∧
      Clause.ofLine text = .ok (some entry.2) := by
  induction lines generalizing number clauses with
  | nil =>
    cases h
    cases hmem
  | cons text rest ih =>
    obtain ⟨clause?, hread, h⟩ := bind_eq_ok_iff.mp h
    obtain ⟨others, hrest, h⟩ := bind_eq_ok_iff.mp h
    cases h
    rcases List.mem_append.mp hmem with hfirst | hmem
    · obtain ⟨clause, rfl, rfl⟩ := Option.map_eq_some_iff.mp (Option.mem_toList.mp hfirst)
      exact ⟨0, text, rfl, rfl, hread⟩
    · obtain ⟨i, text', hnumber, hline, hread'⟩ := ih hrest hmem
      exact ⟨i + 1, text', by omega, hline, hread'⟩

/-- The clause of a line is among those of its source. -/
theorem mem_clausesOf {number : Nat} {lines : List (List Char)} {clauses : List (Nat × Clause)}
    (h : clausesOf number lines = .ok clauses) {text : List Char} (hmem : text ∈ lines)
    {clause : Clause} (hread : Clause.ofLine text = .ok (some clause)) :
    ∃ line, (line, clause) ∈ clauses := by
  induction lines generalizing number clauses with
  | nil => cases hmem
  | cons first rest ih =>
    obtain ⟨clause?, hfirst, h⟩ := bind_eq_ok_iff.mp h
    obtain ⟨others, hrest, h⟩ := bind_eq_ok_iff.mp h
    cases h
    rcases List.mem_cons.mp hmem with rfl | hmem
    · cases hfirst.symm.trans hread
      exact ⟨number + 1, List.mem_cons_self⟩
    · obtain ⟨line, hline⟩ := ih hrest hmem
      exact ⟨line, List.mem_append_right _ hline⟩

/-! ## Sources -/

namespace Assembler

/-- The assembler with clauses added one after the other. -/
def extendAll (assembler : Assembler) (clauses : List (Nat × Clause)) : Assembler :=
  clauses.foldl extend assembler

/-- Clauses can be added one after the other. -/
def AdmitsAll (assembler : Assembler) : List (Nat × Clause) → Prop
  | [] => True
  | entry :: rest => assembler.Admits entry.2 ∧ (assembler.extend entry).AdmitsAll rest

/-- Lines are parsed exactly if they can be numbered and read as clauses that the assembler admits,
and these are what it adds. -/
theorem parseLines_run_eq_ok_iff {number : Nat} {lines : List (List Char)}
    {assembler assembler' : Assembler} (hnumber : number ≤ maxLine) :
    (parseLines number lines).run assembler = .ok () assembler' ↔
      number + lines.length ≤ maxLine ∧
        ∃ clauses, clausesOf number lines = .ok clauses ∧ assembler.AdmitsAll clauses ∧
          assembler' = assembler.extendAll clauses := by
  induction lines generalizing number assembler with
  | nil =>
    constructor
    · rintro ⟨⟩
      exact ⟨hnumber, [], rfl, trivial, rfl⟩
    · rintro ⟨-, _, ⟨⟩, -, rfl⟩
      rfl
  | cons text rest ih =>
    have hrest (final : Assembler) (hle : number + 1 ≤ maxLine) :
        (parseLines (number + 1) rest).run final = .ok () assembler' ↔
          number + 1 + rest.length ≤ maxLine ∧
            ∃ clauses, clausesOf (number + 1) rest = .ok clauses ∧ final.AdmitsAll clauses ∧
              assembler' = final.extendAll clauses := ih hle
    rw [parseLines, demand_run_eq_ok_iff, clausesOf, List.length_cons]
    constructor
    · rintro ⟨hne, hrun⟩
      obtain ⟨⟨⟩, _, hline, hrun⟩ := bind_run_eq_ok_iff.mp hrun
      obtain ⟨clause?, hread, hadmits, rfl⟩ :=
        Parse.line_run_eq_ok_iff.mp (adaptExcept_run_eq_ok_iff.mp hline)
      obtain ⟨hlength, clauses, hclauses, hall, rfl⟩ := (hrest _ (by omega)).mp hrun
      refine ⟨by omega, _, bind_eq_ok_iff.mpr ⟨clause?, hread, bind_eq_ok_iff.mpr
        ⟨clauses, hclauses, rfl⟩⟩, ?_⟩
      -- A blank line adds nothing to the clauses or to the assembler.
      rcases clause? with _ | clause
      · exact ⟨hall, rfl⟩
      · exact ⟨⟨hadmits, hall⟩, rfl⟩
    · rintro ⟨hlength, _, hreads, hall, rfl⟩
      obtain ⟨clause?, hread, hreads⟩ := bind_eq_ok_iff.mp hreads
      obtain ⟨clauses, hclauses, hconcat⟩ := bind_eq_ok_iff.mp hreads
      cases hconcat
      refine ⟨by omega, bind_run_eq_ok_iff.mpr ⟨(), assembler.extend? (number + 1) clause?, ?_, ?_⟩⟩
      · rw [adaptExcept_run_eq_ok_iff]
        refine Parse.line_run_eq_ok_iff.mpr ⟨clause?, hread, ?_, rfl⟩
        rcases clause? with _ | clause
        · trivial
        · exact hall.1
      · refine (hrest _ (by omega)).mpr ⟨by omega, clauses, hclauses, ?_⟩
        rcases clause? with _ | clause
        · exact ⟨hall, rfl⟩
        · exact ⟨hall.2, rfl⟩

/-- A source is parsed when its lines can be numbered, when they read by themselves, and when their
clauses can be added one after the other to an assembler that has parsed nothing. -/
theorem parse_run_eq_ok_iff {source : String} {assembler assembler' : Assembler} :
    (parse source).run assembler = .ok () assembler' ↔
      (Text.lines source.toList).length ≤ maxLine ∧
        ∃ clauses, clausesOf 0 (Text.lines source.toList) = .ok clauses ∧
          assembler.clear.AdmitsAll clauses ∧ assembler' = assembler.clear.extendAll clauses := by
  have hlines : (parseLines 0 (Text.lines source.toList)).run assembler.clear =
        .ok () assembler' ↔ _ := parseLines_run_eq_ok_iff (Nat.zero_le maxLine)
  rw [Nat.zero_add] at hlines
  exact hlines

end Assembler

end RegisterMachine.Assembly
