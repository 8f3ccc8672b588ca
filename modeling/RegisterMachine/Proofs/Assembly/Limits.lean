import RegisterMachine.Proofs.Assembly.Representation

/-!
# Capacities only limit

Parsing within capacities is compared with parsing without any. A computation is `Curbed` when it
comes to the same within capacities as without, unless it is refused because a store is full. Each
store is, and one curbed computation after the other is, so a line is (`curbed_line`), and parsing a
source stops within capacities at the same line or an earlier one (`curbs_parseLines`).

Whether a source that parses without capacities parses within them is told from what it parses to:
clauses can be added one after the other exactly when what they add up to has distinct symbols and
is within capacities (`admitsAll_iff`). What has been parsed is then the same, and builds do not
look at capacities (`answers_within`).
-/

namespace RegisterMachine.Assembly

/-- The causes for which a source is refused because a store is full. -/
def Cause.isLimit : Cause → Bool
  | .tooManyInstructions | .tooManyLabels | .dataTooLarge => true
  | .notAValidLine | .invalidLabel | .duplicatedLabel _ | .badParameterCount _ _ | .badRegister _
  | .invalidNumber | .integerTooHigh _ | .integerTooLow _ | .badDataType | .missingDataValues
  | .labelNotFound _ | .nameTooLong | .programTooLarge | .lineNumberOverflow => false

/-- Capacities that admit everything. -/
def Capacities.unbounded : Capacities :=
  ⟨none, none, none⟩

namespace Assembler

/-- The assembler with other capacities. -/
def within (assembler : Assembler) (capacities : Capacities) : Assembler :=
  { assembler with capacities }

/-- The assembler without bounds on its stores. -/
def unbounded (assembler : Assembler) : Assembler :=
  assembler.within .unbounded

/-- The stores of an assembler are no larger than its capacities. -/
structure WithinCapacities (assembler : Assembler) : Prop where
  statements : assembler.capacities.statements.admits assembler.statements.size = true
  symbols : assembler.capacities.symbols.admits assembler.symbols.entries.length = true
  constants : assembler.capacities.constants.admits assembler.pool.size = true

end Assembler

/-! ## Computations -/

/-- The relation of what a computation comes to within capacities to what it comes to without: the
same, unless it is refused because a store is full. -/
inductive Curbs {α : Type} :
    EStateM.Result Cause Assembler α → EStateM.Result Cause Assembler α → Prop where
  | ok (value : α) (assembler : Assembler) :
      Curbs (.ok value assembler) (.ok value assembler.unbounded)
  | error (cause : Cause) (assembler : Assembler) :
      Curbs (.error cause assembler) (.error cause assembler.unbounded)
  | full {cause : Cause} (h : cause.isLimit = true) (assembler : Assembler)
      (result : EStateM.Result Cause Assembler α) : Curbs (.error cause assembler) result

/-- A computation comes to the same within capacities as without, unless a store is full. -/
def Curbed {α : Type} (x : Parse α) : Prop :=
  ∀ assembler : Assembler, Curbs (x.run assembler) (x.run assembler.unbounded)

variable {α β : Type}

/-- A value is the same within capacities. -/
theorem curbed_pure (value : α) : Curbed (pure value) :=
  fun assembler => .ok value assembler

/-- An error is the same within capacities. -/
theorem curbed_throw (cause : Cause) : Curbed (throw cause : Parse α) :=
  fun assembler => .error cause assembler

/-- A verdict does not look at the stores. -/
theorem curbed_ofExcept (verdict : Except Cause α) :
    Curbed (MonadExcept.ofExcept verdict : Parse α) := by
  cases verdict with
  | ok value => exact curbed_pure value
  | error cause => exact curbed_throw cause

/-- Curbed computations one after the other are curbed. -/
theorem Curbed.bind {x : Parse α} {f : α → Parse β} (hx : Curbed x)
    (hf : ∀ value, Curbed (f value)) : Curbed (x >>= f) := by
  intro assembler
  have h := hx assembler
  rw [EStateM.run_bind, EStateM.run_bind]
  revert h
  generalize x.run assembler = bounded
  generalize x.run assembler.unbounded = reference
  intro h
  cases h with
  | ok value assembler' => exact hf value assembler'
  | error cause assembler' => exact .error cause assembler'
  | full h assembler' reference => exact .full h assembler' _

/-- Reading the state, if what follows does not look at capacities. -/
theorem curbed_get_bind {f : Assembler → Parse β} (hf : ∀ assembler, Curbed (f assembler))
    (hsame : ∀ assembler, f assembler.unbounded = f assembler) : Curbed (get >>= f) := by
  intro assembler
  have h := hf assembler assembler
  rw [EStateM.run_bind, EStateM.run_bind, EStateM.run_get, EStateM.run_get]
  dsimp only
  rw [hsame]
  exact h

/-- A curbed computation for each of some items is curbed. -/
theorem curbed_forM {f : α → Parse Unit} (items : List α) (hf : ∀ item, Curbed (f item)) :
    Curbed (items.forM f) := by
  rw [List.forM_eq_forM]
  induction items with
  | nil => exact curbed_pure ()
  | cons item items ih =>
    rw [List.forM_cons]
    exact (hf item).bind fun _ => ih

/-! ## Stores -/

namespace Parse

variable {assembler : Assembler}

/-- A demand, and then a computation. -/
theorem demand_run {c : Prop} [Decidable c] {cause : Cause} {rest : Unit → Parse Unit} :
    EStateM.run (if c then throw cause >>= rest else rest ()) assembler =
      if c then .error cause assembler else (rest ()).run assembler := by
  split <;> rfl

/-- A symbol is defined unless it is already or the table is full. -/
theorem define_run (name : Name) :
    (define name).run assembler =
      if assembler.symbols.defines name then .error (.duplicatedLabel name) assembler
      else if !assembler.capacities.symbols.admits (assembler.symbols.entries.length + 1) then
        .error .tooManyLabels assembler
      else .ok () { assembler with symbols := assembler.symbols.add name } := by
  unfold define
  rw [EStateM.run_bind, EStateM.run_get]
  dsimp only
  rw [demand_run, demand_run]
  rfl

/-- A statement is stored unless the store is full. -/
theorem store_run (statement : Statement) :
    (store statement).run assembler =
      if !assembler.capacities.statements.admits (assembler.statements.size + 1) then
        .error .tooManyInstructions assembler
      else .ok () { assembler with statements := assembler.statements.push statement } := by
  unfold store
  rw [EStateM.run_bind, EStateM.run_get]
  dsimp only
  rw [demand_run]
  rfl

/-- Bytes of constants are stored all together, unless the pool has no room for all of them. -/
theorem storeBytes_run (bytes : List UInt8) :
    (storeBytes bytes).run assembler =
      if !assembler.capacities.constants.admits (assembler.pool.size + bytes.length) then
        .error .dataTooLarge assembler
      else .ok () { assembler with pool := assembler.pool ++ bytes } := by
  unfold storeBytes
  rw [EStateM.run_bind, EStateM.run_get]
  dsimp only
  rw [demand_run]
  rfl

/-- A store that may be full within capacities, and is not without. -/
theorem curbs_full {cause : Cause} (hcause : cause.isLimit = true) (full : Bool)
    (assembler changed : Assembler) :
    Curbs (if full then .error cause assembler else .ok () changed) (.ok () changed.unbounded) := by
  cases full with
  | false => exact .ok () changed
  | true => exact .full hcause _ _

/-- A definition is curbed: the names that it looks at are the same without capacities. -/
theorem curbed_define (name : Name) : Curbed (define name) := by
  intro assembler
  rw [define_run, define_run]
  cases h : assembler.symbols.defines name with
  | false =>
    have hfresh : assembler.unbounded.symbols.defines name = false := h
    rw [hfresh]
    exact curbs_full rfl _ _ _
  | true =>
    have hdefined : assembler.unbounded.symbols.defines name = true := h
    rw [hdefined]
    exact .error _ assembler

/-- Storing a statement is curbed. -/
theorem curbed_store (statement : Statement) : Curbed (store statement) := by
  intro assembler
  rw [store_run, store_run]
  exact curbs_full rfl _ _ _

/-- Storing constants is curbed. -/
theorem curbed_storeBytes (bytes : List UInt8) : Curbed (storeBytes bytes) := by
  intro assembler
  rw [storeBytes_run, storeBytes_run]
  exact curbs_full rfl _ _ _

/-- An item of constants is read, and then its bytes are stored. -/
theorem curbed_constant (width : Width) (item : List Char) : Curbed (constant width item) :=
  (curbed_ofExcept _).bind fun pieces => curbed_forM pieces curbed_storeBytes

/-! ## Lines -/

/-- A label is defined, and then its statement is stored. -/
theorem curbed_label (number : Nat) (word rest : List Char) : Curbed (label number word rest) :=
  (curbed_ofExcept _).bind fun name => (curbed_define name).bind fun _ => curbed_store _

/-- An operation is read, and then its statement is stored. -/
theorem curbed_operation (number : Nat) (opcode : Opcode) (word rest : List Char) :
    Curbed (operation number opcode word rest) :=
  (curbed_ofExcept _).bind curbed_store

/-- A directive is read, its symbol is defined, and then its constants or its statement are stored.
-/
theorem curbed_directive (number : Nat) (word rest : List Char) :
    Curbed (directive number word rest) := by
  refine (curbed_ofExcept _).bind fun ⟨name, ⟨storage, width⟩, values⟩ => ?_
  refine (curbed_define name).bind fun _ => ?_
  cases storage with
  | ram => exact (curbed_ofExcept _).bind fun count => curbed_store _
  | rom =>
    refine curbed_get_bind (fun before => ?_) fun _ => rfl
    refine (curbed_forM _ fun item => curbed_constant width _).bind fun _ => ?_
    exact curbed_get_bind (fun after => curbed_store _) fun _ => rfl

/-- A line comes to the same within capacities as without, unless a store is full. -/
theorem curbed_line (number : Nat) (text : List Char) : Curbed (line number text) := by
  unfold line
  dsimp only
  split
  · exact curbed_pure ()
  · split
    · exact curbed_label _ _ _
    · split
      · exact curbed_operation _ _ _ _
      · split
        · exact curbed_directive _ _ _
        · exact curbed_throw .notAValidLine

end Parse

namespace Assembler

/-! ## Sources -/

/-- The relation of what parsing comes to within capacities to what it comes to without: the same,
unless it is refused because a store is full, at a line that is not after the one that is refused
without capacities. -/
inductive CurbsParsing :
    EStateM.Result Error Assembler Unit → EStateM.Result Error Assembler Unit → Prop where
  | ok (assembler : Assembler) : CurbsParsing (.ok () assembler) (.ok () assembler.unbounded)
  | error (error : Error) (assembler : Assembler) :
      CurbsParsing (.error error assembler) (.error error assembler.unbounded)
  | full {line : Nat} {cause : Cause} (h : cause.isLimit = true) (assembler : Assembler)
      (result : EStateM.Result Error Assembler Unit)
      (hline : ∀ error, error? result = some error → ∀ line', error.line? = some line' →
        line ≤ line') :
      CurbsParsing (.error ⟨some line, cause⟩ assembler) result

/-- Lines are refused at their own numbers. -/
theorem lt_of_parseLines {number : Nat} {lines : List (List Char)} {assembler : Assembler}
    {error : Error} (h : error? ((parseLines number lines).run assembler) = some error) {line : Nat}
    (hline : error.line? = some line) : number < line := by
  obtain ⟨final, hrun⟩ := exists_of_error?_eq_some h
  clear h
  induction lines generalizing number assembler with
  | nil => cases hrun
  | cons text rest ih =>
    rw [parseLines, demand_run_eq_error_iff] at hrun
    rcases hrun with ⟨-, rfl, -⟩ | ⟨-, hrun⟩
    · cases hline
    · rcases bind_run_eq_error_iff.mp hrun with hfirst | ⟨⟨⟩, _, -, hrest⟩
      · obtain ⟨cause, -, rfl⟩ := adaptExcept_run_eq_error_iff.mp hfirst
        cases hline
        exact Nat.lt_succ_self number
      · exact Nat.lt_of_succ_lt (ih hrest)

/-- A line, and then the lines after it. -/
theorem parseLines_cons_run {number : Nat} {text : List Char} {rest : List (List Char)}
    {assembler : Assembler} (hlast : number ≠ maxLine) :
    (parseLines number (text :: rest)).run assembler =
      match (Parse.line (number + 1) text).run assembler with
      | .ok () assembler' => (parseLines (number + 1) rest).run assembler'
      | .error cause assembler' => .error ⟨some (number + 1), cause⟩ assembler' := by
  rw [parseLines, if_neg hlast]
  change EStateM.run (EStateM.adaptExcept _ _ >>= _) assembler = _
  rw [EStateM.run_bind, EStateM.run_adaptExcept]
  cases (Parse.line (number + 1) text).run assembler <;> rfl

/-- Parsing goes on where the first lines have been parsed. -/
theorem parseLines_append_run {number : Nat} {front back : List (List Char)}
    {assembler before : Assembler} (h : (parseLines number front).run assembler = .ok () before) :
    (parseLines number (front ++ back)).run assembler =
      (parseLines (number + front.length) back).run before := by
  induction front generalizing number assembler with
  | nil =>
    cases h
    rfl
  | cons text front ih =>
    rw [parseLines, demand_run_eq_ok_iff] at h
    obtain ⟨⟨⟩, assembler', hline, hrest⟩ := bind_run_eq_ok_iff.mp h.2
    rw [List.cons_append, parseLines_cons_run h.1, adaptExcept_run_eq_ok_iff.mp hline,
      List.length_cons, Nat.add_comm front.length, ← Nat.add_assoc]
    exact ih hrest

/-- Parsing comes to the same within capacities, unless a store is full before a line is refused. -/
theorem curbs_parseLines (number : Nat) (lines : List (List Char)) (assembler : Assembler) :
    CurbsParsing ((parseLines number lines).run assembler)
      ((parseLines number lines).run assembler.unbounded) := by
  induction lines generalizing number assembler with
  | nil => exact .ok assembler
  | cons text rest ih =>
    by_cases hlast : number = maxLine
    · -- Out of line numbers, whatever the capacities are.
      rw [parseLines, if_pos hlast]
      exact .error _ assembler
    · have hline := Parse.curbed_line (number + 1) text assembler
      have hnext {error : Error}
          (h : error? ((parseLines number (text :: rest)).run assembler.unbounded) = some error)
          {line : Nat} (hline : error.line? = some line) : number + 1 ≤ line :=
        lt_of_parseLines h hline
      rw [parseLines_cons_run hlast] at hnext ⊢
      rw [parseLines_cons_run hlast]
      generalize (Parse.line (number + 1) text).run assembler = bounded at hline ⊢
      generalize (Parse.line (number + 1) text).run assembler.unbounded = reference
        at hline hnext ⊢
      cases hline with
      | ok _ assembler' => exact ih (number + 1) assembler'
      | error cause assembler' => exact .error _ assembler'
      | full hlimit assembler' reference =>
        -- Without capacities parsing goes on, and is not refused at a line before this one.
        exact .full hlimit assembler' _ fun error herror line hline => hnext herror hline

/-! ## What fits -/

variable {assembler : Assembler} {clauses : List (Nat × Clause)}

/-- Clauses that are added leave the capacities as they are. -/
@[simp] theorem capacities_extendAll :
    (assembler.extendAll clauses).capacities = assembler.capacities := by
  induction clauses generalizing assembler with
  | nil => rfl
  | cons entry rest ih => exact ih

/-- To add clauses and to change the capacities commute. -/
theorem extendAll_within (assembler : Assembler) (clauses : List (Nat × Clause))
    (capacities : Capacities) :
    (assembler.within capacities).extendAll clauses =
      (assembler.extendAll clauses).within capacities := by
  induction clauses generalizing assembler with
  | nil => rfl
  | cons entry rest ih => exact ih (assembler.extend entry)

/-- Adding clauses makes stores no smaller. -/
theorem WithinCapacities.of_extendAll (h : (assembler.extendAll clauses).WithinCapacities) :
    assembler.WithinCapacities := by
  obtain ⟨hstatements, hsymbols, hconstants⟩ := h
  rw [capacities_extendAll] at hstatements hsymbols hconstants
  have hnames : ((assembler.extendAll clauses).symbols.entries.map Symbol.name).length = _ :=
    congrArg List.length names_extendAll
  rw [← Array.length_toList, statements_extendAll, List.length_append] at hstatements
  rw [← Array.length_toList, pool_extendAll, List.length_append] at hconstants
  rw [List.length_append, List.length_map, List.length_map] at hnames
  rw [hnames] at hsymbols
  exact ⟨Limit.admits_of_le (Nat.le_add_right _ _) hstatements,
    Limit.admits_of_le (Nat.le_add_right _ _) hsymbols,
    Limit.admits_of_le (Nat.le_add_right _ _) hconstants⟩

variable {entry : Nat × Clause}

/-- Symbols stay distinct when the symbol of the clause is new. -/
theorem nodup_names_extend_iff (hdistinct : assembler.names.Nodup) :
    (assembler.extend entry).names.Nodup ↔
      (entry.2.defines = true → assembler.symbols.defines entry.2.name = false) := by
  unfold names extend
  dsimp only
  split
  · rename_i hdefines
    refine ⟨fun hnodup _ => ?_, fun hfresh => nodup_names_add (hfresh hdefines) hdistinct⟩
    unfold SymbolTable.add at hnodup
    rw [List.map_append, List.map_singleton, List.nodup_append] at hnodup
    unfold SymbolTable.defines
    rw [List.any_eq_false]
    intro symbol hmem heq
    exact hnodup.2.2 _ (List.mem_map_of_mem hmem) _ (List.mem_singleton_self _) (beq_iff_eq.mp heq)
  · rename_i hdefines
    exact ⟨fun _ h => absurd h hdefines, fun _ => hdistinct⟩

/-- Whether there is room for the constants of a clause, if it has any. -/
theorem admits_constants_iff (clause : Clause)
    (hroom : assembler.capacities.constants.admits assembler.pool.size = true) :
    (∀ width bytes, clause.content = .constants width bytes →
      assembler.capacities.constants.admits (assembler.pool.size + bytes.length) = true) ↔
    assembler.capacities.constants.admits
      (assembler.pool.size + clause.constants.length) = true := by
  obtain ⟨name, _ | _ | ⟨width, bytes⟩ | _⟩ := clause
  · exact ⟨fun _ => hroom, fun _ _ _ h => nomatch h⟩
  · exact ⟨fun _ => hroom, fun _ _ _ h => nomatch h⟩
  · refine ⟨fun h => h width bytes rfl, fun h => ?_⟩
    rintro _ _ ⟨⟩
    exact h
  · exact ⟨fun _ => hroom, fun _ _ _ h => nomatch h⟩

/-- A clause can be added when that leaves distinct symbols and is within capacities. -/
theorem admits_iff (hdistinct : assembler.names.Nodup) (hwithin : assembler.WithinCapacities) :
    assembler.Admits entry.2 ↔
      (assembler.extend entry).names.Nodup ∧ (assembler.extend entry).WithinCapacities := by
  have hconstants := admits_constants_iff entry.2 hwithin.constants
  have hcount : (assembler.extend entry).symbols.entries.length =
      assembler.symbols.entries.length + if entry.2.defines then 1 else 0 := by
    unfold extend
    dsimp only
    split
    · exact List.length_append
    · rfl
  have hsize : (assembler.extend entry).statements.size = assembler.statements.size + 1 :=
    Array.size_push _
  have hpool : (assembler.extend entry).pool.size =
      assembler.pool.size + entry.2.constants.length := Parse.size_pool_append ..
  rw [nodup_names_extend_iff hdistinct]
  constructor
  · rintro ⟨hfresh, hsymbols, hbytes, hstatements⟩
    refine ⟨hfresh, ?_, ?_, ?_⟩
    · rw [hsize]
      exact hstatements
    · -- A clause without a symbol is not asked for room in the table, which has not grown.
      rw [hcount]
      split
      · rename_i hdefines
        exact hsymbols hdefines
      · exact hwithin.symbols
    · rw [hpool]
      exact hconstants.mp hbytes
  · rintro ⟨hfresh, hstatements, hsymbols, hbytes⟩
    rw [hsize] at hstatements
    rw [hcount] at hsymbols
    rw [hpool] at hbytes
    refine ⟨hfresh, fun hdefines => ?_, hconstants.mpr hbytes, hstatements⟩
    rw [if_pos hdefines] at hsymbols
    exact hsymbols

/-- Clauses can be added one after the other when what they add up to has distinct symbols and is
within capacities. -/
theorem admitsAll_iff (hdistinct : assembler.names.Nodup) (hwithin : assembler.WithinCapacities) :
    assembler.AdmitsAll clauses ↔
      (assembler.extendAll clauses).names.Nodup ∧
        (assembler.extendAll clauses).WithinCapacities := by
  induction clauses generalizing assembler with
  | nil => exact ⟨fun _ => ⟨hdistinct, hwithin⟩, fun _ => trivial⟩
  | cons entry rest ih =>
    change assembler.Admits entry.2 ∧ (assembler.extend entry).AdmitsAll rest ↔
      ((assembler.extend entry).extendAll rest).names.Nodup ∧
        ((assembler.extend entry).extendAll rest).WithinCapacities
    rw [admits_iff hdistinct hwithin]
    constructor
    · rintro ⟨⟨hdistinct', hwithin'⟩, hrest⟩
      exact (ih hdistinct' hwithin').mp hrest
    · -- What holds after all clauses holds after the first one.
      rintro ⟨hdistinct', hwithin'⟩
      have hfirst : (assembler.extend entry).names.Nodup := by
        unfold names at hdistinct' ⊢
        rw [names_extendAll] at hdistinct'
        exact (List.nodup_append.mp hdistinct').1
      exact ⟨⟨hfirst, hwithin'.of_extendAll⟩,
        (ih hfirst hwithin'.of_extendAll).mpr ⟨hdistinct', hwithin'⟩⟩

/-- Empty stores are within any capacities. -/
theorem withinCapacities_empty (capacities : Capacities) : (empty capacities).WithinCapacities := by
  have hzero (limit : Limit) : limit.admits 0 = true := by
    rcases limit with _ | most
    · rfl
    · exact decide_eq_true (Nat.zero_le most)
  exact ⟨hzero _, hzero _, hzero _⟩

/-- An empty assembler admits clauses exactly if they define no symbol twice and end up within the
capacities. -/
theorem admitsAll_empty_iff {capacities : Capacities} :
    (empty capacities).AdmitsAll clauses ↔
      (ofClauses capacities clauses).names.Nodup ∧
        (ofClauses capacities clauses).WithinCapacities :=
  admitsAll_iff List.nodup_nil (withinCapacities_empty capacities)

/-- Clauses are within capacities exactly if these admit the counts of statements, of symbols and of
bytes. -/
theorem withinCapacities_ofClauses_iff {capacities : Capacities} :
    (ofClauses capacities clauses).WithinCapacities ↔
      capacities.statements.admits clauses.length = true ∧
        capacities.symbols.admits (symbolsOf clauses).length = true ∧
        capacities.constants.admits (constantsOf clauses).length = true := by
  have hcapacities : (ofClauses capacities clauses).capacities = capacities := capacities_extendAll
  have hstatements : (ofClauses capacities clauses).statements.size = clauses.length := by
    rw [← Array.length_toList, statements_ofClauses, length_statementsOf]
  have hsymbols : (ofClauses capacities clauses).symbols.entries.length =
      (symbolsOf clauses).length := by
    rw [← names_ofClauses capacities, List.length_map]
  have hconstants : (ofClauses capacities clauses).pool.size = (constantsOf clauses).length := by
    rw [← Array.length_toList, pool_ofClauses]
  rw [← hstatements, ← hsymbols, ← hconstants]
  constructor
  · rintro ⟨h, h', h''⟩
    rw [hcapacities] at h h' h''
    exact ⟨h, h', h''⟩
  · rintro ⟨h, h', h''⟩
    exact ⟨by rwa [hcapacities], by rwa [hcapacities], by rwa [hcapacities]⟩

/-! ## Builds -/

section

variable {ε σ τ α : Type}

/-- What a computation answers, without the state that it leaves. -/
def answer : EStateM.Result ε σ α → Except ε α
  | .ok value _ => .ok value
  | .error error _ => .error error

/-- What a computation comes to, with a change to the state that it leaves. -/
def leaving (change : σ → τ) : EStateM.Result ε σ α → EStateM.Result ε τ α
  | .ok value final => .ok value (change final)
  | .error error final => .error error (change final)

end

/-- What builds answer that are made one after the other. -/
def answers (assembler : Assembler) : List (Array UInt8) → List (Except Error Program)
  | [] => []
  | buffer :: rest =>
    let result := (build buffer).run assembler
    answer result :: (ending result).answers rest

/-- A build does not look at capacities. -/
theorem build_run_within (buffer : Array UInt8) (assembler : Assembler) (capacities : Capacities) :
    (build buffer).run (assembler.within capacities) =
      leaving (·.within capacities) ((build buffer).run assembler) := by
  unfold build
  rw [EStateM.run_bind, EStateM.run_bind, EStateM.run_get, EStateM.run_get]
  dsimp only [within]
  rcases (Layout.placeAll assembler.pool assembler.statements.toList).run
    (.start buffer assembler.symbols) with ⟨⟨⟩, layout⟩ | ⟨error, layout⟩
  · dsimp only
    rw [EStateM.run_bind, EStateM.run_bind, EStateM.run_set, EStateM.run_set]
    dsimp only
    rcases Layout.linkAll layout.symbols layout.placed.toList layout.buffer with error | buffer
    · rfl
    · rfl
  · rfl

/-- What builds answer does not depend on the capacities. -/
theorem answers_within (assembler : Assembler) (capacities : Capacities)
    (buffers : List (Array UInt8)) :
    (assembler.within capacities).answers buffers = assembler.answers buffers := by
  induction buffers generalizing assembler with
  | nil => rfl
  | cons buffer rest ih =>
    rw [answers, answers, build_run_within]
    cases (build buffer).run assembler with
    | ok program final => exact congrArg _ (ih final)
    | error error final => exact congrArg _ (ih final)

/-! ## Sources within capacities -/

/-- What parsing a source within the capacities of an assembler owes to parsing it without. -/
structure OnlyLimits (source : String) (assembler : Assembler) : Prop where
  /-- A source that parses without capacities parses within them when its statements, its symbols
  and its bytes of constants are no more than they admit. -/
  fits : ∀ parsed, (parse source).run assembler.unbounded = .ok () parsed →
    (succeeded ((parse source).run assembler) = true ↔
      assembler.capacities.statements.admits parsed.statements.size = true ∧
        assembler.capacities.symbols.admits parsed.symbols.entries.length = true ∧
        assembler.capacities.constants.admits parsed.pool.size = true)
  /-- What is parsed is then the same, and so is what any builds answer after that. -/
  same : ∀ parsed, (parse source).run assembler = .ok () parsed →
    (parse source).run assembler.unbounded = .ok () parsed.unbounded ∧
      ∀ buffers, parsed.answers buffers = parsed.unbounded.answers buffers
  /-- A source that is refused for another reason than a full store is refused without capacities,
  for the same reason at the same line. -/
  refused : ∀ error final, (parse source).run assembler = .error error final →
    error.cause.isLimit = false →
      (parse source).run assembler.unbounded = .error error final.unbounded
  /-- A source that is refused without capacities is refused within them, and at no later line. -/
  sooner : ∀ error final, (parse source).run assembler.unbounded = .error error final →
    ∃ error' final', (parse source).run assembler = .error error' final' ∧
      ∀ line, error.line? = some line → ∃ line' ≤ line, error'.line? = some line'

/-- Capacities only limit what is parsed, and never alter it. -/
theorem capacities_only_limit (source : String) (assembler : Assembler) :
    OnlyLimits source assembler := by
  have hcurbs : CurbsParsing ((parse source).run assembler)
      ((parse source).run assembler.unbounded) := curbs_parseLines 0 _ assembler.clear
  refine ⟨fun parsed hparsed => ?_, fun parsed hparsed => ?_, fun error final hrefused hlimit => ?_,
    fun error final hrefused => ?_⟩
  · -- Whether there is room is told from what is parsed, not from the way there: the stores only
    -- grow, so that each of them has been within its capacity if it ends up there.
    obtain ⟨hlength, clauses, hclauses, hadmits, rfl⟩ := parse_run_eq_ok_iff.mp hparsed
    obtain ⟨hdistinct, -⟩ := admitsAll_empty_iff.mp hadmits
    have hsame : ofClauses assembler.capacities clauses =
        (ofClauses .unbounded clauses).within assembler.capacities :=
      extendAll_within (empty .unbounded) clauses assembler.capacities
    constructor
    · intro hsucceeded
      obtain ⟨⟨⟩, final, hfinal⟩ := exists_of_succeeded hsucceeded
      obtain ⟨-, clauses', hclauses', hadmits', -⟩ := parse_run_eq_ok_iff.mp hfinal
      cases hclauses.symm.trans hclauses'
      obtain ⟨-, hwithin⟩ := admitsAll_empty_iff.mp hadmits'
      rw [hsame] at hwithin
      exact ⟨hwithin.statements, hwithin.symbols, hwithin.constants⟩
    · rintro ⟨hstatements, hsymbols, hconstants⟩
      have hwithin : (ofClauses assembler.capacities clauses).WithinCapacities := by
        rw [hsame]
        exact ⟨hstatements, hsymbols, hconstants⟩
      have hdistinct' : (ofClauses assembler.capacities clauses).names.Nodup := by
        rw [hsame]
        exact hdistinct
      rw [parse_run_eq_ok_iff.mpr
        ⟨hlength, clauses, hclauses, admitsAll_empty_iff.mpr ⟨hdistinct', hwithin⟩, rfl⟩]
      rfl
  · -- What is parsed within bounds is parsed in the same way without them.
    rw [hparsed] at hcurbs
    generalize (parse source).run assembler.unbounded = reference at hcurbs ⊢
    cases hcurbs with
    | ok _ => exact ⟨rfl, fun buffers => (answers_within parsed _ buffers).symm⟩
  · -- An error that is not of a capacity is there without bounds as well.
    rw [hrefused] at hcurbs
    generalize (parse source).run assembler.unbounded = reference at hcurbs ⊢
    cases hcurbs with
    | error _ _ => rfl
    | full h _ _ _ =>
      rw [h] at hlimit
      cases hlimit
  · -- What is refused without bounds is refused within them, at that line or before it.
    rw [hrefused] at hcurbs
    generalize (parse source).run assembler = bounded at hcurbs ⊢
    generalize herror : EStateM.Result.error error final = reference at hcurbs
    cases hcurbs with
    | ok _ => cases herror
    | error _ _ =>
      cases herror
      exact ⟨_, _, rfl, fun line hline => ⟨line, Nat.le_refl line, hline⟩⟩
    | full _ _ _ hline =>
      refine ⟨_, _, rfl, fun line' hline' => ⟨_, hline error ?_ line' hline', rfl⟩⟩
      rw [← herror]
      rfl

end Assembler

end RegisterMachine.Assembly
