import Mathlib.Data.List.Forall2
import RegisterMachine.Proofs.Assembly.Limits
import RegisterMachine.Proofs.Text.Reformatting

/-!
# Assemblers that mirror each other

Two sources that say the same in other words and at other lines leave assemblers with the same
symbols and constants, and with statements that differ in what no build looks at: their line
numbers, and the words of instructions (`Statement.Mirrors`, `Assembler.Mirrors`).

Computations are `Parallel` when they keep such a relation: from related states both succeed with
one value in related states, or both fail with related errors. That is so of one parallel
computation after the other (`Parallel.bind`), so of a line at two numbers (`Parse.parallel_line`),
and of the passes over the statements, whose errors name the lines that correspond
(`Assembler.parallel_build`).
-/

namespace RegisterMachine.Assembly

/-- Causes of one kind: they are the same, or name registers that differ in the case of letters
only. -/
inductive Cause.SameKind : Cause → Cause → Prop where
  | same (cause : Cause) : SameKind cause cause
  | badRegister {name name' : Name} (h : Text.SameCase name.chars name'.chars) :
      SameKind (.badRegister name) (.badRegister name')

/-- Causes of the same kind as one between them are of the same kind. -/
theorem Cause.SameKind.trans {first second third : Cause} (h : first.SameKind second)
    (h' : second.SameKind third) : first.SameKind third := by
  cases h with
  | same => exact h'
  | badRegister hcase =>
    cases h' with
    | same => exact .badRegister hcase
    | badRegister hcase' => exact .badRegister (Eq.trans hcase' hcase)

section

variable (renumber : Nat → Nat)

/-- The error is of the same kind, at the line that corresponds. -/
structure Error.Mirrors (error error' : Error) : Prop where
  line : error'.line? = error.line?.map renumber
  cause : error.cause.SameKind error'.cause

/-- The statement says the same, at the line that corresponds. An instruction may be in other
words. -/
inductive Statement.Mirrors : Statement → Statement → Prop where
  | same (statement : Statement) :
      Mirrors statement { statement with line := renumber statement.line }
  | operation (line : Nat) (name name' : Name) (opcode : Opcode) (args args' : List Name)
      (operands : List UInt8) (reference? : Option Reference) (address : UInt16) :
      Mirrors ⟨line, name, .operation opcode args operands reference?, address⟩
        ⟨renumber line, name', .operation opcode args' operands reference?, address⟩

/-- The statements say the same, and all else is the same. -/
structure Assembler.Mirrors (assembler assembler' : Assembler) : Prop where
  capacities : assembler'.capacities = assembler.capacities
  statements : List.Forall₂ (Statement.Mirrors renumber) assembler.statements.toList
    assembler'.statements.toList
  symbols : assembler'.symbols = assembler.symbols
  pool : assembler'.pool = assembler.pool

/-- The statements that have been placed say the same, and all else is the same. -/
structure Layout.Mirrors (layout layout' : Layout) : Prop where
  buffer : layout'.buffer = layout.buffer
  cursor : layout'.cursor = layout.cursor
  symbols : layout'.symbols = layout.symbols
  placed : List.Forall₂ (Statement.Mirrors renumber) layout.placed.toList layout'.placed.toList
  ramSize : layout'.ramSize = layout.ramSize
  constantsSize : layout'.constantsSize = layout.constantsSize

end

/-! ## One change after another -/

section

variable {renumber renumber' : Nat → Nat}

/-- Errors that mirror one another in a row do so at the lines that correspond after both. -/
theorem Error.Mirrors.trans {first second third : Error} (h : first.Mirrors renumber second)
    (h' : second.Mirrors renumber' third) : first.Mirrors (renumber' ∘ renumber) third := by
  refine ⟨?_, h.cause.trans h'.cause⟩
  rw [h'.line, h.line, Option.map_map]

/-- Statements that mirror one another in a row do so at the lines that correspond after both. -/
theorem Statement.Mirrors.trans {first second third : Statement} (h : first.Mirrors renumber second)
    (h' : second.Mirrors renumber' third) : first.Mirrors (renumber' ∘ renumber) third := by
  cases h with
  | same =>
    obtain ⟨line, name, body, address⟩ := first
    cases h' with
    | same => exact .same ⟨line, name, body, address⟩
    | operation => exact .operation ..
  | operation =>
    cases h' <;> exact .operation ..

/-- Lists of statements that mirror one another in a row do so as well. -/
theorem Statement.Mirrors.forall₂_trans {first second third : List Statement}
    (h : List.Forall₂ (Mirrors renumber) first second)
    (h' : List.Forall₂ (Mirrors renumber') second third) :
    List.Forall₂ (Mirrors (renumber' ∘ renumber)) first third := by
  induction h generalizing third with
  | nil =>
    cases h'
    exact .nil
  | cons hfirst _ ih =>
    cases h' with
    | cons hfirst' hrest' => exact .cons (hfirst.trans hfirst') (ih hrest')

/-- Assemblers that mirror one another in a row do so at the lines that correspond after both. -/
theorem Assembler.Mirrors.trans {first second third : Assembler} (h : first.Mirrors renumber second)
    (h' : second.Mirrors renumber' third) : first.Mirrors (renumber' ∘ renumber) third where
  capacities := h'.capacities.trans h.capacities
  statements := Statement.Mirrors.forall₂_trans h.statements h'.statements
  symbols := h'.symbols.trans h.symbols
  pool := h'.pool.trans h.pool

end

/-! ## Verdicts -/

/-- Verdicts that accept related values, or refuse for related errors. -/
inductive Concur {ε α : Type} (E : ε → ε → Prop) (V : α → α → Prop) :
    Except ε α → Except ε α → Prop where
  | ok {value value' : α} (h : V value value') : Concur E V (.ok value) (.ok value')
  | error {e e' : ε} (h : E e e') : Concur E V (.error e) (.error e')

namespace Concur

variable {ε α β : Type} {E : ε → ε → Prop} {V : α → α → Prop} {W : β → β → Prop}

/-- A verdict concurs with itself, if errors and values are related to themselves. -/
theorem refl (hE : ∀ e, E e e) (hV : ∀ value, V value value) (verdict : Except ε α) :
    Concur E V verdict verdict := by
  cases verdict with
  | ok value => exact .ok (hV value)
  | error e => exact .error (hE e)

/-- Verdicts one after the other concur if their parts do. -/
theorem bind {x x' : Except ε α} {f f' : α → Except ε β} (h : Concur E V x x')
    (hf : ∀ value value', V value value' → Concur E W (f value) (f' value')) :
    Concur E W (x >>= f) (x' >>= f') := by
  cases h with
  | ok hvalue => exact hf _ _ hvalue
  | error he => exact .error he

/-- A fold over one list, from values that are related. -/
theorem foldlM {γ : Type} {f : α → γ → Except ε α}
    (hf : ∀ item value value', V value value' → Concur E V (f value item) (f value' item))
    (items : List γ) {value value' : α} (h : V value value') :
    Concur E V (items.foldlM f value) (items.foldlM f value') := by
  induction items generalizing value value' with
  | nil => exact .ok h
  | cons item items ih =>
    rw [List.foldlM_cons, List.foldlM_cons]
    exact (hf item _ _ h).bind fun _ _ hnext => ih hnext

end Concur

/-! ## Computations -/

/-- Results that mirror each other: both have succeeded with one value, or both have failed. -/
inductive SameOutcome {ε σ α : Type} (E : ε → ε → Prop) (R : σ → σ → Prop) :
    EStateM.Result ε σ α → EStateM.Result ε σ α → Prop where
  | ok (value : α) {s s' : σ} (h : R s s') : SameOutcome E R (.ok value s) (.ok value s')
  | error {e e' : ε} (h : E e e') (s s' : σ) : SameOutcome E R (.error e s) (.error e' s')

/-- Computations whose results mirror each other when the states do that they start from. -/
def Parallel {ε σ α : Type} (E : ε → ε → Prop) (R : σ → σ → Prop) (x x' : EStateM ε σ α) : Prop :=
  ∀ s s', R s s' → SameOutcome E R (x.run s) (x'.run s')

section

variable {ε ε' σ α β : Type} {E : ε → ε → Prop} {R : σ → σ → Prop}

/-- Both results are successes with one value, or both are errors that are related. -/
theorem SameOutcome.ok_or_error {result result' : EStateM.Result ε σ α}
    (h : SameOutcome E R result result') :
    (∃ value s s', result = .ok value s ∧ result' = .ok value s' ∧ R s s') ∨
      ∃ e e' s s', result = .error e s ∧ result' = .error e' s' ∧ E e e' := by
  cases h with
  | ok value hs => exact .inl ⟨value, _, _, rfl, rfl, hs⟩
  | error he s s' => exact .inr ⟨_, _, s, s', rfl, rfl, he⟩

/-- One result mirrors another, which mirrors a third one. -/
theorem SameOutcome.trans {E' E'' : ε → ε → Prop} {R' R'' : σ → σ → Prop}
    (hE : ∀ e e' e'', E e e' → E' e' e'' → E'' e e'')
    (hR : ∀ s s' s'', R s s' → R' s' s'' → R'' s s'') {first second third : EStateM.Result ε σ α}
    (h : SameOutcome E R first second) (h' : SameOutcome E' R' second third) :
    SameOutcome E'' R'' first third := by
  cases h with
  | ok value hs =>
    cases h' with
    | ok _ hs' => exact .ok value (hR _ _ _ hs hs')
  | error he =>
    cases h' with
    | error he' => exact .error (hE _ _ _ he he') _ _

/-- A value is parallel to itself. -/
theorem parallel_pure (value : α) : Parallel E R (pure value) (pure value) :=
  fun _ _ h => .ok value h

/-- Errors that are related are parallel. -/
theorem parallel_throw {e e' : ε} (h : E e e') :
    Parallel E R (throw e : EStateM ε σ α) (throw e') :=
  fun s s' _ => .error h s s'

/-- States that are related may be set. -/
theorem parallel_set {t t' : σ} (h : R t t') :
    Parallel E R (set t : EStateM ε σ PUnit) (set t') :=
  fun _ _ _ => .ok PUnit.unit h

/-- States may be changed in ways that keep them related. -/
theorem parallel_modify {f f' : σ → σ} (h : ∀ s s', R s s' → R (f s) (f' s')) :
    Parallel E R (modify f : EStateM ε σ PUnit) (modify f') :=
  fun s s' hs => .ok PUnit.unit (h s s' hs)

/-- Parallel computations one after the other are parallel. -/
theorem Parallel.bind {x x' : EStateM ε σ α} {f f' : α → EStateM ε σ β} (h : Parallel E R x x')
    (hf : ∀ value, Parallel E R (f value) (f' value)) : Parallel E R (x >>= f) (x' >>= f') := by
  intro s s' hs
  rw [EStateM.run_bind, EStateM.run_bind]
  rcases (h s s' hs).ok_or_error with ⟨value, t, t', hrun, hrun', ht⟩ | ⟨e, e', t, t', hrun, hrun', he⟩
  · rw [hrun, hrun']
    exact hf value t t' ht
  · rw [hrun, hrun']
    exact .error he t t'

/-- To look at the state is parallel if what follows is, from states that are related. -/
theorem parallel_get_bind {f f' : σ → EStateM ε σ β}
    (hf : ∀ s s', R s s' → Parallel E R (f s) (f' s')) : Parallel E R (get >>= f) (get >>= f') :=
  fun s s' hs => hf s s' hs s s' hs

/-- Verdicts that concur are parallel if what follows them is. -/
theorem parallel_ofExcept_bind {V : α → α → Prop} {verdict verdict' : Except ε α}
    {f f' : α → EStateM ε σ β} (h : Concur E V verdict verdict')
    (hf : ∀ value value', V value value' → Parallel E R (f value) (f' value')) :
    Parallel E R (MonadExcept.ofExcept verdict >>= f) (MonadExcept.ofExcept verdict' >>= f') := by
  cases h with
  | ok hvalue => exact hf _ _ hvalue
  | error he => exact fun s s' _ => .error he s s'

/-- Computations are parallel behind a demand that both make. -/
theorem parallel_demand {c c' : Prop} [Decidable c] [Decidable c'] {e : ε}
    {rest rest' : Unit → EStateM ε σ β} (hc : c' ↔ c) (he : E e e)
    (h : Parallel E R (rest ()) (rest' ())) :
    Parallel E R (if c then throw e >>= rest else rest ())
      (if c' then throw e >>= rest' else rest' ()) := by
  by_cases hdemand : c
  · rw [if_pos hdemand, if_pos (hc.mpr hdemand)]
    exact fun s s' _ => .error he s s'
  · rw [if_neg hdemand, if_neg (mt hc.mp hdemand)]
    exact h

/-- Parallel computations for each of some items are parallel. -/
theorem parallel_forM {γ : Type} {f f' : γ → EStateM ε σ PUnit} (items : List γ)
    (hf : ∀ item, Parallel E R (f item) (f' item)) :
    Parallel E R (forM items f) (forM items f') := by
  induction items with
  | nil => exact parallel_pure PUnit.unit
  | cons item items ih =>
    rw [List.forM_cons, List.forM_cons]
    exact (hf item).bind fun _ => ih

/-- Parallel computations stay parallel with their errors reworded in ways that keep them related.
-/
theorem Parallel.adaptExcept {E' : ε' → ε' → Prop} {x x' : EStateM ε σ α} {f f' : ε → ε'}
    (h : Parallel E R x x') (hf : ∀ e e', E e e' → E' (f e) (f' e')) :
    Parallel E' R (x.adaptExcept f) (x'.adaptExcept f') := by
  intro s s' hs
  rw [EStateM.run_adaptExcept, EStateM.run_adaptExcept]
  rcases (h s s' hs).ok_or_error with ⟨value, t, t', hrun, hrun', ht⟩ | ⟨e, e', t, t', hrun, hrun', he⟩
  · rw [hrun, hrun']
    exact .ok value ht
  · rw [hrun, hrun']
    exact .error (hf e e' he) t t'

end

variable {renumber : Nat → Nat}

/-! ## Lines -/

namespace Parse

/-- Computations within a line that keep assemblers mirroring each other. -/
abbrev Mirrored {α : Type} (renumber : Nat → Nat) (x x' : Parse α) : Prop :=
  Parallel Cause.SameKind (Assembler.Mirrors renumber) x x'

/-- A definition looks at the symbols alone. -/
theorem mirrored_define (name : Name) : Mirrored renumber (define name) (define name) := by
  refine parallel_get_bind fun assembler assembler' h => ?_
  refine parallel_demand (by rw [h.symbols]) (.same _) ?_
  refine parallel_demand (by rw [h.symbols, h.capacities]) (.same _) (parallel_set ?_)
  exact ⟨h.capacities, h.statements, congrArg (SymbolTable.add · name) h.symbols, h.pool⟩

/-- Statements that mirror each other may be stored. -/
theorem mirrored_store {statement statement' : Statement}
    (hstatement : statement.Mirrors renumber statement') :
    Mirrored renumber (store statement) (store statement') := by
  refine parallel_get_bind fun assembler assembler' h => ?_
  have hsize : assembler'.statements.size = assembler.statements.size := h.statements.length_eq.symm
  refine parallel_demand (by rw [hsize, h.capacities]) (.same _) (parallel_set ?_)
  refine ⟨h.capacities, ?_, h.symbols, h.pool⟩
  rw [Array.toList_push, Array.toList_push]
  exact List.rel_append h.statements (.cons hstatement .nil)

/-- Constants do not know the line that they come from. -/
theorem mirrored_storeBytes (bytes : List UInt8) :
    Mirrored renumber (storeBytes bytes) (storeBytes bytes) := by
  refine parallel_get_bind fun assembler assembler' h => ?_
  refine parallel_demand (by rw [h.pool, h.capacities]) (.same _) (parallel_set ?_)
  exact ⟨h.capacities, h.statements, h.symbols, by rw [h.pool]⟩

/-- A verdict that both sides come to. -/
theorem mirrored_ofExcept_bind {α β : Type} (verdict : Except Cause α) {f f' : α → Parse β}
    (hf : ∀ value, Mirrored renumber (f value) (f' value)) :
    Mirrored renumber (MonadExcept.ofExcept verdict >>= f) (MonadExcept.ofExcept verdict >>= f') := by
  have h : Concur Cause.SameKind Eq verdict verdict := .refl .same (fun _ => rfl) verdict
  refine parallel_ofExcept_bind h ?_
  rintro value _ rfl
  exact hf value

/-- An item of constants does not know its line. -/
theorem mirrored_constant (width : Width) (item : List Char) :
    Mirrored renumber (constant width item) (constant width item) :=
  mirrored_ofExcept_bind _ fun pieces => parallel_forM pieces mirrored_storeBytes

/-- A label may have another number. -/
theorem mirrored_label (number : Nat) (word rest : List Char) :
    Mirrored renumber (label number word rest) (label (renumber number) word rest) :=
  mirrored_ofExcept_bind _ fun name =>
    (mirrored_define name).bind fun _ => mirrored_store (.same _)

/-- The instructions need not be in the same words. -/
theorem mirrored_operation {number number' : Nat} {opcode : Opcode}
    {word word' rest rest' : List Char}
    (h : Concur Cause.SameKind (Statement.Mirrors renumber)
      (Statement.operation number opcode word rest)
      (Statement.operation number' opcode word' rest')) :
    Mirrored renumber (operation number opcode word rest) (operation number' opcode word' rest') :=
  parallel_ofExcept_bind h fun _ _ => mirrored_store

/-- An operation reads the same at another number. -/
theorem concur_operation (number : Nat) (opcode : Opcode) (word rest : List Char) :
    Concur Cause.SameKind (Statement.Mirrors renumber) (Statement.operation number opcode word rest)
      (Statement.operation (renumber number) opcode word rest) := by
  unfold Statement.operation
  cases Operands.ofWords opcode (Text.fields rest) with
  | error cause => exact .error (.same cause)
  | ok operands =>
    cases Name.ofChars word with
    | error cause => exact .error (.same cause)
    | ok name => exact .ok (.same _)

/-- A directive may have another number. -/
theorem mirrored_directive (number : Nat) (word rest : List Char) :
    Mirrored renumber (directive number word rest) (directive (renumber number) word rest) := by
  refine mirrored_ofExcept_bind _ fun ⟨name, ⟨storage, width⟩, values⟩ => ?_
  refine (mirrored_define name).bind fun _ => ?_
  cases storage with
  | ram => exact mirrored_ofExcept_bind _ fun count => mirrored_store (.same _)
  | rom =>
    refine parallel_get_bind fun before before' hbefore => ?_
    refine (parallel_forM _ fun item => mirrored_constant width _).bind fun _ => ?_
    refine parallel_get_bind fun after after' hafter => ?_
    -- The stretch of the pool is the same, as the pool is.
    rw [hbefore.pool, hafter.pool]
    exact mirrored_store (.same _)

/-- A line says the same at another number. -/
theorem mirrored_line (number : Nat) (text : List Char) :
    Mirrored renumber (line number text) (line (renumber number) text) := by
  unfold line
  dsimp only
  split
  · exact parallel_pure ()
  · split
    · exact mirrored_label _ _ _
    · split
      · exact mirrored_operation (concur_operation _ _ _ _)
      · split
        · exact mirrored_directive _ _ _
        · exact parallel_throw (.same .notAValidLine)

end Parse

/-! ## Builds -/

/-- An error about a statement is reported at the line of that statement. -/
theorem Statement.Mirrors.error {statement statement' : Statement}
    (h : statement.Mirrors renumber statement') {cause cause' : Cause}
    (hcause : cause.SameKind cause') :
    Error.Mirrors renumber ⟨some statement.line, cause⟩ ⟨some statement'.line, cause'⟩ := by
  cases h <;> exact ⟨rfl, hcause⟩

namespace Layout

/-- A layout may take a statement for another one that says the same. -/
abbrev Mirrored {α : Type} (renumber : Nat → Nat) (x x' : EStateM Cause Layout α) : Prop :=
  Parallel Cause.SameKind (Layout.Mirrors renumber) x x'

/-- Bytes are emitted at the cursor, which is the same. -/
theorem mirrored_emit (bytes : List UInt8) : Mirrored renumber (emit bytes) (emit bytes) := by
  refine parallel_get_bind fun layout layout' h => ?_
  refine parallel_demand (by rw [h.buffer, h.cursor]) (.same _) (parallel_set ?_)
  rw [h.buffer, h.cursor]
  exact ⟨rfl, rfl, h.symbols, h.placed, h.ramSize, h.constantsSize⟩

/-- Statements that mirror each other are located at the same address. -/
theorem mirrored_locate {statement statement' : Statement}
    (hstatement : statement.Mirrors renumber statement') :
    Mirrored renumber (locate statement) (locate statement') := by
  refine parallel_get_bind fun layout layout' h => ?_
  refine parallel_demand (by rw [h.cursor]) (.same _) ?_
  rw [h.cursor]
  refine (parallel_set ⟨h.buffer, rfl, h.symbols, ?_, h.ramSize, h.constantsSize⟩).bind
    fun _ => parallel_pure _
  rw [Array.toList_push, Array.toList_push]
  refine List.rel_append h.placed (.cons ?_ .nil)
  cases hstatement with
  | same => exact .same _
  | operation => exact .operation ..

/-- An address is assigned in tables that are the same. -/
theorem mirrored_assign (name : Name) (address : UInt16) :
    Mirrored renumber (assign name address) (assign name address) := by
  refine parallel_modify fun layout layout' h => ?_
  exact ⟨h.buffer, h.cursor, congrArg (SymbolTable.assign · name address) h.symbols, h.placed,
    h.ramSize, h.constantsSize⟩

/-- A statement is placed as one that says the same. -/
theorem mirrored_place (pool : Array UInt8) {statement statement' : Statement}
    (h : statement.Mirrors renumber statement') :
    Mirrored renumber (place pool statement) (place pool statement') := by
  refine (mirrored_locate h).bind fun address => ?_
  cases h with
  | operation => exact mirrored_emit _
  | same =>
    obtain ⟨line, name, body, _⟩ := statement
    cases body with
    | operation opcode args operands reference? => exact mirrored_emit _
    | label => exact mirrored_assign _ _
    | reservation width count =>
      refine (mirrored_assign _ _).bind fun _ => parallel_modify fun layout layout' h => ?_
      exact ⟨h.buffer, h.cursor, h.symbols, h.placed, by rw [h.ramSize], h.constantsSize⟩
    | constants width first length =>
      refine (mirrored_assign _ _).bind fun _ => parallel_demand Iff.rfl (.same _) ?_
      refine (mirrored_emit _).bind fun _ => parallel_modify fun layout layout' h => ?_
      exact ⟨h.buffer, h.cursor, h.symbols, h.placed, h.ramSize, by rw [h.constantsSize]⟩

/-- Statements that mirror each other are placed in parallel. -/
theorem parallel_placeAll (pool : Array UInt8) {statements statements' : List Statement}
    (h : List.Forall₂ (Statement.Mirrors renumber) statements statements') :
    Parallel (Error.Mirrors renumber) (Layout.Mirrors renumber) (placeAll pool statements)
      (placeAll pool statements') := by
  induction h with
  | nil => exact parallel_pure ()
  | cons hfirst _ ih =>
    refine Parallel.bind ?_ fun _ => ih
    exact (mirrored_place pool hfirst).adaptExcept fun _ _ hcause => hfirst.error hcause

/-- The fields that refer to symbols are the same, whatever the words around them. -/
theorem link_mirrors {statement statement' : Statement} (h : statement.Mirrors renumber statement')
    (symbols : SymbolTable) (buffer : Array UInt8) :
    link symbols buffer statement' = link symbols buffer statement := by
  cases h with
  | same => rfl
  | operation line name name' opcode args args' operands reference? address =>
    cases reference? <;> rfl

/-- Statements that mirror each other are linked to the same bytes, or refused at lines that
correspond. -/
theorem concur_linkAll (symbols : SymbolTable) {statements statements' : List Statement}
    (h : List.Forall₂ (Statement.Mirrors renumber) statements statements') (buffer : Array UInt8) :
    Concur (Error.Mirrors renumber) Eq (linkAll symbols statements buffer)
      (linkAll symbols statements' buffer) := by
  induction h generalizing buffer with
  | nil => exact .ok rfl
  | cons hfirst _ ih =>
    unfold linkAll
    rw [link_mirrors hfirst]
    split
    · exact .error (hfirst.error (.same _))
    · exact ih _

end Layout

namespace Assembler

/-- The addresses of two layouts, adopted. -/
theorem Mirrors.adopt {assembler assembler' : Assembler} {layout layout' : Layout}
    (h : assembler.Mirrors renumber assembler') (hlayout : layout.Mirrors renumber layout') :
    (assembler.adopt layout).Mirrors renumber (assembler'.adopt layout') := by
  refine ⟨h.capacities, ?_, hlayout.symbols, h.pool⟩
  have hplaced : layout'.placed.size = layout.placed.size := hlayout.placed.length_eq.symm
  have hsize : assembler'.statements.size = assembler.statements.size := h.statements.length_eq.symm
  unfold Assembler.adopt
  dsimp only
  rw [Array.toList_append, Array.toList_append, Array.toList_extract, Array.toList_extract, hplaced,
    hsize]
  exact List.rel_append hlayout.placed (List.forall₂_take _ (List.forall₂_drop _ h.statements))

/-- What has been parsed to the same is laid out to the same. -/
theorem parallel_build (buffer : Array UInt8) :
    Parallel (Error.Mirrors renumber) (Assembler.Mirrors renumber) (build buffer) (build buffer) := by
  refine parallel_get_bind fun assembler assembler' h => ?_
  have hstart : Layout.Mirrors renumber (.start buffer assembler.symbols)
      (.start buffer assembler'.symbols) := ⟨rfl, rfl, h.symbols, .nil, rfl, rfl⟩
  have hplaced := Layout.parallel_placeAll assembler.pool h.statements _ _ hstart
  rw [h.pool]
  rcases hplaced.ok_or_error with ⟨⟨⟩, layout, layout', hrun, hrun', hlayout⟩ |
    ⟨error, error', layout, layout', hrun, hrun', herror⟩
  · rw [hrun, hrun']
    refine (parallel_set (h.adopt hlayout)).bind fun _ => ?_
    have hlinked := Layout.concur_linkAll layout.symbols hlayout.placed layout.buffer
    rw [hlayout.symbols, hlayout.buffer, hlayout.cursor, hlayout.ramSize, hlayout.constantsSize]
    revert hlinked
    generalize Layout.linkAll layout.symbols layout.placed.toList layout.buffer = linked
    generalize Layout.linkAll layout.symbols layout'.placed.toList layout.buffer = linked'
    intro hlinked
    cases hlinked with
    | error herror => exact parallel_throw herror
    | ok hbuffer =>
      subst hbuffer
      exact parallel_pure _
  · -- The addresses given so far are adopted before the error is thrown, and nothing is asked of
    -- them.
    rw [hrun, hrun']
    exact fun _ _ _ => .error herror _ _

end Assembler

end RegisterMachine.Assembly
