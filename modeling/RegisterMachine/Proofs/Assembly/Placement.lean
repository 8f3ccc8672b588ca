import Mathlib.Algebra.GroupWithZero.Nat
import RegisterMachine.Assembly.Layout
import RegisterMachine.Proofs.Computations

/-!
# Placing statements

What the first pass does to a layout, as a function of the statement (`Layout.advance`), and when it
does it (`Layout.Fits`). A statement is placed with its draft: its bytes as they are before fields
that refer to symbols are filled. The pass over all statements succeeds exactly when every statement
fits after the ones before it (`placeAll_run_eq_ok_iff`), and it leaves what folding `advance`
gives. From the fold come the addresses as lengths of what stands before (`located`), the buffer
with the drafts laid over its start, and the symbols with the addresses of the statements that
define them.
-/

namespace RegisterMachine.Assembly

namespace Statement

/-- The bytes that a statement is placed with, where fields that refer to symbols are still open. -/
def draft (pool : Array UInt8) (statement : Statement) : List UInt8 :=
  match statement.body with
  | .operation opcode _ operands _ => opcode.byte :: operands
  | .constants _ first length => (pool.extract first (first + length)).toList
  | .label | .reservation _ _ => []

/-- Whether a statement defines a symbol. -/
def defines (statement : Statement) : Bool :=
  match statement.body with
  | .operation _ _ _ _ => false
  | .label | .constants _ _ _ | .reservation _ _ => true

/-- The bytes of RAM that a statement reserves. -/
def reserved (statement : Statement) : Nat :=
  match statement.body with
  | .reservation width count => count.toNat * width.bytes
  | .operation _ _ _ _ | .label | .constants _ _ _ => 0

/-- The bytes of constants that a statement emits. -/
def emitted (statement : Statement) : Nat :=
  match statement.body with
  | .constants _ _ length => length
  | .operation _ _ _ _ | .label | .reservation _ _ => 0

/-- The constants of a statement are in the pool. -/
def InPool (pool : Array UInt8) (statement : Statement) : Prop :=
  match statement.body with
  | .constants _ first length => first + length ≤ pool.size
  | .operation _ _ _ _ | .label | .reservation _ _ => True

end Statement

namespace Layout

/-- The layout after a statement has been placed. -/
def advance (pool : Array UInt8) (layout : Layout) (statement : Statement) : Layout where
  buffer := Bytes.overwrite layout.buffer layout.cursor (statement.draft pool)
  cursor := layout.cursor + (statement.draft pool).length
  symbols :=
    if statement.defines then layout.symbols.assign statement.name (UInt16.ofNat layout.cursor)
    else layout.symbols
  placed := layout.placed.push { statement with address := UInt16.ofNat layout.cursor }
  ramSize := layout.ramSize + statement.reserved
  constantsSize := layout.constantsSize + statement.emitted

/-- A statement can be placed: it starts at a 16-bit address, its constants are in the pool, and it
ends within the buffer. -/
structure Fits (pool : Array UInt8) (layout : Layout) (statement : Statement) : Prop where
  start : layout.cursor ≤ 0xFFFF
  inPool : statement.InPool pool
  stop : layout.cursor + (statement.draft pool).length ≤ layout.buffer.size

/-! ## One statement -/

/-- Bytes are emitted exactly if the buffer has room for them, and then they are laid over it at the
cursor. -/
theorem emit_run_eq_ok_iff {bytes : List UInt8} {layout layout' : Layout} :
    (emit bytes).run layout = .ok () layout' ↔
      layout.cursor + bytes.length ≤ layout.buffer.size ∧
        layout' = { layout with
          buffer := Bytes.overwrite layout.buffer layout.cursor bytes
          cursor := layout.cursor + bytes.length } := by
  unfold emit
  rw [get_bind_run_eq_ok_iff, demand_run_eq_ok_iff, Nat.not_lt, EStateM.run_set]
  constructor
  · rintro ⟨h, ⟨⟩⟩
    exact ⟨h, rfl⟩
  · rintro ⟨h, rfl⟩
    exact ⟨h, rfl⟩

/-- A statement is located exactly if the cursor is a 16-bit address, and then that is its address.
-/
theorem locate_run_eq_ok_iff {statement : Statement} {address : UInt16} {layout layout' : Layout} :
    (locate statement).run layout = .ok address layout' ↔
      layout.cursor ≤ 0xFFFF ∧ address = UInt16.ofNat layout.cursor ∧
        layout' = { layout with placed := layout.placed.push { statement with address } } := by
  unfold locate
  rw [get_bind_run_eq_ok_iff, demand_run_eq_ok_iff, Nat.not_lt]
  constructor
  · rintro ⟨h, ⟨⟩⟩
    exact ⟨h, rfl, rfl⟩
  · rintro ⟨h, rfl, rfl⟩
    exact ⟨h, rfl⟩

/-- A statement is placed when it fits, and then the layout advances. -/
theorem place_run_eq_ok_iff {pool : Array UInt8} {statement : Statement} {layout layout' : Layout}
    (h : layout.cursor ≤ layout.buffer.size) :
    (place pool statement).run layout = .ok () layout' ↔
      layout.Fits pool statement ∧ layout' = layout.advance pool statement := by
  obtain ⟨line, name, body, address⟩ := statement
  unfold place
  rw [bind_run_eq_ok_iff]
  simp only [locate_run_eq_ok_iff]
  cases body with
  | operation opcode args operands reference? =>
    simp only [emit_run_eq_ok_iff]
    constructor
    · rintro ⟨_, _, ⟨hstart, rfl, rfl⟩, hstop, rfl⟩
      exact ⟨⟨hstart, trivial, hstop⟩, rfl⟩
    · rintro ⟨⟨hstart, -, hstop⟩, rfl⟩
      exact ⟨_, _, ⟨hstart, rfl, rfl⟩, hstop, rfl⟩
  | label =>
    -- Nothing is emitted, so the end is where the cursor has been all along.
    constructor
    · rintro ⟨_, _, ⟨hstart, rfl, rfl⟩, ⟨⟩⟩
      exact ⟨⟨hstart, trivial, h⟩, rfl⟩
    · rintro ⟨⟨hstart, -, -⟩, rfl⟩
      exact ⟨_, _, ⟨hstart, rfl, rfl⟩, rfl⟩
  | reservation width count =>
    constructor
    · rintro ⟨_, _, ⟨hstart, rfl, rfl⟩, ⟨⟩⟩
      exact ⟨⟨hstart, trivial, h⟩, rfl⟩
    · rintro ⟨⟨hstart, -, -⟩, rfl⟩
      exact ⟨_, _, ⟨hstart, rfl, rfl⟩, rfl⟩
  | constants width first length =>
    constructor
    · rintro ⟨_, _, ⟨hstart, rfl, rfl⟩, hrun⟩
      rw [bind_run_eq_ok_iff] at hrun
      obtain ⟨_, _, ⟨⟩, hrun⟩ := hrun
      rw [demand_run_eq_ok_iff, bind_run_eq_ok_iff] at hrun
      obtain ⟨hpool, _, _, hemit, ⟨⟩⟩ := hrun
      rw [emit_run_eq_ok_iff] at hemit
      obtain ⟨hstop, rfl⟩ := hemit
      exact ⟨⟨hstart, Nat.le_of_not_lt hpool, hstop⟩, rfl⟩
    · rintro ⟨⟨hstart, hpool, hstop⟩, rfl⟩
      refine ⟨_, _, ⟨hstart, rfl, rfl⟩, ?_⟩
      rw [bind_run_eq_ok_iff]
      refine ⟨(), _, rfl, ?_⟩
      rw [demand_run_eq_ok_iff, bind_run_eq_ok_iff]
      exact ⟨Nat.not_lt.mpr hpool, (), _, emit_run_eq_ok_iff.mpr ⟨hstop, rfl⟩, rfl⟩

/-! ## All statements -/

/-- Statements can be placed one after the other. -/
def FitsAll (pool : Array UInt8) (layout : Layout) : List Statement → Prop
  | [] => True
  | statement :: rest =>
    layout.Fits pool statement ∧ (layout.advance pool statement).FitsAll pool rest

/-- The layout after statements have been placed one after the other. -/
def advanceAll (pool : Array UInt8) (layout : Layout) (statements : List Statement) : Layout :=
  statements.foldl (advance pool) layout

/-- To place a statement keeps the size of the buffer. -/
@[simp] theorem size_buffer_advance (pool : Array UInt8) (layout : Layout) (statement : Statement) :
    (layout.advance pool statement).buffer.size = layout.buffer.size :=
  Bytes.size_overwrite ..

/-- The first pass succeeds when all statements fit, and then the layout advances over them. -/
theorem placeAll_run_eq_ok_iff {pool : Array UInt8} {statements : List Statement}
    {layout layout' : Layout} (h : layout.cursor ≤ layout.buffer.size) :
    (placeAll pool statements).run layout = .ok () layout' ↔
      layout.FitsAll pool statements ∧ layout' = layout.advanceAll pool statements := by
  induction statements generalizing layout with
  | nil =>
    constructor
    · rintro ⟨⟩
      exact ⟨trivial, rfl⟩
    · rintro ⟨-, rfl⟩
      rfl
  | cons statement rest ih =>
    rw [placeAll, bind_run_eq_ok_iff]
    simp only [adaptExcept_run_eq_ok_iff, place_run_eq_ok_iff h]
    constructor
    · rintro ⟨_, _, ⟨hfits, rfl⟩, hrest⟩
      rw [ih (by rw [size_buffer_advance]; exact hfits.stop)] at hrest
      exact ⟨⟨hfits, hrest.1⟩, hrest.2⟩
    · rintro ⟨⟨hfits, hrest⟩, rfl⟩
      refine ⟨(), _, ⟨hfits, rfl⟩, ?_⟩
      rw [ih (by rw [size_buffer_advance]; exact hfits.stop)]
      exact ⟨hrest, rfl⟩

/-! ## What a pass leaves -/

/-- The drafts of statements one after the other. -/
def drafts (pool : Array UInt8) (statements : List Statement) : List UInt8 :=
  statements.flatMap (Statement.draft pool)

/-- No statements have no bytes. -/
@[simp] theorem drafts_nil (pool : Array UInt8) : drafts pool [] = [] := rfl

/-- The draft of the first statement stands before those of the others. -/
@[simp] theorem drafts_cons (pool : Array UInt8) (statement : Statement) (rest : List Statement) :
    drafts pool (statement :: rest) = statement.draft pool ++ drafts pool rest :=
  List.flatMap_cons

/-- The drafts of statements one after the other stand one after the other. -/
@[simp] theorem drafts_append (pool : Array UInt8) (front back : List Statement) :
    drafts pool (front ++ back) = drafts pool front ++ drafts pool back :=
  List.flatMap_append

/-- Statements with the addresses they get from a cursor on. -/
def located (pool : Array UInt8) (cursor : Nat) : List Statement → List Statement
  | [] => []
  | statement :: rest =>
    { statement with address := UInt16.ofNat cursor } ::
      located pool (cursor + (statement.draft pool).length) rest

/-- A table with the addresses of the symbols that located statements define. -/
def assignAll (symbols : SymbolTable) (statements : List Statement) : SymbolTable :=
  statements.foldl (fun symbols statement =>
    if statement.defines then symbols.assign statement.name statement.address else symbols) symbols

variable (pool : Array UInt8) (layout : Layout) (statements : List Statement)

/-- There are as many statements located as there are. -/
@[simp] theorem length_located (cursor : Nat) :
    (located pool cursor statements).length = statements.length := by
  induction statements generalizing cursor with
  | nil => rfl
  | cons statement rest ih => rw [located, List.length_cons, ih, List.length_cons]

/-- The cursor moves by the drafts. -/
theorem cursor_advanceAll :
    (layout.advanceAll pool statements).cursor =
      layout.cursor + (drafts pool statements).length := by
  induction statements generalizing layout with
  | nil => rfl
  | cons statement rest ih =>
    rw [advanceAll, List.foldl_cons, ← advanceAll, ih, drafts_cons, List.length_append,
      ← Nat.add_assoc]
    rfl

/-- The statements are located from the cursor on. -/
theorem placed_advanceAll :
    (layout.advanceAll pool statements).placed =
      layout.placed ++ (located pool layout.cursor statements).toArray := by
  induction statements generalizing layout with
  | nil => exact (Array.append_empty).symm
  | cons statement rest ih =>
    rw [advanceAll, List.foldl_cons, ← advanceAll, ih, located]
    simp [advance]

/-- The symbols have the addresses of the statements that define them. -/
theorem symbols_advanceAll :
    (layout.advanceAll pool statements).symbols =
      assignAll layout.symbols (located pool layout.cursor statements) := by
  induction statements generalizing layout with
  | nil => rfl
  | cons statement rest ih =>
    rw [advanceAll, List.foldl_cons, ← advanceAll, ih]
    rfl

/-- What grows by an amount with each statement grows by the sum of these amounts. -/
theorem sum_advanceAll {total : Layout → Nat} {amount : Statement → Nat}
    (h : ∀ layout statement, total (layout.advance pool statement) =
      total layout + amount statement) :
    total (layout.advanceAll pool statements) = total layout + (statements.map amount).sum := by
  induction statements generalizing layout with
  | nil => rfl
  | cons statement rest ih =>
    rw [advanceAll, List.foldl_cons, ← advanceAll, ih, h, List.map_cons, List.sum_cons,
      Nat.add_assoc]

/-- The bytes that the statements reserve are added up. -/
theorem ramSize_advanceAll :
    (layout.advanceAll pool statements).ramSize =
      layout.ramSize + (statements.map Statement.reserved).sum :=
  sum_advanceAll pool layout statements fun _ _ => rfl

/-- The bytes of constants that the statements emit are added up. -/
theorem constantsSize_advanceAll :
    (layout.advanceAll pool statements).constantsSize =
      layout.constantsSize + (statements.map Statement.emitted).sum :=
  sum_advanceAll pool layout statements fun _ _ => rfl

variable {pool layout statements}

/-- The pass lays the drafts over the buffer from the cursor on. -/
theorem buffer_advanceAll {front old back : List UInt8}
    (h : layout.buffer.toList = front ++ old ++ back) (hfront : front.length = layout.cursor)
    (hold : old.length = (drafts pool statements).length) :
    (layout.advanceAll pool statements).buffer.toList =
      front ++ drafts pool statements ++ back := by
  induction statements generalizing layout front old with
  | nil =>
    obtain rfl := List.length_eq_zero_iff.mp hold
    exact h
  | cons statement rest ih =>
    rw [drafts_cons, List.length_append] at hold
    have hsplit : old = old.take (statement.draft pool).length ++
        old.drop (statement.draft pool).length := (List.take_append_drop ..).symm
    have htake : (statement.draft pool).length =
        (old.take (statement.draft pool).length).length := by
      rw [List.length_take]
      omega
    -- The first draft takes the place of as many old bytes and then counts as what stands in front.
    have hadvance : (layout.advance pool statement).buffer.toList =
        (front ++ statement.draft pool) ++ old.drop (statement.draft pool).length ++ back := by
      rw [hsplit, ← List.append_assoc, List.append_assoc] at h
      rw [advance, ← hfront, Bytes.toList_overwrite_append h htake, ← List.append_assoc]
    rw [advanceAll, List.foldl_cons, ← advanceAll,
      ih hadvance (by rw [List.length_append, hfront]; rfl) (by rw [List.length_drop]; omega),
      drafts_cons, List.append_assoc front]

/-- A statement is located after the drafts of those before it. -/
theorem getElem?_located (pool : Array UInt8) (cursor : Nat) (statements : List Statement)
    (i : Nat) :
    (located pool cursor statements)[i]? = statements[i]?.map fun statement =>
      { statement with
        address := UInt16.ofNat (cursor + (drafts pool (statements.take i)).length) } := by
  induction statements generalizing cursor i with
  | nil => rfl
  | cons statement rest ih =>
    rcases i with _ | i
    · rfl
    · rw [located, List.getElem?_cons_succ, List.getElem?_cons_succ, ih, List.take_succ_cons,
        drafts_cons, List.length_append, Nat.add_assoc]

/-! ## The addresses of symbols -/

/-- The symbols that statements define, in order. -/
def defined (statements : List Statement) : List Name :=
  (statements.filter Statement.defines).map Statement.name

/-- Locating statements changes none of their names. -/
@[simp] theorem defined_located (pool : Array UInt8) (cursor : Nat) (statements : List Statement) :
    defined (located pool cursor statements) = defined statements := by
  induction statements generalizing cursor with
  | nil => rfl
  | cons statement rest ih =>
    have hrest := ih (cursor + (statement.draft pool).length)
    unfold defined at hrest ⊢
    rw [located, List.filter_cons, List.filter_cons]
    have hdefines : Statement.defines { statement with address := UInt16.ofNat cursor } =
        statement.defines := rfl
    rw [hdefines]
    split
    · rw [List.map_cons, List.map_cons, hrest]
    · exact hrest

/-- Assigning addresses defines no symbols. -/
theorem map_name_assignAll (symbols : SymbolTable) (statements : List Statement) :
    (assignAll symbols statements).entries.map Symbol.name = symbols.entries.map Symbol.name := by
  induction statements generalizing symbols with
  | nil => rfl
  | cons statement rest ih =>
    unfold assignAll
    rw [List.foldl_cons, ← assignAll, ih]
    split
    · rw [SymbolTable.map_name_assign]
    · rfl

/-- A symbol that no statement defines keeps its address. -/
theorem address?_assignAll_of_not_mem {symbols : SymbolTable} {statements : List Statement}
    {name : Name} (h : name ∉ defined statements) :
    (assignAll symbols statements).address? name.chars = symbols.address? name.chars := by
  induction statements generalizing symbols with
  | nil => rfl
  | cons statement rest ih =>
    unfold assignAll
    rw [List.foldl_cons, ← assignAll]
    unfold defined at h
    rw [List.filter_cons] at h
    split at h
    · rename_i hdefines
      rw [List.map_cons, List.mem_cons, not_or] at h
      have hne : statement.name.chars ≠ name.chars := fun heq =>
        h.1 (Name.chars_injective heq).symm
      rw [ih h.2, if_pos hdefines, SymbolTable.address?_assign, if_neg hne]
    · rename_i hdefines
      rw [ih h, if_neg hdefines]

/-- A symbol that one statement defines gets the address of that statement. -/
theorem address?_assignAll_of_mem {symbols : SymbolTable} {statements : List Statement}
    {statement : Statement} (hnodup : (defined statements).Nodup) (hmem : statement ∈ statements)
    (hdefines : statement.defines = true)
    (h : (symbols.address? statement.name.chars).isSome) :
    (assignAll symbols statements).address? statement.name.chars = some statement.address := by
  induction statements generalizing symbols with
  | nil => exact absurd hmem (List.not_mem_nil)
  | cons first rest ih =>
    unfold assignAll
    rw [List.foldl_cons, ← assignAll]
    unfold defined at hnodup
    rw [List.filter_cons] at hnodup
    rcases List.mem_cons.mp hmem with rfl | hmem
    · -- The statements after it define other symbols.
      rw [if_pos hdefines, List.map_cons, List.nodup_cons] at hnodup
      rw [if_pos hdefines, address?_assignAll_of_not_mem hnodup.1, SymbolTable.address?_assign,
        if_pos rfl]
      obtain ⟨old, hold⟩ := Option.isSome_iff_exists.mp h
      rw [hold, Option.map_some]
    · -- The first statement may assign another symbol, and then this one stays in the table.
      have hrest : (defined rest).Nodup := by
        split at hnodup
        · exact (List.nodup_cons.mp hnodup).2
        · exact hnodup
      refine ih hrest hmem ?_
      split
      · rw [SymbolTable.address?_assign]
        split
        · rw [Option.isSome_map]
          exact h
        · exact h
      · exact h

/-! ## When statements fit -/

/-- Statements fit when each of them does after the drafts of those before it. -/
theorem fitsAll_iff :
    layout.FitsAll pool statements ↔
      ∀ front statement back, statements = front ++ statement :: back →
        layout.cursor + (drafts pool front).length ≤ 0xFFFF ∧ statement.InPool pool ∧
        layout.cursor + (drafts pool front).length + (statement.draft pool).length ≤
          layout.buffer.size := by
  induction statements generalizing layout with
  | nil => simp [FitsAll]
  | cons statement rest ih =>
    rw [FitsAll, ih]
    constructor
    · -- A split is at the first statement or in the rest, where the cursor has advanced.
      rintro ⟨⟨hstart, hpool, hstop⟩, hrest⟩ front statement' back h
      cases front with
      | nil =>
        rw [List.nil_append, List.cons.injEq] at h
        obtain ⟨rfl, rfl⟩ := h
        exact ⟨hstart, hpool, hstop⟩
      | cons first front =>
        rw [List.cons_append, List.cons.injEq] at h
        obtain ⟨rfl, rfl⟩ := h
        have hfits := hrest front statement' back rfl
        rw [size_buffer_advance, advance] at hfits
        rw [drafts_cons, List.length_append, ← Nat.add_assoc]
        exact hfits
    · intro h
      obtain ⟨hstart, hpool, hstop⟩ := h [] statement rest rfl
      refine ⟨⟨hstart, hpool, hstop⟩, ?_⟩
      rintro front statement' back rfl
      have hfits := h (statement :: front) statement' back rfl
      rw [drafts_cons, List.length_append, ← Nat.add_assoc] at hfits
      rw [size_buffer_advance]
      exact hfits

end Layout

end RegisterMachine.Assembly
