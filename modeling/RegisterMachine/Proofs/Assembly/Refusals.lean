import RegisterMachine.Proofs.Computations
import RegisterMachine.Proofs.Assembly.Linking

/-!
# Builds that are refused

A build whose statements keep to the pool and to their own operands fails in two ways. The first
pass stops at the first statement for which there is no room (`build_run_of_not_fits`), and the
second one at the first statement that refers to a symbol which is not defined
(`build_run_of_not_resolves`). Otherwise the build succeeds, so there is no third way
(`build_run_cases`).

Whatever a build comes to, it changes nothing but addresses (`unplaced_build`). Those that it has
given until it fails stay.
-/

namespace RegisterMachine.Assembly

/-- The bytes of the image that a statement takes. -/
def Statement.size (statement : Statement) : Nat :=
  match statement.body with
  | .operation _ _ operands _ => operands.length + 1
  | .constants _ _ length => length
  | .label | .reservation _ _ => 0

/-- The draft of a statement has its size, since its constants are in the pool. -/
theorem Statement.length_draft {pool : Array UInt8} {statement : Statement}
    (h : statement.InPool pool) : (statement.draft pool).length = statement.size := by
  obtain ⟨line, name, ⟨opcode, args, operands, reference?⟩ | _ | ⟨width, first, length⟩ | _,
    address⟩ := statement
  · exact List.length_cons
  · rfl
  · have hinside : first + length ≤ pool.size := h
    change (pool.extract first (first + length)).toList.length = length
    rw [Array.length_toList, Array.size_extract]
    omega
  · rfl

namespace Layout

/-- The bytes of the image that statements take one after the other. -/
def extent (statements : List Statement) : Nat :=
  (statements.map Statement.size).sum

/-- The drafts of statements have the extent of the statements. -/
theorem length_drafts {pool : Array UInt8} {statements : List Statement}
    (h : ∀ statement ∈ statements, statement.InPool pool) :
    (drafts pool statements).length = extent statements := by
  unfold drafts extent
  rw [List.length_flatMap]
  congr 1
  exact List.map_congr_left fun statement hmem => Statement.length_draft (h statement hmem)

/-! ## The first pass -/

/-- The layout that a statement leaves for which there is no room: it and the symbol it defines have
their address where they start at one. -/
def refused (layout : Layout) (statement : Statement) : Layout :=
  if layout.cursor ≤ 0xFFFF then
    { layout with
      placed := layout.placed.push { statement with address := UInt16.ofNat layout.cursor }
      symbols :=
        if statement.defines then layout.symbols.assign statement.name (UInt16.ofNat layout.cursor)
        else layout.symbols }
  else layout

/-- Bytes are refused exactly if the buffer has no room for them, and then nothing is written. -/
theorem emit_run_eq_error_iff {bytes : List UInt8} {layout layout' : Layout} {cause : Cause} :
    (emit bytes).run layout = .error cause layout' ↔
      ¬ layout.cursor + bytes.length ≤ layout.buffer.size ∧ cause = .programTooLarge ∧
        layout' = layout := by
  unfold emit
  rw [get_bind_run_eq_error_iff, demand_run_eq_error_iff, Nat.not_le]
  constructor
  · rintro (h | ⟨-, ⟨⟩⟩)
    exact h
  · exact .inl

/-- A statement for which there is no room is refused. -/
theorem place_run_of_not_fits {pool : Array UInt8} {statement : Statement} {layout : Layout}
    (h : layout.cursor ≤ layout.buffer.size) (hpool : statement.InPool pool)
    (hfits : ¬ layout.Fits pool statement) :
    (place pool statement).run layout = .error .programTooLarge (layout.refused statement) := by
  obtain ⟨line, name, body, address⟩ := statement
  unfold place refused
  rw [bind_run_eq_error_iff]
  by_cases hstart : layout.cursor ≤ 0xFFFF
  · -- The statement has its address, so it is its bytes that do not fit.
    rw [if_pos hstart]
    refine .inr ⟨_, _, locate_run_eq_ok_iff.mpr ⟨hstart, rfl, rfl⟩, ?_⟩
    cases body with
    | operation opcode args operands reference? =>
      exact emit_run_eq_error_iff.mpr ⟨fun hstop => hfits ⟨hstart, hpool, hstop⟩, rfl, rfl⟩
    | label => exact absurd ⟨hstart, hpool, h⟩ hfits
    | reservation width count => exact absurd ⟨hstart, hpool, h⟩ hfits
    | constants width first length =>
      refine bind_run_eq_error_iff.mpr (.inr ⟨(), _, rfl, ?_⟩)
      refine demand_run_eq_error_iff.mpr (.inr ⟨Nat.not_lt.mpr hpool, ?_⟩)
      refine bind_run_eq_error_iff.mpr (.inl (emit_run_eq_error_iff.mpr ⟨?_, rfl, rfl⟩))
      exact fun hstop => hfits ⟨hstart, hpool, hstop⟩
  · -- There is no address for the statement.
    rw [if_neg hstart]
    left
    unfold locate
    rw [get_bind_run_eq_error_iff, demand_run_eq_error_iff]
    exact .inl ⟨Nat.lt_of_not_le hstart, rfl, rfl⟩

/-- Where statements do not fit, there is a first one. -/
theorem exists_of_not_fitsAll {pool : Array UInt8} {layout : Layout} {statements : List Statement}
    (h : ¬ layout.FitsAll pool statements) :
    ∃ front statement back, statements = front ++ statement :: back ∧
      layout.FitsAll pool front ∧ ¬ (layout.advanceAll pool front).Fits pool statement := by
  induction statements generalizing layout with
  | nil => exact absurd trivial h
  | cons statement rest ih =>
    by_cases hfits : layout.Fits pool statement
    · obtain ⟨front, statement', back, rfl, hfront, hrefused⟩ := ih fun hrest => h ⟨hfits, hrest⟩
      exact ⟨statement :: front, statement', back, rfl, ⟨hfits, hfront⟩, hrefused⟩
    · exact ⟨[], statement, rest, rfl, trivial, hfits⟩

/-- To place statements keeps the size of the buffer. -/
theorem size_buffer_advanceAll (pool : Array UInt8) (layout : Layout)
    (statements : List Statement) :
    (layout.advanceAll pool statements).buffer.size = layout.buffer.size := by
  induction statements generalizing layout with
  | nil => rfl
  | cons statement rest ih => exact (ih _).trans (size_buffer_advance pool layout statement)

/-- The first pass stops at the first statement that does not fit. -/
theorem placeAll_run_of_not_fits {pool : Array UInt8} {front back : List Statement}
    {statement : Statement} {layout : Layout} (h : layout.cursor ≤ layout.buffer.size)
    (hfront : layout.FitsAll pool front) (hpool : statement.InPool pool)
    (hfits : ¬ (layout.advanceAll pool front).Fits pool statement) :
    (placeAll pool (front ++ statement :: back)).run layout =
      .error ⟨some statement.line, .programTooLarge⟩
        ((layout.advanceAll pool front).refused statement) := by
  induction front generalizing layout with
  | nil =>
    refine bind_run_eq_error_iff.mpr (.inl ?_)
    exact adaptExcept_run_eq_error_iff.mpr ⟨_, place_run_of_not_fits h hpool hfits, rfl⟩
  | cons first front ih =>
    obtain ⟨hfirst, hfront⟩ := hfront
    refine bind_run_eq_error_iff.mpr (.inr ⟨(), layout.advance pool first, ?_, ?_⟩)
    · exact adaptExcept_run_eq_ok_iff.mpr ((place_run_eq_ok_iff h).mpr ⟨hfirst, rfl⟩)
    · exact ih (by rw [size_buffer_advance]; exact hfirst.stop) hfront hfits

/-! ## The second pass -/

/-- Statements are located behind the drafts of those before them. -/
theorem located_append (pool : Array UInt8) (cursor : Nat) (front back : List Statement) :
    located pool cursor (front ++ back) =
      located pool cursor front ++ located pool (cursor + (drafts pool front).length) back := by
  induction front generalizing cursor with
  | nil => rfl
  | cons statement front ih =>
    rw [List.cons_append, located, located, ih, drafts_cons, List.length_append, Nat.add_assoc]
    rfl

/-- The second pass goes on where its first statements have been linked. -/
theorem linkAll_append {symbols : SymbolTable} {front back : List Statement}
    {buffer linked : Array UInt8} (h : linkAll symbols front buffer = .ok linked) :
    linkAll symbols (front ++ back) buffer = linkAll symbols back linked := by
  induction front generalizing buffer with
  | nil =>
    cases h
    rfl
  | cons statement front ih =>
    rw [List.cons_append, linkAll]
    rw [linkAll] at h
    rcases hlink : link symbols buffer statement with cause | linked'
    · rw [hlink] at h
      cases h
    · rw [hlink] at h
      exact ih h

/-- A statement whose symbol has no address is refused. -/
theorem link_of_address?_eq_none {symbols : SymbolTable} {buffer : Array UInt8}
    {statement : Statement} {reference : Reference}
    (hreference : statement.reference? = some reference)
    (h : symbols.address? reference.symbol.chars = none) (address : UInt16) :
    link symbols buffer { statement with address } = .error (.labelNotFound reference.symbol) := by
  obtain ⟨line, name, ⟨opcode, args, operands, reference?⟩ | _ | _ | _, address⟩ := statement
  · cases hreference
    unfold link
    simp only [h]
  · cases hreference
  · cases hreference
  · cases hreference

end Layout

namespace Assembler

/-! ## Builds -/

/-- The statements of an assembler keep to its pool and to their own operands. -/
structure Sound (assembler : Assembler) : Prop where
  inPool : ∀ statement ∈ assembler.statements.toList, statement.InPool assembler.pool
  encloses : ∀ statement ∈ assembler.statements.toList, statement.Encloses

/-- There is room for a statement after others: it starts at a 16-bit address and ends within a
buffer of the given size. -/
def HasRoom (size : Nat) (front : List Statement) (statement : Statement) : Prop :=
  Layout.extent front ≤ 0xFFFF ∧ Layout.extent front + statement.size ≤ size

variable {assembler : Assembler} {buffer : Array UInt8} {front back : List Statement}
  {statement : Statement}

/-- The constants of every statement are in the pool. -/
theorem Sound.inPool_of_split (h : assembler.Sound)
    (hsplit : assembler.statements.toList = front ++ statement :: back) :
    (∀ statement ∈ front, statement.InPool assembler.pool) ∧ statement.InPool assembler.pool := by
  have hall := h.inPool
  rw [hsplit, List.forall_mem_append, List.forall_mem_cons] at hall
  exact ⟨hall.1, hall.2.1⟩

/-- The first pass finds that a statement fits when there is room for it. -/
theorem fits_start_iff (h : assembler.Sound)
    (hsplit : assembler.statements.toList = front ++ statement :: back) :
    ((Layout.start buffer assembler.symbols).advanceAll assembler.pool front).Fits assembler.pool
      statement ↔ HasRoom buffer.size front statement := by
  obtain ⟨hfront, hpool⟩ := h.inPool_of_split hsplit
  have hcursor : ((Layout.start buffer assembler.symbols).advanceAll assembler.pool front).cursor =
      Layout.extent front := by
    rw [Layout.cursor_advanceAll, Layout.length_drafts hfront]
    exact Nat.zero_add _
  have hsize : ((Layout.start buffer assembler.symbols).advanceAll assembler.pool
      front).buffer.size = buffer.size := by
    rw [Layout.size_buffer_advanceAll]
    rfl
  unfold HasRoom
  rw [← Statement.length_draft hpool, ← hcursor, ← hsize]
  exact ⟨fun hfits => ⟨hfits.start, hfits.stop⟩, fun hroom => ⟨hroom.1, hpool, hroom.2⟩⟩

/-- The first pass gets to a statement when there is room for all before it. -/
theorem fitsAll_start_iff (h : assembler.Sound)
    (hsplit : assembler.statements.toList = front ++ back) :
    (Layout.start buffer assembler.symbols).FitsAll assembler.pool front ↔
      ∀ before statement after, front = before ++ statement :: after →
        HasRoom buffer.size before statement := by
  rw [Layout.fitsAll_iff]
  refine forall_congr' fun before => forall_congr' fun statement => forall_congr' fun after =>
    forall_congr' fun hfront => ?_
  have hinner : assembler.statements.toList = before ++ statement :: (after ++ back) := by
    rw [hsplit, hfront, List.append_assoc, List.cons_append]
  obtain ⟨hbefore, hpool⟩ := h.inPool_of_split hinner
  unfold HasRoom
  rw [Layout.length_drafts hbefore, Statement.length_draft hpool]
  change 0 + _ ≤ _ ∧ _ ∧ 0 + _ + _ ≤ _ ↔ _
  rw [Nat.zero_add, and_iff_right hpool]
  exact Iff.rfl

/-- A program fits exactly if there is room for each statement after those before it. -/
theorem fits_iff (h : assembler.Sound) :
    assembler.Fits buffer.size ↔
      ∀ front statement back, assembler.statements.toList = front ++ statement :: back →
        HasRoom buffer.size front statement := by
  rw [← fitsAll_start_iff h (List.append_nil _).symm, Layout.fitsAll_iff]
  change _ ↔ ∀ front statement back, _ → 0 + _ ≤ _ ∧ _ ∧ 0 + _ + _ ≤ _
  simp only [Nat.zero_add]
  exact Iff.rfl

/-- Where there is room for every statement, the first pass places them all. -/
theorem placeAll_run_of_fits (h : assembler.Sound) (hfits : assembler.Fits buffer.size) :
    (Layout.placeAll assembler.pool assembler.statements.toList).run
      (.start buffer assembler.symbols) = .ok () (assembler.placed buffer) := by
  refine (Layout.placeAll_run_eq_ok_iff (Nat.zero_le _)).mpr ⟨?_, rfl⟩
  exact (fitsAll_start_iff h (List.append_nil _).symm).mpr ((fits_iff h).mp hfits)

/-- The first pass is refused at the first statement for which there is no room. -/
theorem placeAll_run_of_not_fits (h : assembler.Sound)
    (hsplit : assembler.statements.toList = front ++ statement :: back)
    (hfront : (Layout.start buffer assembler.symbols).FitsAll assembler.pool front)
    (hfits : ¬ ((Layout.start buffer assembler.symbols).advanceAll assembler.pool front).Fits
      assembler.pool statement) :
    (Layout.placeAll assembler.pool assembler.statements.toList).run
      (.start buffer assembler.symbols) = .error ⟨some statement.line, .programTooLarge⟩
        (((Layout.start buffer assembler.symbols).advanceAll assembler.pool
          front).refused statement) := by
  rw [hsplit]
  exact Layout.placeAll_run_of_not_fits (Nat.zero_le _) hfront (h.inPool_of_split hsplit).2 hfits

/-- The second pass is refused at the first statement whose symbol is not defined. -/
theorem linkAll_placed_of_not_resolves (h : assembler.Sound) (hfits : assembler.Fits buffer.size)
    (hsplit : assembler.statements.toList = front ++ statement :: back)
    (hfront : ∀ statement ∈ front, statement.Resolves assembler.settled.symbols)
    {reference : Reference} (hreference : statement.reference? = some reference)
    (hnone : assembler.settled.symbols.address? reference.symbol.chars = none) :
    Layout.linkAll assembler.settled.symbols
        (Layout.located assembler.pool 0 assembler.statements.toList)
        (assembler.placed buffer).buffer =
      .error ⟨some statement.line, .labelNotFound reference.symbol⟩ := by
  have hbuffer := buffer_placed hfits
  rw [hsplit, Layout.drafts_append, ← List.append_assoc, List.append_assoc] at hbuffer
  -- The statements before it are linked, and they leave it to be linked next.
  obtain ⟨linked, hlinked⟩ : ∃ linked, Layout.linkAll assembler.settled.symbols
      (Layout.located assembler.pool 0 front) (assembler.placed buffer).buffer = .ok linked := by
    refine ⟨_, (Layout.linkAll_eq_ok_iff hbuffer List.length_nil ?_ ?_).mpr
      ⟨hfront, List.toList_toArray⟩⟩
    · intro before statement' after hbefore
      rw [Nat.zero_add]
      refine (hfits before statement' (after ++ statement :: back) ?_).1
      rw [hsplit, hbefore, List.append_assoc, List.cons_append]
    · intro statement' hmem
      refine h.encloses statement' ?_
      rw [hsplit]
      exact List.mem_append_left _ hmem
  rw [hsplit, Layout.located_append, Layout.linkAll_append hlinked, Layout.located,
    Layout.linkAll, Layout.link_of_address?_eq_none hreference hnone _]

/-- A build is refused at the first statement for which there is no room. -/
theorem build_run_of_not_fits (h : assembler.Sound)
    (hsplit : assembler.statements.toList = front ++ statement :: back)
    (hfront : (Layout.start buffer assembler.symbols).FitsAll assembler.pool front)
    (hfits : ¬ ((Layout.start buffer assembler.symbols).advanceAll assembler.pool front).Fits
      assembler.pool statement) :
    (build buffer).run assembler = .error ⟨some statement.line, .programTooLarge⟩
      (assembler.adopt (((Layout.start buffer assembler.symbols).advanceAll assembler.pool
        front).refused statement)) := by
  unfold build
  rw [get_bind_run_eq_error_iff, placeAll_run_of_not_fits h hsplit hfront hfits]
  rfl

/-- A build for which there is room is refused at the first statement whose symbol is not
defined. -/
theorem build_run_of_not_resolves (h : assembler.Sound) (hfits : assembler.Fits buffer.size)
    (hsplit : assembler.statements.toList = front ++ statement :: back)
    (hfront : ∀ statement ∈ front, statement.Resolves assembler.settled.symbols)
    {reference : Reference} (hreference : statement.reference? = some reference)
    (hnone : assembler.settled.symbols.address? reference.symbol.chars = none) :
    (build buffer).run assembler =
      .error ⟨some statement.line, .labelNotFound reference.symbol⟩ assembler.settled := by
  unfold build
  rw [get_bind_run_eq_error_iff, placeAll_run_of_fits h hfits]
  simp only [adopt_placed, symbols_placed, placed_placed]
  rw [bind_run_eq_error_iff,
    linkAll_placed_of_not_resolves h hfits hsplit hfront hreference hnone]
  exact .inr ⟨(), _, rfl, rfl⟩

/-- Where not all symbols are defined, there is a first statement whose symbol is not. -/
theorem exists_first_of_not_resolves {symbols : SymbolTable} {statements : List Statement}
    (h : ¬ ∀ statement ∈ statements, statement.Resolves symbols) :
    ∃ front statement back reference, statements = front ++ statement :: back ∧
      (∀ statement ∈ front, statement.Resolves symbols) ∧
      statement.reference? = some reference ∧
      symbols.address? reference.symbol.chars = none := by
  classical
  have hsome : (statements.find? fun statement => ¬ statement.Resolves symbols).isSome := by
    rw [List.find?_isSome]
    simpa using h
  obtain ⟨statement, hfind⟩ := Option.isSome_iff_exists.mp hsome
  obtain ⟨hnot, front, back, hsplit, hfront⟩ := List.find?_eq_some_iff_append.mp hfind
  have hunresolved : ¬ statement.Resolves symbols := of_decide_eq_true hnot
  unfold Statement.Resolves at hunresolved
  simp only [Classical.not_forall, Option.not_isSome_iff_eq_none] at hunresolved
  obtain ⟨reference, hreference, hnone⟩ := hunresolved
  exact ⟨front, statement, back, reference, hsplit, by simpa using hfront, hreference, hnone⟩

/-- Every build is one of these: it succeeds, it is refused at the first statement for which there
is no room, or at the first one whose symbol is not defined. -/
theorem build_run_cases (h : assembler.Sound) (buffer : Array UInt8) :
    (∃ front statement back, assembler.statements.toList = front ++ statement :: back ∧
      (Layout.start buffer assembler.symbols).FitsAll assembler.pool front ∧
      ¬ ((Layout.start buffer assembler.symbols).advanceAll assembler.pool front).Fits
        assembler.pool statement) ∨
    assembler.Fits buffer.size ∧
      ((∀ statement ∈ assembler.statements.toList,
        statement.Resolves assembler.settled.symbols) ∨
      ∃ front statement back reference, assembler.statements.toList = front ++ statement :: back ∧
        (∀ statement ∈ front, statement.Resolves assembler.settled.symbols) ∧
        statement.reference? = some reference ∧
        assembler.settled.symbols.address? reference.symbol.chars = none) := by
  by_cases hfits : (Layout.start buffer assembler.symbols).FitsAll assembler.pool
      assembler.statements.toList
  · refine .inr ⟨(fits_iff h).mpr ((fitsAll_start_iff h (List.append_nil _).symm).mp hfits), ?_⟩
    by_cases hresolves : ∀ statement ∈ assembler.statements.toList,
        statement.Resolves assembler.settled.symbols
    · exact .inl hresolves
    · exact .inr (exists_first_of_not_resolves hresolves)
  · exact .inl (Layout.exists_of_not_fitsAll hfits)

/-- The first pass finds the constants of every statement, so it is refused for lack of room
alone. -/
theorem cause_of_placeAll (h : assembler.Sound) {error : Error} {layout : Layout}
    (hrun : (Layout.placeAll assembler.pool assembler.statements.toList).run
      (.start buffer assembler.symbols) = .error error layout) :
    error.cause = .programTooLarge := by
  rcases build_run_cases h buffer with ⟨front, statement, back, hsplit, hfront, hfits⟩ | ⟨hfits, -⟩
  · cases hrun.symm.trans (placeAll_run_of_not_fits h hsplit hfront hfits)
    rfl
  · cases hrun.symm.trans (placeAll_run_of_fits h hfits)

/-- The second pass finds the place of every field, so it is refused for a symbol that is not
defined alone. -/
theorem cause_of_linkAll (h : assembler.Sound) {error : Error} {layout : Layout}
    (hplace : (Layout.placeAll assembler.pool assembler.statements.toList).run
      (.start buffer assembler.symbols) = .ok () layout)
    (hlink : Layout.linkAll layout.symbols layout.placed.toList layout.buffer = .error error) :
    ∃ name, error.cause = .labelNotFound name := by
  rcases build_run_cases h buffer with ⟨front, statement, back, hsplit, hfront, hfits⟩ |
    ⟨hfits, hresolves | ⟨front, statement, back, reference, hsplit, hfront, hreference, hnone⟩⟩
  · cases hplace.symm.trans (placeAll_run_of_not_fits h hsplit hfront hfits)
  · cases hplace.symm.trans (placeAll_run_of_fits h hfits)
    rw [symbols_placed, placed_placed] at hlink
    cases hlink.symm.trans ((linkAll_placed_eq_ok_iff hfits h.encloses).mpr ⟨hresolves, rfl⟩)
  · cases hplace.symm.trans (placeAll_run_of_fits h hfits)
    rw [symbols_placed, placed_placed] at hlink
    cases hlink.symm.trans
      (linkAll_placed_of_not_resolves h hfits hsplit hfront hreference hnone)
    exact ⟨reference.symbol, rfl⟩

/-- So a build is refused for one of these two reasons. -/
theorem cause_of_build (h : assembler.Sound) {error : Error} {final : Assembler}
    (hrun : (build buffer).run assembler = .error error final) :
    error.cause = .programTooLarge ∨ ∃ name, error.cause = .labelNotFound name := by
  rcases build_run_cases h buffer with ⟨front, statement, back, hsplit, hfront, hfits⟩ |
    ⟨hfits, hresolves | ⟨front, statement, back, reference, hsplit, hfront, hreference, hnone⟩⟩
  · cases hrun.symm.trans (build_run_of_not_fits h hsplit hfront hfits)
    exact .inl rfl
  · cases hrun.symm.trans ((build_run_eq_ok_iff h.encloses).mpr ⟨hfits, hresolves, rfl, rfl⟩)
  · cases hrun.symm.trans (build_run_of_not_resolves h hfits hsplit hfront hreference hnone)
    exact .inr ⟨reference.symbol, rfl⟩

end Assembler

/-! ## What a build leaves -/

/-- A statement without its address. -/
def Statement.unplaced (statement : Statement) : Statement :=
  { statement with address := 0 }

/-- A table without the addresses of its symbols. -/
def SymbolTable.unplaced (table : SymbolTable) : SymbolTable :=
  ⟨table.entries.map fun symbol => { symbol with address := 0 }⟩

/-- An assembler without the addresses that builds have given. -/
def Assembler.unplaced (assembler : Assembler) : Assembler :=
  { assembler with
    statements := assembler.statements.map Statement.unplaced
    symbols := assembler.symbols.unplaced }

/-- An address that is assigned does not show in a table without addresses. -/
@[simp] theorem SymbolTable.unplaced_assign (table : SymbolTable) (name : Name)
    (address : UInt16) : (table.assign name address).unplaced = table.unplaced := by
  unfold unplaced assign
  rw [List.map_map]
  congr 1
  refine List.map_congr_left fun symbol _ => ?_
  rw [Function.comp_apply]
  split <;> rfl

namespace Layout

/-- The addresses that the first pass assigns do not show in a table without addresses. -/
theorem unplaced_assignAll (symbols : SymbolTable) (statements : List Statement) :
    (assignAll symbols statements).unplaced = symbols.unplaced := by
  induction statements generalizing symbols with
  | nil => rfl
  | cons statement rest ih =>
    unfold assignAll
    rw [List.foldl_cons, ← assignAll, ih]
    split
    · exact SymbolTable.unplaced_assign ..
    · rfl

/-- To locate statements gives them addresses and changes nothing else. -/
theorem map_unplaced_located (pool : Array UInt8) (cursor : Nat) (statements : List Statement) :
    (located pool cursor statements).map Statement.unplaced =
      statements.map Statement.unplaced := by
  induction statements generalizing cursor with
  | nil => rfl
  | cons statement rest ih =>
    rw [located, List.map_cons, List.map_cons, ih]
    rfl

/-- A layout has placed some statements, and its symbols differ from those of a table by their
addresses alone. -/
structure HasPlaced (layout : Layout) (symbols : SymbolTable) (statements : List Statement) :
    Prop where
  placed : layout.placed.toList.map Statement.unplaced = statements.map Statement.unplaced
  symbols : layout.symbols.unplaced = symbols.unplaced

/-- The first pass over statements has placed them. -/
theorem hasPlaced_advanceAll (pool buffer : Array UInt8) (symbols : SymbolTable)
    (statements : List Statement) :
    ((start buffer symbols).advanceAll pool statements).HasPlaced symbols statements := by
  constructor
  · rw [placed_advanceAll, Array.toList_append]
    exact map_unplaced_located pool 0 statements
  · rw [symbols_advanceAll]
    exact unplaced_assignAll _ _

/-- A statement that is refused has been placed, or nothing has been done with it. -/
theorem HasPlaced.refused {layout : Layout} {symbols : SymbolTable} {front : List Statement}
    (h : layout.HasPlaced symbols front) (statement : Statement) :
    (layout.refused statement).HasPlaced symbols (front ++ [statement]) ∨
      (layout.refused statement).HasPlaced symbols front := by
  unfold Layout.refused
  split
  · left
    constructor
    · dsimp only
      rw [Array.toList_push, List.map_append, List.map_append, h.placed]
      rfl
    · dsimp only
      split
      · rw [SymbolTable.unplaced_assign, h.symbols]
      · exact h.symbols
  · exact .inr h

end Layout

namespace Assembler

variable {assembler : Assembler} {buffer : Array UInt8}

/-- Adopting a layout of the first statements changes nothing but addresses. -/
theorem unplaced_adopt {layout : Layout} {front back : List Statement}
    (h : layout.HasPlaced assembler.symbols front)
    (hsplit : assembler.statements.toList = front ++ back) :
    (assembler.adopt layout).unplaced = assembler.unplaced := by
  have hlength : layout.placed.size = front.length := by
    have hmap := congrArg List.length h.placed
    rwa [List.length_map, List.length_map, Array.length_toList] at hmap
  -- The statements that are placed differ in their addresses, and those behind them are kept.
  have hstatements : (assembler.adopt layout).statements.map Statement.unplaced =
      assembler.statements.map Statement.unplaced := by
    unfold adopt
    apply Array.toList_inj.mp
    dsimp only
    rw [Array.toList_map, Array.toList_map, Array.toList_append, List.map_append, h.placed, hsplit,
      Array.toList_extract, hsplit, hlength, List.extract_eq_take_drop, List.drop_left,
      List.map_append]
    congr 2
    rw [List.take_of_length_le]
    rw [← Array.length_toList, hsplit, List.length_append]
    omega
  unfold unplaced
  rw [hstatements, show (assembler.adopt layout).symbols.unplaced = _ from h.symbols]
  rfl

/-- A build gives addresses and changes nothing else. -/
theorem unplaced_settled (assembler : Assembler) :
    assembler.settled.unplaced = assembler.unplaced := by
  rw [← adopt_placed assembler #[]]
  exact unplaced_adopt (Layout.hasPlaced_advanceAll ..) (List.append_nil _).symm

/-- A build changes nothing but addresses, whether it succeeds or not. -/
theorem unplaced_build (h : assembler.Sound) (buffer : Array UInt8) :
    (ending ((build buffer).run assembler)).unplaced = assembler.unplaced := by
  rcases build_run_cases h buffer with ⟨front, statement, back, hsplit, hfront, hfits⟩ |
    ⟨hfits, hresolves | ⟨front, statement, back, reference, hsplit, hfront, hreference, hnone⟩⟩
  · rw [build_run_of_not_fits h hsplit hfront hfits]
    have hplaced := Layout.hasPlaced_advanceAll assembler.pool buffer assembler.symbols front
    rcases hplaced.refused statement with hrefused | hrefused
    · exact unplaced_adopt hrefused (by rw [hsplit, List.append_assoc, List.singleton_append])
    · exact unplaced_adopt hrefused hsplit
  · rw [(build_run_eq_ok_iff h.encloses).mpr ⟨hfits, hresolves, rfl, rfl⟩]
    exact unplaced_settled assembler
  · rw [build_run_of_not_resolves h hfits hsplit hfront hreference hnone]
    exact unplaced_settled assembler

end Assembler

end RegisterMachine.Assembly
