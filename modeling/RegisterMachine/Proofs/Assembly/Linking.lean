import RegisterMachine.Proofs.Assembly.Fields
import RegisterMachine.Proofs.Assembly.Placement

/-!
# Linking statements

The second pass fills the fields that refer to symbols. Each of them lies inside the draft of its
own statement, so in a buffer that shows the drafts one after the other the pass turns every draft
into the final bytes of its statement and touches nothing else (`linkAll_eq_ok_iff`). With the first
pass this tells when a build succeeds, and what it leaves (`build_run_eq_ok_iff`): the image at the
start of the buffer, and the assembler with its statements and symbols settled.
-/

namespace RegisterMachine.Assembly

/-- The address of a symbol as a number, zero for a name that no symbol has. -/
def SymbolTable.addressOf (symbols : SymbolTable) (name : List Char) : Nat :=
  ((symbols.address? name).map UInt16.toNat).getD 0

/-- The address of a symbol that has one is that address. -/
theorem SymbolTable.addressOf_of_address? {symbols : SymbolTable} {name : List Char}
    {address : UInt16} (h : symbols.address? name = some address) :
    symbols.addressOf name = address.toNat := by
  rw [addressOf, h, Option.map_some, Option.getD_some]

namespace Statement

/-- The field of a statement that refers to a symbol. -/
def reference? (statement : Statement) : Option Reference :=
  match statement.body with
  | .operation _ _ _ reference? => reference?
  | .label | .constants _ _ _ | .reservation _ _ => none

/-- The bytes of a statement in the image. -/
def bytes (symbols : SymbolTable) (pool : Array UInt8) (statement : Statement) : List UInt8 :=
  match statement.body with
  | .operation opcode _ operands (some reference) =>
    opcode.byte :: reference.fill (symbols.addressOf reference.symbol.chars) operands
  | .operation _ _ _ none | .label | .constants _ _ _ | .reservation _ _ => statement.draft pool

/-- The field of a statement that refers to a symbol lies inside its operands. -/
def Encloses (statement : Statement) : Prop :=
  match statement.body with
  | .operation _ _ operands (some reference) =>
    reference.offset + reference.width.bytes ≤ operands.length
  | .operation _ _ _ none | .label | .constants _ _ _ | .reservation _ _ => True

/-- The symbol that a statement refers to has an address. -/
def Resolves (symbols : SymbolTable) (statement : Statement) : Prop :=
  ∀ reference, statement.reference? = some reference →
    (symbols.address? reference.symbol.chars).isSome

end Statement

/-- A statement takes as many bytes in the image as in its draft. -/
theorem Statement.length_bytes {symbols : SymbolTable} {pool : Array UInt8} {statement : Statement}
    (h : statement.Encloses) :
    (statement.bytes symbols pool).length = (statement.draft pool).length := by
  obtain ⟨line, name, body, address⟩ := statement
  rcases body with ⟨opcode, args, operands, _ | reference⟩ | _ | _ | _
  · rfl
  · rw [bytes, draft, List.length_cons, List.length_cons, Reference.length_fill h]
  · rfl
  · rfl
  · rfl

namespace Layout

/-! ## The second pass -/

/-- Where operands stand in a buffer after their opcode byte, a field inside them is filled in
place. -/
theorem toList_overwrite_field {buffer : Array UInt8} {front operands back : List UInt8}
    {byte : UInt8} {reference : Reference} (address : Nat)
    (hbuffer : buffer.toList = front ++ byte :: operands ++ back)
    (h : reference.offset + reference.width.bytes ≤ operands.length) :
    (Bytes.overwrite buffer (front.length + 1 + reference.offset)
      (reference.width.encodeNat address)).toList =
      front ++ byte :: reference.fill address operands ++ back := by
  -- The field parts the buffer into what stands before it, the field, and what stands after it.
  have hsplit : buffer.toList =
      (front ++ byte :: operands.take reference.offset) ++
        (operands.drop reference.offset).take reference.width.bytes ++
        (operands.drop (reference.offset + reference.width.bytes) ++ back) := by
    rw [hbuffer, ← List.drop_drop]
    simp only [List.append_assoc, List.cons_append]
    rw [← List.append_assoc (List.take reference.width.bytes _), List.take_append_drop,
      ← List.append_assoc (List.take reference.offset _), List.take_append_drop]
  have hstart : front.length + 1 + reference.offset =
      (front ++ byte :: operands.take reference.offset).length := by
    rw [List.length_append, List.length_cons, List.length_take]
    omega
  have hfield : (reference.width.encodeNat address).length =
      ((operands.drop reference.offset).take reference.width.bytes).length := by
    rw [Width.length_encodeNat, List.length_take, List.length_drop]
    omega
  rw [hstart, Bytes.toList_overwrite_append hsplit hfield]
  unfold Reference.fill
  simp only [List.append_assoc, List.cons_append]

/-- An instruction with a field for a symbol is linked when the symbol has an address, and then the
field is filled. -/
theorem link_operation_eq_ok_iff {symbols : SymbolTable} {buffer buffer' : Array UInt8} {line : Nat}
    {name : Name} {opcode : Opcode} {args : List Name} {operands : List UInt8}
    {reference : Reference} {address : UInt16} {front back : List UInt8}
    (hbuffer : buffer.toList = front ++ opcode.byte :: operands ++ back)
    (hfront : front.length = address.toNat)
    (h : reference.offset + reference.width.bytes ≤ operands.length) :
    link symbols buffer ⟨line, name, .operation opcode args operands (some reference), address⟩ =
        .ok buffer' ↔
      ∃ target, symbols.address? reference.symbol.chars = some target ∧
        buffer'.toList =
          front ++ opcode.byte :: reference.fill target.toNat operands ++ back := by
  unfold link
  rcases haddress : symbols.address? reference.symbol.chars with _ | target
  · simp [haddress]
  · have hwrite := toList_overwrite_field target.toNat hbuffer h
    -- The field lies inside the operands, so the write is not refused.
    have hsize : front.length + 1 + reference.offset +
        (reference.width.encodeNat target.toNat).length ≤ buffer.size := by
      rw [Width.length_encodeNat, ← Array.length_toList, hbuffer, List.length_append,
        List.length_append, List.length_cons]
      omega
    simp only [haddress, Bytes.write?, ← hfront, if_pos hsize, Except.ok.injEq,
      Option.some.injEq, exists_eq_left']
    rw [← hwrite, Array.toList_inj]
    exact eq_comm

/-- A statement is linked when its symbol has an address, and then its bytes stand where its draft
stood. -/
theorem link_eq_ok_iff {symbols : SymbolTable} {pool buffer buffer' : Array UInt8}
    {statement : Statement} {front back : List UInt8}
    (hbuffer : buffer.toList = front ++ statement.draft pool ++ back)
    (hfront : front.length = statement.address.toNat) (h : statement.Encloses) :
    link symbols buffer statement = .ok buffer' ↔
      statement.Resolves symbols ∧
        buffer'.toList = front ++ statement.bytes symbols pool ++ back := by
  -- A statement without a reference is what it was drafted as.
  have hclosed (hnone : statement.reference? = none)
      (hlink : link symbols buffer statement = .ok buffer)
      (hbytes : statement.bytes symbols pool = statement.draft pool) :
      link symbols buffer statement = .ok buffer' ↔
        statement.Resolves symbols ∧
          buffer'.toList = front ++ statement.bytes symbols pool ++ back := by
    rw [hlink, hbytes, ← hbuffer, Except.ok.injEq]
    constructor
    · rintro rfl
      exact ⟨fun reference hsome => absurd (hnone.symm.trans hsome) (by simp), rfl⟩
    · rintro ⟨-, heq⟩
      exact (Array.toList_inj.mp heq).symm
  obtain ⟨line, name, body, address⟩ := statement
  rcases body with ⟨opcode, args, operands, _ | reference⟩ | _ | _ | _
  · exact hclosed rfl rfl rfl
  · have hbytes {target : UInt16}
        (haddress : symbols.address? reference.symbol.chars = some target) :
        Statement.bytes symbols pool
          ⟨line, name, .operation opcode args operands (some reference), address⟩ =
          opcode.byte :: reference.fill target.toNat operands := by
      unfold Statement.bytes SymbolTable.addressOf
      simp only [haddress, Option.map_some, Option.getD_some]
    rw [link_operation_eq_ok_iff hbuffer hfront h]
    constructor
    · rintro ⟨target, haddress, heq⟩
      refine ⟨?_, ?_⟩
      · rintro _ ⟨⟩
        rw [haddress]
        rfl
      · rw [hbytes haddress]
        exact heq
    · rintro ⟨hresolves, heq⟩
      obtain ⟨target, haddress⟩ := Option.isSome_iff_exists.mp (hresolves reference rfl)
      rw [hbytes haddress] at heq
      exact ⟨target, haddress, heq⟩
  · exact hclosed rfl rfl rfl
  · exact hclosed rfl rfl rfl
  · exact hclosed rfl rfl rfl

/-- The bytes of statements one after the other. -/
def image (symbols : SymbolTable) (pool : Array UInt8) (statements : List Statement) : List UInt8 :=
  statements.flatMap (Statement.bytes symbols pool)

/-- Statements take as many bytes in the image as in their drafts. -/
theorem length_image {symbols : SymbolTable} {pool : Array UInt8} {statements : List Statement}
    (h : ∀ statement ∈ statements, statement.Encloses) :
    (image symbols pool statements).length = (drafts pool statements).length := by
  unfold image drafts
  rw [List.length_flatMap, List.length_flatMap]
  congr 1
  exact List.map_congr_left fun statement hmem => Statement.length_bytes (h statement hmem)

/-- The second pass succeeds when all symbols have addresses, and then the image stands where the
drafts stood. -/
theorem linkAll_eq_ok_iff {symbols : SymbolTable} {pool buffer buffer' : Array UInt8}
    {statements : List Statement} {cursor : Nat} {front back : List UInt8}
    (hbuffer : buffer.toList = front ++ drafts pool statements ++ back)
    (hfront : front.length = cursor)
    (hstarts : ∀ before statement after, statements = before ++ statement :: after →
      cursor + (drafts pool before).length ≤ 0xFFFF)
    (h : ∀ statement ∈ statements, statement.Encloses) :
    linkAll symbols (located pool cursor statements) buffer = .ok buffer' ↔
      (∀ statement ∈ statements, statement.Resolves symbols) ∧
        buffer'.toList = front ++ image symbols pool statements ++ back := by
  induction statements generalizing cursor buffer front with
  | nil =>
    rw [located, linkAll, Except.ok.injEq]
    constructor
    · rintro rfl
      exact ⟨by simp, hbuffer⟩
    · rintro ⟨-, heq⟩
      exact Array.toList_inj.mp (hbuffer.trans heq.symm)
  | cons statement rest ih =>
    have hcursor : cursor ≤ 0xFFFF := hstarts [] statement rest rfl
    have hstart : front.length = (UInt16.ofNat cursor).toNat := by
      rw [hfront, UInt16.toNat_ofNat_of_lt' (Nat.lt_succ_of_le hcursor)]
    have hencloses : statement.Encloses := h statement List.mem_cons_self
    rw [drafts_cons, List.append_assoc, List.append_assoc, ← List.append_assoc] at hbuffer
    have hlink (linked : Array UInt8) :
        link symbols buffer { statement with address := UInt16.ofNat cursor } = .ok linked ↔
          statement.Resolves symbols ∧ linked.toList =
            front ++ statement.bytes symbols pool ++ (drafts pool rest ++ back) :=
      link_eq_ok_iff hbuffer hstart hencloses
    -- After the first statement its bytes belong to what stands in front.
    have hnext (linked : Array UInt8) (hlinked : linked.toList =
        front ++ statement.bytes symbols pool ++ (drafts pool rest ++ back)) :
        linkAll symbols (located pool (cursor + (statement.draft pool).length) rest) linked =
            .ok buffer' ↔
          (∀ statement ∈ rest, statement.Resolves symbols) ∧ buffer'.toList =
            front ++ statement.bytes symbols pool ++ image symbols pool rest ++ back :=
      ih (by rw [hlinked, ← List.append_assoc])
        (by rw [List.length_append, hfront, Statement.length_bytes hencloses])
        (fun before statement' after hrest => by
          have hstart := hstarts (statement :: before) statement' after
            (by rw [hrest, List.cons_append])
          rwa [drafts_cons, List.length_append, ← Nat.add_assoc] at hstart)
        (fun statement' hmem => h statement' (List.mem_cons_of_mem _ hmem))
    rw [located, linkAll, image, List.flatMap_cons, ← image, List.forall_mem_cons]
    rcases hresult : link symbols buffer { statement with address := UInt16.ofNat cursor } with
      cause | linked
    · simp only [reduceCtorEq, false_iff]
      rintro ⟨⟨hresolves, -⟩, -⟩
      have hok := (hlink (front ++ statement.bytes symbols pool ++
        (drafts pool rest ++ back)).toArray).mpr ⟨hresolves, rfl⟩
      rw [hresult] at hok
      cases hok
    · obtain ⟨hresolves, hlinked⟩ := (hlink linked).mp hresult
      rw [hnext linked hlinked, List.append_assoc front, ← List.append_assoc front]
      constructor
      · rintro ⟨hrest, heq⟩
        exact ⟨⟨hresolves, hrest⟩, heq⟩
      · rintro ⟨⟨-, hrest⟩, heq⟩
        exact ⟨hrest, heq⟩

end Layout

namespace Assembler

/-! ## Builds -/

/-- The assembler with the addresses that a build gives to statements and symbols. -/
def settled (assembler : Assembler) : Assembler :=
  let statements := Layout.located assembler.pool 0 assembler.statements.toList
  { assembler with
    statements := statements.toArray
    symbols := Layout.assignAll assembler.symbols statements }

/-- The image that a build lays out. -/
def image (assembler : Assembler) : List UInt8 :=
  Layout.image assembler.settled.symbols assembler.pool assembler.statements.toList

/-- What a build answers: the image at the start of the buffer, and its sizes. -/
def program (assembler : Assembler) (buffer : Array UInt8) : Program where
  buffer := (assembler.image ++ buffer.toList.drop assembler.image.length).toArray
  romSize := assembler.image.length
  ramSize := (assembler.statements.toList.map Statement.reserved).sum
  constantsSize := (assembler.statements.toList.map Statement.emitted).sum

/-- There is room for every statement: it starts at a 16-bit address, its constants are in the pool,
and it ends within a buffer of the given size. -/
def Fits (assembler : Assembler) (size : Nat) : Prop :=
  ∀ front statement back, assembler.statements.toList = front ++ statement :: back →
    (Layout.drafts assembler.pool front).length ≤ 0xFFFF ∧ statement.InPool assembler.pool ∧
      (Layout.drafts assembler.pool front).length + (statement.draft assembler.pool).length ≤ size

/-- What fits together ends within the buffer. -/
theorem Fits.length_drafts_le {assembler : Assembler} {size : Nat} (h : assembler.Fits size) :
    (Layout.drafts assembler.pool assembler.statements.toList).length ≤ size := by
  rcases List.eq_nil_or_concat assembler.statements.toList with hnil | ⟨front, last, hlast⟩
  · rw [hnil]
    exact Nat.zero_le _
  · rw [List.concat_eq_append] at hlast
    obtain ⟨-, -, hstop⟩ := h front last [] hlast
    rw [hlast, Layout.drafts_append, List.length_append]
    simpa using hstop

/-- The layout of a whole program after its first pass. -/
def placed (assembler : Assembler) (buffer : Array UInt8) : Layout :=
  (Layout.start buffer assembler.symbols).advanceAll assembler.pool assembler.statements.toList

/-- The first pass locates the statements one after the other from the start of the image. -/
theorem placed_placed (assembler : Assembler) (buffer : Array UInt8) :
    (assembler.placed buffer).placed.toList =
      Layout.located assembler.pool 0 assembler.statements.toList := by
  unfold placed
  rw [Layout.placed_advanceAll]
  simp [Layout.start]

/-- The first pass gives the symbols their addresses. -/
theorem symbols_placed (assembler : Assembler) (buffer : Array UInt8) :
    (assembler.placed buffer).symbols = assembler.settled.symbols :=
  Layout.symbols_advanceAll ..

/-- A layout that has placed every statement settles the assembler. -/
theorem adopt_placed (assembler : Assembler) (buffer : Array UInt8) :
    assembler.adopt (assembler.placed buffer) = assembler.settled := by
  have hsize : (assembler.placed buffer).placed.size = assembler.statements.size := by
    rw [← Array.length_toList, placed_placed, Layout.length_located, Array.length_toList]
  unfold adopt
  rw [symbols_placed, hsize]
  unfold settled
  congr 1
  apply Array.toList_inj.mp
  rw [Array.toList_append, placed_placed]
  simp

/-- The first pass writes the drafts of the statements, and leaves the buffer behind them as it was.
-/
theorem buffer_placed {assembler : Assembler} {buffer : Array UInt8}
    (h : assembler.Fits buffer.size) :
    (assembler.placed buffer).buffer.toList =
      [] ++ Layout.drafts assembler.pool assembler.statements.toList ++
        buffer.toList.drop (Layout.drafts assembler.pool assembler.statements.toList).length := by
  have hlength : (buffer.toList.take
      (Layout.drafts assembler.pool assembler.statements.toList).length).length =
      (Layout.drafts assembler.pool assembler.statements.toList).length := by
    rw [List.length_take, Array.length_toList]
    exact Nat.min_eq_left h.length_drafts_le
  refine Layout.buffer_advanceAll ?_ rfl hlength
  rw [List.nil_append, List.take_append_drop]
  rfl

/-- Linking what has been placed completes the image. -/
theorem linkAll_placed_eq_ok_iff {assembler : Assembler} {buffer linked : Array UInt8}
    (hfits : assembler.Fits buffer.size)
    (h : ∀ statement ∈ assembler.statements.toList, statement.Encloses) :
    Layout.linkAll assembler.settled.symbols
        (Layout.located assembler.pool 0 assembler.statements.toList)
        (assembler.placed buffer).buffer = .ok linked ↔
      (∀ statement ∈ assembler.statements.toList,
        statement.Resolves assembler.settled.symbols) ∧
        linked = (assembler.program buffer).buffer := by
  have hstarts (before : List Statement) (statement : Statement) (after : List Statement)
      (hsplit : assembler.statements.toList = before ++ statement :: after) :
      0 + (Layout.drafts assembler.pool before).length ≤ 0xFFFF := by
    rw [Nat.zero_add]
    exact (hfits before statement after hsplit).1
  have hfront : ([] : List UInt8).length = 0 := rfl
  rw [Layout.linkAll_eq_ok_iff (buffer_placed hfits) hfront hstarts h, ← Array.toList_inj,
    List.nil_append, ← Layout.length_image h]
  rfl

/-- The sizes that the first pass has counted are those of the program. -/
theorem program_eq (assembler : Assembler) (buffer : Array UInt8)
    (h : ∀ statement ∈ assembler.statements.toList, statement.Encloses) :
    assembler.program buffer = ⟨(assembler.program buffer).buffer,
      (assembler.placed buffer).cursor, (assembler.placed buffer).ramSize,
      (assembler.placed buffer).constantsSize⟩ := by
  unfold placed
  rw [Layout.cursor_advanceAll, Layout.ramSize_advanceAll, Layout.constantsSize_advanceAll,
    ← Layout.length_image h]
  simp only [Layout.start, Nat.zero_add]
  rfl

/-- A build succeeds when there is room for every statement and all symbols are defined. -/
theorem build_run_eq_ok_iff {assembler final : Assembler} {buffer : Array UInt8} {program : Program}
    (h : ∀ statement ∈ assembler.statements.toList, statement.Encloses) :
    (build buffer).run assembler = .ok program final ↔
      assembler.Fits buffer.size ∧
        (∀ statement ∈ assembler.statements.toList,
          statement.Resolves assembler.settled.symbols) ∧
        program = assembler.program buffer ∧ final = assembler.settled := by
  have hplaced (layout : Layout) :
      (Layout.placeAll assembler.pool assembler.statements.toList).run
          (.start buffer assembler.symbols) = .ok () layout ↔
        assembler.Fits buffer.size ∧ layout = assembler.placed buffer := by
    rw [Layout.placeAll_run_eq_ok_iff (Nat.zero_le _), Layout.fitsAll_iff]
    unfold Fits placed
    simp only [Layout.start, Nat.zero_add]
  unfold build
  rw [get_bind_run_eq_ok_iff]
  -- Each pass either fails, and then the conditions that it is about do, or leaves a known result.
  rcases hrun : (Layout.placeAll assembler.pool assembler.statements.toList).run
    (.start buffer assembler.symbols) with ⟨⟨⟩, layout⟩ | ⟨error, layout⟩
  · obtain ⟨hfits, rfl⟩ := (hplaced layout).mp hrun
    have hlinked (linked : Array UInt8) :
        Layout.linkAll assembler.settled.symbols
            (Layout.located assembler.pool 0 assembler.statements.toList)
            (assembler.placed buffer).buffer = .ok linked ↔
          (∀ statement ∈ assembler.statements.toList,
            statement.Resolves assembler.settled.symbols) ∧
            linked = (assembler.program buffer).buffer := linkAll_placed_eq_ok_iff hfits h
    simp only [adopt_placed, symbols_placed, placed_placed]
    rw [bind_run_eq_ok_iff]
    rcases hlink : Layout.linkAll assembler.settled.symbols
      (Layout.located assembler.pool 0 assembler.statements.toList)
      (assembler.placed buffer).buffer with error | linked
    · constructor
      · rintro ⟨_, _, -, ⟨⟩⟩
      · rintro ⟨-, hresolves, -⟩
        have hok := (hlinked _).mpr ⟨hresolves, rfl⟩
        rw [hlink] at hok
        cases hok
    · obtain ⟨hresolves, rfl⟩ := (hlinked linked).mp hlink
      dsimp only
      rw [← program_eq assembler buffer h]
      constructor
      · rintro ⟨_, _, ⟨⟩, ⟨⟩⟩
        exact ⟨hfits, hresolves, rfl, rfl⟩
      · rintro ⟨-, -, rfl, rfl⟩
        exact ⟨(), _, rfl, rfl⟩
  · constructor
    · rintro ⟨⟩
    · rintro ⟨hfits, -⟩
      have hok := (hplaced _).mpr ⟨hfits, rfl⟩
      rw [hrun] at hok
      cases hok

end Assembler

end RegisterMachine.Assembly
