import RegisterMachine.Proofs.Assembly.Building

/-!
# Nothing stays of earlier operations

An assembler is used again and again, and what it has done before could show: in addresses that an
earlier build has given, in a symbol that a refused source has left, in what the output buffer held.
It does not. A source assembles to the same as on a new assembler, and a build of what has been
parsed answers the same after any other builds as before them (`history_leaves_no_trace`).

Builds change addresses alone, and only those of statements and of the symbols that statements
define (`SameButAddresses`). A build that succeeds gives all of them new addresses, so none of the
old ones is left (`settled_of_same`). Whether it succeeds, and at which line it is refused, depends
on the bytes that statements take and on the symbols that are defined, and neither on addresses nor
on what the buffer holds (`agree_build`).
-/

namespace RegisterMachine.Assembly

/-- The table as its symbols are looked up. -/
theorem SymbolTable.entries_eq_map {table : SymbolTable}
    (hnodup : (table.entries.map Symbol.name).Nodup) :
    table.entries = (table.entries.map Symbol.name).map fun name =>
      ⟨name, (table.address? name.chars).getD 0⟩ := by
  -- A name is found at its own entry, since no entry before that has it.
  have hlookup (symbol : Symbol) (hmem : symbol ∈ table.entries) :
      table.address? symbol.name.chars = some symbol.address := by
    obtain ⟨entries⟩ := table
    unfold address?
    rw [Option.map_eq_some_iff]
    refine ⟨symbol, ?_, rfl⟩
    induction entries with
    | nil => cases hmem
    | cons first rest ih =>
      rw [List.map_cons, List.nodup_cons] at hnodup
      rcases List.mem_cons.mp hmem with rfl | hrest
      · exact List.find?_cons_of_pos (beq_self_eq_true _)
      · have hne : first.name.chars ≠ symbol.name.chars := fun heq =>
          hnodup.1 (Name.chars_injective heq ▸ List.mem_map_of_mem hrest)
        rw [List.find?_cons_of_neg (by simpa using hne)]
        exact ih hnodup.2 hrest
  rw [List.map_map]
  refine (List.map_id table.entries).symm.trans (List.map_congr_left fun symbol hmem => ?_)
  rw [Function.comp_apply, hlookup symbol hmem]
  rfl

/-- Tables with the same symbols and addresses are the same. -/
theorem SymbolTable.ext_address? {table table' : SymbolTable}
    (hnodup : (table.entries.map Symbol.name).Nodup)
    (hnames : table'.entries.map Symbol.name = table.entries.map Symbol.name)
    (h : ∀ name ∈ table.entries.map Symbol.name,
      table'.address? name.chars = table.address? name.chars) : table' = table := by
  have hentries := entries_eq_map hnodup
  have hentries' := entries_eq_map (hnames ▸ hnodup : (table'.entries.map Symbol.name).Nodup)
  rw [hnames, List.map_congr_left fun name hmem => by rw [h name hmem], ← hentries] at hentries'
  obtain ⟨entries⟩ := table
  obtain ⟨entries'⟩ := table'
  exact congrArg SymbolTable.mk hentries'

/-! ## Statements without their addresses -/

section

variable {statements statements' front front' back : List Statement}
  {statement statement' : Statement} {size : Nat}

/-- What can be seen of a statement without its address. -/
theorem eq_of_unplaced {β : Type} {f : Statement → β}
    (hf : ∀ statement, f statement.unplaced = f statement)
    (h : statement'.unplaced = statement.unplaced) : f statement' = f statement := by
  rw [← hf statement', h, hf]

/-- Where statements split, others that differ in their addresses alone do. -/
theorem exists_split_of_map_unplaced
    (h : statements'.map Statement.unplaced = statements.map Statement.unplaced)
    (hsplit : statements = front ++ statement :: back) :
    ∃ front' statement' back', statements' = front' ++ statement' :: back' ∧
      front'.map Statement.unplaced = front.map Statement.unplaced ∧
      statement'.unplaced = statement.unplaced := by
  rw [hsplit, List.map_append, List.map_cons] at h
  obtain ⟨front', rest', rfl, hfront, hrest⟩ := List.map_eq_append_iff.mp h
  obtain ⟨statement', back', rfl, hstatement, -⟩ := List.map_eq_cons_iff.mp hrest
  exact ⟨front', statement', back', rfl, hfront, hstatement⟩

/-- Whether there is room for a statement has nothing to do with addresses. -/
theorem Assembler.HasRoom.of_unplaced (h : HasRoom size front statement)
    (hfront : front'.map Statement.unplaced = front.map Statement.unplaced)
    (hstatement : statement'.unplaced = statement.unplaced) : HasRoom size front' statement' := by
  have hextent : Layout.extent front' = Layout.extent front :=
    congrArg List.sum (map_eq_of_map_unplaced (f := Statement.size) (fun _ => rfl) hfront)
  have hsize : statement'.size = statement.size := eq_of_unplaced (fun _ => rfl) hstatement
  unfold HasRoom
  rw [hextent, hsize]
  exact h

/-- Where statements are located does not depend on the addresses that they have had. -/
theorem Layout.located_map_unplaced (pool : Array UInt8) (cursor : Nat)
    (statements : List Statement) :
    located pool cursor (statements.map Statement.unplaced) = located pool cursor statements := by
  induction statements generalizing cursor with
  | nil => rfl
  | cons statement rest ih =>
    rw [List.map_cons, located, located]
    exact congrArg _ (ih _)

end

namespace Assembler

/-! ## What builds leave -/

/-- Two assemblers differ in addresses alone, and not in those of symbols that no statement
defines. -/
structure SameButAddresses (assembler assembler' : Assembler) : Prop where
  unplaced : assembler'.unplaced = assembler.unplaced
  undefined : ∀ name, name ∉ Layout.defined assembler.statements.toList →
    assembler'.address? name.chars = assembler.address? name.chars

section

variable {assembler assembler' final : Assembler} {complete : Bool} {buffer buffer' : Array UInt8}

/-- An assembler differs from itself in nothing. -/
theorem SameButAddresses.refl (assembler : Assembler) : SameButAddresses assembler assembler :=
  ⟨rfl, fun _ _ => rfl⟩

/-- The pools are the same. -/
theorem SameButAddresses.pool (h : SameButAddresses assembler assembler') :
    assembler'.pool = assembler.pool := by
  show assembler'.unplaced.pool = assembler.unplaced.pool
  rw [h.unplaced]

/-- The statements are the same without their addresses. -/
theorem SameButAddresses.map_unplaced (h : SameButAddresses assembler assembler') :
    assembler'.statements.toList.map Statement.unplaced =
      assembler.statements.toList.map Statement.unplaced := by
  have harrays : assembler'.statements.map Statement.unplaced =
      assembler.statements.map Statement.unplaced := congrArg Assembler.statements h.unplaced
  rw [← Array.toList_map, harrays, Array.toList_map]

/-- The names of the symbols are the same. -/
theorem SameButAddresses.names (h : SameButAddresses assembler assembler') :
    assembler'.names = assembler.names := by
  rw [← names_unplaced assembler', h.unplaced, names_unplaced]

/-- The symbols that statements define are the same. -/
theorem SameButAddresses.defined (h : SameButAddresses assembler assembler') :
    Layout.defined assembler'.statements.toList = Layout.defined assembler.statements.toList := by
  rw [← defined_map_unplaced, h.map_unplaced, defined_map_unplaced]

/-- Assemblers that differ in addresses alone from one between them do so from each other. -/
theorem SameButAddresses.trans (h : SameButAddresses assembler assembler')
    (h' : SameButAddresses assembler' final) : SameButAddresses assembler final := by
  refine ⟨h'.unplaced.trans h.unplaced, fun name hname => ?_⟩
  rw [h'.undefined name (by rwa [h.defined]), h.undefined name hname]

/-- A layout that has placed some statements gives no address to a symbol that no statement
defines. -/
theorem address?_refused_of_not_mem {front back : List Statement} {statement : Statement}
    (hsplit : assembler.statements.toList = front ++ statement :: back) {name : Name}
    (hname : name ∉ Layout.defined assembler.statements.toList) :
    (((Layout.start buffer assembler.symbols).advanceAll assembler.pool front).refused
      statement).symbols.address? name.chars = assembler.address? name.chars := by
  unfold Layout.defined at hname
  rw [hsplit, List.filter_append, List.map_append, List.mem_append, not_or] at hname
  -- The statements before the refused one define other symbols.
  have hfront : name ∉ Layout.defined (Layout.located assembler.pool 0 front) := by
    rw [Layout.defined_located]
    exact hname.1
  have hadvanced : ((Layout.start buffer assembler.symbols).advanceAll assembler.pool
      front).symbols.address? name.chars = assembler.address? name.chars := by
    rw [Layout.symbols_advanceAll]
    exact Layout.address?_assignAll_of_not_mem hfront
  unfold Layout.refused
  split
  · dsimp only
    split
    · rename_i hdefines
      -- So does the refused one, which may have its address already.
      rw [List.filter_cons_of_pos hdefines, List.map_cons, List.mem_cons, not_or] at hname
      have hne : statement.name.chars ≠ name.chars := fun heq =>
        hname.2.1 (Name.chars_injective heq).symm
      rw [SymbolTable.address?_assign, if_neg hne, hadvanced]
    · exact hadvanced
  · exact hadvanced

/-- A build changes addresses alone, and not those of symbols that no statement defines. -/
theorem sameButAddresses_build (h : assembler.Sound) (buffer : Array UInt8) :
    SameButAddresses assembler (ending ((build buffer).run assembler)) := by
  refine ⟨unplaced_build h buffer, fun name hname => ?_⟩
  -- A build stops on the way, or comes to the addresses that are settled, with or without success.
  have hsettled : assembler.settled.address? name.chars = assembler.address? name.chars := by
    refine Layout.address?_assignAll_of_not_mem ?_
    rw [Layout.defined_located]
    exact hname
  rcases build_run_cases h buffer with ⟨front, statement, back, hsplit, hfront, hfits⟩ |
    ⟨hfits, hresolves | ⟨front, statement, back, reference, hsplit, hfront, hreference, hnone⟩⟩
  · rw [build_run_of_not_fits h hsplit hfront hfits]
    exact address?_refused_of_not_mem hsplit hname
  · rw [(build_run_eq_ok_iff h.encloses).mpr ⟨hfits, hresolves, rfl, rfl⟩]
    exact hsettled
  · rw [build_run_of_not_resolves h hfits hsplit hfront hreference hnone]
    exact hsettled

/-- No two statements define the same symbol. -/
theorem Consistent.nodup_defined (h : assembler.Consistent complete) :
    (Layout.defined assembler.statements.toList).Nodup := by
  obtain ⟨leftover?, -, hnames, -⟩ := h.stores
  have hdistinct := h.distinct
  rw [hnames] at hdistinct
  exact (List.nodup_append.mp hdistinct).1

/-- Where symbols are distinct, addresses that were there before do not show in those that a build
settles. -/
theorem settled_of_same (h : assembler.Consistent complete)
    (hsame : SameButAddresses assembler assembler') : assembler'.settled = assembler.settled := by
  have hpool : assembler'.pool = assembler.pool := hsame.pool
  have hcapacities : assembler'.capacities = assembler.capacities := by
    show assembler'.unplaced.capacities = assembler.unplaced.capacities
    rw [hsame.unplaced]
  have hlocated : Layout.located assembler'.pool 0 assembler'.statements.toList =
      Layout.located assembler.pool 0 assembler.statements.toList := by
    rw [← Layout.located_map_unplaced, hsame.map_unplaced, hpool, Layout.located_map_unplaced]
  have hsymbols : assembler'.settled.symbols = assembler.settled.symbols := by
    refine SymbolTable.ext_address? ?_ ?_ fun name hname => ?_
    · show assembler.settled.names.Nodup
      rw [names_settled]
      exact h.distinct
    · exact (names_settled assembler').trans (hsame.names.trans (names_settled assembler).symm)
    · have hlisted : name ∈ assembler.names := by
        rw [← names_settled]
        exact hname
      have hlisted' : name ∈ assembler'.names := by
        rw [hsame.names]
        exact hlisted
      unfold settled
      dsimp only
      rw [hlocated]
      by_cases hdefined : name ∈ Layout.defined
        (Layout.located assembler.pool 0 assembler.statements.toList)
      · -- The statement that defines the symbol gives it the same new address in both.
        obtain ⟨statement, hstatement, rfl⟩ := List.mem_map.mp hdefined
        obtain ⟨hmem, hdefines⟩ := List.mem_filter.mp hstatement
        have hnodup : (Layout.defined
            (Layout.located assembler.pool 0 assembler.statements.toList)).Nodup := by
          rw [Layout.defined_located]
          exact h.nodup_defined
        rw [Layout.address?_assignAll_of_mem hnodup hmem hdefines
            (SymbolTable.address?_isSome_iff.mpr hlisted),
          Layout.address?_assignAll_of_mem hnodup hmem hdefines
            (SymbolTable.address?_isSome_iff.mpr hlisted')]
      · -- A symbol without a statement keeps its address, and builds have not changed that either.
        rw [Layout.address?_assignAll_of_not_mem hdefined,
          Layout.address?_assignAll_of_not_mem hdefined]
        rw [Layout.defined_located] at hdefined
        exact hsame.undefined name hdefined
  unfold settled at hsymbols ⊢
  dsimp only at hsymbols ⊢
  rw [hsymbols, hlocated, hpool, hcapacities]

/-! ## What builds answer -/

/-- Two answers of a build agree: it is refused for the same reason at the same line, or it has the
same image with the same sizes and leaves the same assembler. -/
inductive Agree :
    EStateM.Result Error Assembler Program → EStateM.Result Error Assembler Program → Prop where
  | ok {program program' : Program} (final : Assembler) (image : program.image = program'.image)
      (romSize : program.romSize = program'.romSize)
      (ramSize : program.ramSize = program'.ramSize)
      (constantsSize : program.constantsSize = program'.constantsSize) :
      Agree (.ok program final) (.ok program' final)
  | error (error : Error) (final final' : Assembler) :
      Agree (.error error final) (.error error final')

/-- The image of the program of an assembler is that of the assembler. -/
theorem image_program (assembler : Assembler) (buffer : Array UInt8) :
    (assembler.program buffer).image = assembler.image :=
  List.take_left

/-- What a program is laid out to does not depend on addresses that were there before, or on what
the buffer holds. -/
theorem agree_ok (h : assembler.Consistent complete)
    (hsame : SameButAddresses assembler assembler') :
    Agree (.ok (assembler'.program buffer) assembler'.settled)
      (.ok (assembler.program buffer') assembler.settled) := by
  have hsettled := settled_of_same h hsame
  have hbytes : assembler'.statements.toList.map
      (Statement.bytes assembler.settled.symbols assembler.pool) =
      assembler.statements.toList.map
        (Statement.bytes assembler.settled.symbols assembler.pool) :=
    map_eq_of_map_unplaced (fun _ => rfl) hsame.map_unplaced
  have himage : assembler'.image = assembler.image := by
    unfold image Layout.image
    rw [hsettled, hsame.pool, List.flatMap_def, List.flatMap_def, hbytes]
  rw [hsettled]
  refine .ok _ ?_ (congrArg List.length himage) ?_ ?_
  · rw [image_program, image_program, himage]
  · exact congrArg List.sum (map_eq_of_map_unplaced (f := Statement.reserved) (fun _ => rfl)
      hsame.map_unplaced)
  · exact congrArg List.sum (map_eq_of_map_unplaced (f := Statement.emitted) (fun _ => rfl)
      hsame.map_unplaced)

variable {statement : Statement} {size : Nat}

/-- The first statement without room is at the same line, whatever the addresses have been. -/
theorem FirstWithoutRoom.of_same (h : assembler.FirstWithoutRoom size statement)
    (hsame : SameButAddresses assembler assembler') :
    ∃ statement', assembler'.FirstWithoutRoom size statement' ∧
      statement'.line = statement.line := by
  obtain ⟨front, back, hsplit, hfront, hroom⟩ := h
  obtain ⟨front', statement', back', hsplit', hfronts, hstatement⟩ :=
    exists_split_of_map_unplaced hsame.map_unplaced hsplit
  refine ⟨statement', ⟨front', back', hsplit', fun before other after hbefore => ?_,
    fun hroom' => hroom (hroom'.of_unplaced hfronts.symm hstatement.symm)⟩,
    eq_of_unplaced (fun _ => rfl) hstatement⟩
  obtain ⟨before', other', after', hbefore', hbefores, hother⟩ :=
    exists_split_of_map_unplaced hfronts.symm hbefore
  exact (hfront before' other' after' hbefore').of_unplaced hbefores.symm hother.symm

/-- Whether there is room for all does not depend on the addresses that have been given. -/
theorem HasRoomForAll.of_same (h : assembler.HasRoomForAll size)
    (hsame : SameButAddresses assembler assembler') : assembler'.HasRoomForAll size := by
  intro front statement back hsplit
  obtain ⟨front', statement', back', hsplit', hfronts, hstatement⟩ :=
    exists_split_of_map_unplaced hsame.map_unplaced.symm hsplit
  exact (h front' statement' back' hsplit').of_unplaced hfronts.symm hstatement.symm

/-- Whether the symbol of a statement is defined does not depend on them either. -/
theorem Defines.of_same {statement' : Statement} (h : assembler.Defines statement)
    (hsame : SameButAddresses assembler assembler')
    (hstatement : statement'.unplaced = statement.unplaced) : assembler'.Defines statement' := by
  intro reference hreference
  have heq : statement'.reference? = statement.reference? :=
    eq_of_unplaced (fun _ => rfl) hstatement
  rw [hsame.names]
  exact h reference (heq ▸ hreference)

/-- So the first statement with a symbol that is not defined is at the same line, with the same
symbol. -/
theorem FirstUndefined.of_same {symbol : Name} (h : assembler.FirstUndefined statement symbol)
    (hsame : SameButAddresses assembler assembler') :
    ∃ statement', assembler'.FirstUndefined statement' symbol ∧
      statement'.line = statement.line := by
  obtain ⟨front, back, reference, hsplit, hfront, hreference, hsymbol, hundefined⟩ := h
  obtain ⟨front', statement', back', hsplit', hfronts, hstatement⟩ :=
    exists_split_of_map_unplaced hsame.map_unplaced hsplit
  have heq : statement'.reference? = statement.reference? :=
    eq_of_unplaced (fun _ => rfl) hstatement
  refine ⟨statement', ⟨front', back', reference, hsplit', fun other hother => ?_,
    heq.trans hreference, hsymbol, ?_⟩, eq_of_unplaced (fun _ => rfl) hstatement⟩
  · have hmem := List.mem_map_of_mem (f := Statement.unplaced) hother
    rw [hfronts] at hmem
    obtain ⟨original, horiginal, hunplaced⟩ := List.mem_map.mp hmem
    exact (hfront original horiginal).of_same hsame hunplaced.symm
  · rw [hsame.names]
    exact hundefined

/-- Builds in buffers of the same size agree, whatever the buffers hold and whatever addresses there
were before. -/
theorem agree_build (h : assembler.Consistent complete)
    (hsame : SameButAddresses assembler assembler') (hsize : buffer.size = buffer'.size) :
    Agree ((build buffer).run assembler') ((build buffer').run assembler) := by
  have h' : assembler'.Consistent complete := h.of_unplaced hsame.unplaced
  -- The first statement to blame in one assembler is the first one in the other.
  rcases hasRoom_or_blames h.sound buffer'.size with
    ⟨statement, hfirst⟩ | ⟨hroom, hdefines | ⟨statement, symbol, hfirst⟩⟩
  · obtain ⟨statement', hfirst', hline⟩ := hfirst.of_same hsame
    rw [← hsize] at hfirst'
    obtain ⟨final, hrun⟩ := hfirst.build_run h.sound
    obtain ⟨final', hrun'⟩ := hfirst'.build_run h'.sound
    rw [hrun, hrun', hline]
    exact .error _ _ _
  · have hroom' := hroom.of_same hsame
    rw [← hsize] at hroom'
    have hdefines' : ∀ statement ∈ assembler'.statements.toList,
        assembler'.Defines statement := by
      intro statement hmem
      have hmem' := List.mem_map_of_mem (f := Statement.unplaced) hmem
      rw [hsame.map_unplaced] at hmem'
      obtain ⟨original, horiginal, hunplaced⟩ := List.mem_map.mp hmem'
      exact (hdefines original horiginal).of_same hsame hunplaced.symm
    rw [build_run_of_defines h.sound hroom hdefines,
      build_run_of_defines h'.sound hroom' hdefines']
    exact agree_ok h hsame
  · obtain ⟨statement', hfirst', hline⟩ := hfirst.of_same hsame
    have hroom' := hroom.of_same hsame
    rw [← hsize] at hroom'
    obtain ⟨final, hrun⟩ := hfirst.build_run h.sound hroom
    obtain ⟨final', hrun'⟩ := hfirst'.build_run h'.sound hroom'
    rw [hrun, hrun', hline]
    exact .error _ _ _

/-- What is adopted of a layout that has been refused depends on what it has placed, and not on its
buffer. -/
theorem adopt_refused_congr {layout layout' : Layout} (hcursor : layout.cursor = layout'.cursor)
    (hplaced : layout.placed = layout'.placed) (hsymbols : layout.symbols = layout'.symbols)
    (statement : Statement) :
    assembler.adopt (layout.refused statement) = assembler.adopt (layout'.refused statement) := by
  unfold adopt Layout.refused
  rw [hcursor]
  split
  · dsimp only
    rw [hplaced, hsymbols]
  · rw [hplaced, hsymbols]

/-- The addresses that a build gives until it fails do not depend on what the buffer holds. -/
theorem ending_build_congr (h : assembler.Sound) (hsize : buffer.size = buffer'.size) :
    ending ((build buffer).run assembler) = ending ((build buffer').run assembler) := by
  rcases build_run_cases h buffer with ⟨front, statement, back, hsplit, hfront, hfits⟩ |
    ⟨hfits, hresolves | ⟨front, statement, back, reference, hsplit, hfront, hreference, hnone⟩⟩
  · -- The first pass stops at the same statement, since the buffers are of one size.
    have hfront' : (Layout.start buffer' assembler.symbols).FitsAll assembler.pool front := by
      rw [fitsAll_start_iff h hsplit, hsize] at hfront
      exact (fitsAll_start_iff h hsplit).mpr hfront
    have hfits' : ¬ ((Layout.start buffer' assembler.symbols).advanceAll assembler.pool
        front).Fits assembler.pool statement := by
      rw [fits_start_iff h hsplit, hsize] at hfits
      exact (fits_start_iff h hsplit).not.mpr hfits
    rw [build_run_of_not_fits h hsplit hfront hfits,
      build_run_of_not_fits h hsplit hfront' hfits']
    refine adopt_refused_congr ?_ ?_ ?_ statement
    · rw [Layout.cursor_advanceAll, Layout.cursor_advanceAll]
      rfl
    · rw [Layout.placed_advanceAll, Layout.placed_advanceAll]
      rfl
    · rw [Layout.symbols_advanceAll, Layout.symbols_advanceAll]
      rfl
  · -- Both passes come to their end.
    have hfits' : assembler.Fits buffer'.size := hsize ▸ hfits
    rw [(build_run_eq_ok_iff h.encloses).mpr ⟨hfits, hresolves, rfl, rfl⟩,
      (build_run_eq_ok_iff h.encloses).mpr ⟨hfits', hresolves, rfl, rfl⟩]
    rfl
  · -- The second pass stops at the same statement.
    have hfits' : assembler.Fits buffer'.size := hsize ▸ hfits
    rw [build_run_of_not_resolves h hfits hsplit hfront hreference hnone,
      build_run_of_not_resolves h hfits' hsplit hfront hreference hnone]

/-! ## Histories -/

/-- What builds make of an assembler, one after the other, whether they succeed or fail. -/
inductive Rebuilt (assembler : Assembler) : Assembler → Prop where
  | nothing : Rebuilt assembler assembler
  | build {rebuilt : Assembler} (h : Rebuilt assembler rebuilt) (buffer : Array UInt8) :
      Rebuilt assembler (ending ((build buffer).run rebuilt))

/-- Builds change addresses alone. -/
theorem Rebuilt.same {rebuilt : Assembler} (h : assembler.Consistent complete)
    (hrebuilt : Rebuilt assembler rebuilt) : SameButAddresses assembler rebuilt := by
  induction hrebuilt with
  | nothing => exact .refl assembler
  | build _ buffer ih =>
    exact ih.trans (sameButAddresses_build (h.of_unplaced ih.unplaced).sound buffer)

/-- Whatever an assembler has done before, a source assembles to the same as on a new one with the
same capacities, in a buffer of the same size that may hold anything else, and leaves the same
statements and symbols. And whatever builds have been made of it, a build answers the same as before
them. -/
theorem history_leaves_no_trace (h : Reachable complete assembler) :
    (∀ source buffer buffer', buffer.size = buffer'.size →
      Agree ((assemble source buffer).run assembler)
        ((assemble source buffer').run (empty assembler.capacities)) ∧
      ending ((assemble source buffer).run assembler) =
        ending ((assemble source buffer').run (empty assembler.capacities))) ∧
    ∀ rebuilt, Rebuilt assembler rebuilt → ∀ buffer buffer', buffer.size = buffer'.size →
      Agree ((build buffer).run rebuilt) ((build buffer').run assembler) := by
  refine ⟨fun source buffer buffer' hsize => ?_, fun rebuilt hrebuilt buffer buffer' hsize => ?_⟩
  · -- Parsing clears the assembler, so that only the buffers are left to differ.
    have hparse : (parse source).run (empty assembler.capacities) =
        (parse source).run assembler := rfl
    have hconsistent := consistent_parse source assembler
    unfold assemble
    rw [EStateM.run_bind, EStateM.run_bind, hparse]
    rcases hrun : (parse source).run assembler with ⟨⟨⟩, parsed⟩ | ⟨error, parsed⟩
    · rw [hrun] at hconsistent
      exact ⟨agree_build hconsistent (.refl parsed) hsize,
        ending_build_congr hconsistent.sound hsize⟩
    · exact ⟨.error error parsed parsed, rfl⟩
  · exact agree_build h.consistent (hrebuilt.same h.consistent) hsize

/-- What parsing a source leaves after another one has been refused. -/
def reparsed : Assembler :=
  ending ((parse crossReferences).run halfStoredParsed)

/-- A source has been refused half-way and another one parsed, and a build of it has failed. Nothing
of that shows in a build that succeeds, or in what is assembled after that. -/
theorem history_leaves_no_trace_reparsed :
    ∃ tried, Reachable true tried ∧
      error? ((build (Array.replicate 2 0)).run reparsed) = some ⟨some 2, .programTooLarge⟩ ∧
      succeeded ((build (Array.replicate 20 0)).run reparsed) = true ∧
      Agree ((build (Array.replicate 20 9)).run tried)
        ((build (Array.replicate 20 0)).run reparsed) ∧
      Agree ((assemble halfStored (Array.replicate 20 9)).run tried)
        ((assemble halfStored (Array.replicate 20 0)).run (empty tried.capacities)) := by
  have hrefused : Reachable _ halfStoredParsed := (Reachable.empty _).parse halfStored
  have haccepted : succeeded ((parse crossReferences).run halfStoredParsed) = true := by
    decide +kernel
  have hparsed : Reachable true reparsed := by
    rw [← haccepted]
    exact hrefused.parse crossReferences
  have htried := hparsed.build (Array.replicate 2 0)
  obtain ⟨-, hbuild⟩ := history_leaves_no_trace hparsed
  obtain ⟨hassemble, -⟩ := history_leaves_no_trace htried
  refine ⟨_, htried, by decide +kernel, by decide +kernel, ?_, ?_⟩
  · exact hbuild _ (.build .nothing _) _ _ (by rw [Array.size_replicate, Array.size_replicate])
  · exact (hassemble halfStored _ _ (by rw [Array.size_replicate, Array.size_replicate])).1

end

end Assembler

end RegisterMachine.Assembly
