import RegisterMachine.Proofs.Assembly.Relocation
import RegisterMachine.Proofs.Text.Words

/-!
# Two sources, one after the other

Two sources that assemble and share no symbol assemble together, one after the other, if there is
room for both (`Assembler.assembly_composes`). The image is that of the first one followed by that
of the second one, relocated by the size of the first image. The symbols are those of both, those of
the second one raised alike, and all sizes add up.

The lines of the whole are those of the parts, so its clauses are theirs, with new numbers for the
lines of the second one (`clausesOf_lines_append`). Then symbols of the first part keep their
addresses and those of the second one are moved by what the first one takes
(`addressOf_append_left`, `addressOf_append_right`), and the image follows (`image_append`).
-/

namespace RegisterMachine.Assembly

/-! ## Line numbers -/

/-- Clauses with all lines counted from a later one. -/
def renumbered (amount : Nat) (clauses : List (Nat × Clause)) : List (Nat × Clause) :=
  clauses.map fun entry => (amount + entry.1, entry.2)

section

variable (amount : Nat) (clauses : List (Nat × Clause))

/-- There are as many clauses as before. -/
@[simp] theorem length_renumbered : (renumbered amount clauses).length = clauses.length :=
  List.length_map _

/-- Line numbers do not show in the image. -/
theorem imageOf_renumbered (addressOf : List Char → Nat) :
    imageOf addressOf (renumbered amount clauses) = imageOf addressOf clauses :=
  List.flatMap_map ..

/-- Line numbers do not show in the constants. -/
theorem constantsOf_renumbered : constantsOf (renumbered amount clauses) = constantsOf clauses :=
  List.flatMap_map ..

/-- Line numbers do not show in the definitions. -/
theorem symbolsOf_renumbered : symbolsOf (renumbered amount clauses) = symbolsOf clauses := by
  unfold symbolsOf renumbered
  rw [List.filter_map, List.map_map]
  rfl

/-- Line numbers do not show in a sum over clauses. -/
theorem sum_renumbered (f : Clause → Nat) :
    ((renumbered amount clauses).map fun entry => f entry.2).sum =
      (clauses.map fun entry => f entry.2).sum := by
  unfold renumbered
  rw [List.map_map]
  rfl

/-- Line numbers do not show in the addresses of symbols. -/
theorem labelsOf_renumbered (start : Nat) :
    labelsOf start (renumbered amount clauses) = labelsOf start clauses := by
  induction clauses generalizing start with
  | nil => rfl
  | cons entry rest ih =>
    show labelsOf start (_ :: renumbered amount rest) = _
    rw [labelsOf, labelsOf, ih]

/-- Line numbers move no clause. -/
theorem startsFrom_renumbered (start : Nat) :
    StartsFrom start (renumbered amount clauses) ↔ StartsFrom start clauses := by
  induction clauses generalizing start with
  | nil => exact Iff.rfl
  | cons entry rest ih =>
    show StartsFrom start (_ :: renumbered amount rest) ↔ _
    rw [StartsFrom, StartsFrom, ih]

end

/-- Lines read the same wherever they are counted from. -/
theorem clausesOf_add {amount number : Nat} {lines : List (List Char)}
    {clauses : List (Nat × Clause)} (h : clausesOf number lines = .ok clauses) :
    clausesOf (amount + number) lines = .ok (renumbered amount clauses) := by
  induction lines generalizing number clauses with
  | nil =>
    cases h
    rfl
  | cons text rest ih =>
    obtain ⟨clause?, hread, h⟩ := bind_eq_ok_iff.mp h
    obtain ⟨others, hrest, h⟩ := bind_eq_ok_iff.mp h
    cases h
    refine bind_eq_ok_iff.mpr ⟨clause?, hread, bind_eq_ok_iff.mpr ⟨_, ih hrest, ?_⟩⟩
    rcases clause? with _ | clause <;> rfl

/-- Lines after others read as they do by themselves. -/
theorem clausesOf_append {number : Nat} {first second : List (List Char)}
    {clauses clauses' : List (Nat × Clause)} (hfirst : clausesOf number first = .ok clauses)
    (hsecond : clausesOf (number + first.length) second = .ok clauses') :
    clausesOf number (first ++ second) = .ok (clauses ++ clauses') := by
  induction first generalizing number clauses with
  | nil =>
    cases hfirst
    exact hsecond
  | cons text rest ih =>
    obtain ⟨clause?, hread, hfirst⟩ := bind_eq_ok_iff.mp hfirst
    obtain ⟨others, hrest, hfirst⟩ := bind_eq_ok_iff.mp hfirst
    cases hfirst
    rw [List.length_cons, Nat.add_comm rest.length, ← Nat.add_assoc] at hsecond
    refine bind_eq_ok_iff.mpr ⟨clause?, hread, bind_eq_ok_iff.mpr ⟨_, ih hrest hsecond, ?_⟩⟩
    rw [List.append_assoc]
    rfl

/-- Empty lines read as no clauses. -/
theorem clausesOf_blanks (number : Nat) {lines : List (List Char)} (h : ∀ line ∈ lines, line = []) :
    clausesOf number lines = .ok [] := by
  induction lines generalizing number with
  | nil => rfl
  | cons text rest ih =>
    rw [List.forall_mem_cons] at h
    obtain ⟨rfl, hrest⟩ := h
    refine bind_eq_ok_iff.mpr ⟨none, rfl, bind_eq_ok_iff.mpr ⟨[], ih _ hrest, rfl⟩⟩

/-- The clauses of two sources with a line feed between them. -/
theorem clausesOf_lines_append {source source' : String} {clauses clauses' : List (Nat × Clause)}
    (h : clausesOf 0 (Text.lines source.toList) = .ok clauses)
    (h' : clausesOf 0 (Text.lines source'.toList) = .ok clauses') :
    ∃ amount, clausesOf 0 (Text.lines (source ++ "\n" ++ source').toList) =
      .ok (clauses ++ renumbered amount clauses') := by
  -- A line feed at the end of a source ends its last line. With another one after it, it leaves a
  -- blank line there, which reads as no clause.
  obtain ⟨blanks, hpieces, hblanks⟩ := Text.exists_splitOn_eq_lines source.toList
  have hfirst : clausesOf 0 (source.toList.splitOn '\n') = .ok clauses := by
    rw [hpieces, ← List.append_nil clauses]
    exact clausesOf_append h (clausesOf_blanks _ hblanks)
  have htext : (source ++ "\n" ++ source').toList =
      source.toList ++ '\n' :: source'.toList := by
    rw [String.toList_append, String.toList_append, List.append_assoc]
    rfl
  refine ⟨(source.toList.splitOn '\n').length, ?_⟩
  rw [htext, Text.lines_append]
  refine clausesOf_append hfirst ?_
  rw [Nat.zero_add]
  exact clausesOf_add h'

namespace Assembler

/-! ## Clauses after others -/

/-- Clauses assemble within capacities, into a buffer of a given size. -/
structure Assembles (capacities : Capacities) (size : Nat) (clauses : List (Nat × Clause)) :
    Prop where
  admits : (empty capacities).AdmitsAll clauses
  starts : StartsFrom 0 clauses
  room : (imageOf (fun _ => 0) clauses).length ≤ size
  closed : Closed clauses

/-- The lines of a source can be numbered. -/
def Numbered (source : String) : Prop :=
  (Text.lines source.toList).length ≤ maxLine

/-- A source is assembled exactly if its lines can be numbered and read as clauses that assemble,
and the program is theirs. -/
theorem assemble_run_eq_ok_iff_assembles {source : String} {buffer : Array UInt8}
    {assembler final : Assembler} {program : Program} :
    (assemble source buffer).run assembler = .ok program final ↔
      Numbered source ∧ ∃ clauses, clausesOf 0 (Text.lines source.toList) = .ok clauses ∧
        Assembles assembler.capacities buffer.size clauses ∧
        program = (ofClauses assembler.capacities clauses).program buffer ∧
        final = (ofClauses assembler.capacities clauses).settled := by
  rw [assemble_run_eq_ok_iff]
  refine and_congr Iff.rfl (exists_congr fun clauses => and_congr Iff.rfl ?_)
  rw [← closed_iff_resolves, fits_ofClauses_iff_startsFrom]
  constructor
  · rintro ⟨hadmits, ⟨hstarts, hroom⟩, hclosed, hresult⟩
    exact ⟨⟨hadmits, hstarts, hroom, hclosed⟩, hresult⟩
  · rintro ⟨h, hresult⟩
    exact ⟨h.admits, ⟨h.starts, h.room⟩, h.closed, hresult⟩

section

variable {capacities capacities' joined : Capacities} {size size' total lines : Nat}
  {first second : List (Nat × Clause)}

/-- Symbols keep their addresses when further clauses follow. -/
theorem addressOf_append_left (hfirst : Assembles capacities size first)
    (hboth : Assembles joined total (first ++ second)) {name : Name} (h : name ∈ symbolsOf first) :
    (ofClauses joined (first ++ second)).settled.symbols.addressOf name.chars =
      (ofClauses capacities first).settled.symbols.addressOf name.chars := by
  obtain ⟨front, entry, back, rfl, hdefines, rfl⟩ := exists_split_of_mem_symbolsOf h
  rw [addressOf_settled hfirst.admits hfirst.starts rfl hdefines,
    addressOf_settled hboth.admits hboth.starts (List.append_assoc ..) hdefines]

/-- Symbols are moved by what the clauses before take. -/
theorem addressOf_append_right (hsecond : Assembles capacities size second)
    (hboth : Assembles joined total (first ++ renumbered lines second)) {name : Name}
    (h : name ∈ symbolsOf second) :
    (ofClauses joined (first ++ renumbered lines second)).settled.symbols.addressOf name.chars =
      (ofClauses capacities second).settled.symbols.addressOf name.chars +
        (imageOf (fun _ => 0) first).length := by
  obtain ⟨front, entry, back, rfl, hdefines, rfl⟩ := exists_split_of_mem_symbolsOf h
  have hsplit : first ++ renumbered lines (front ++ entry :: back) =
      (first ++ renumbered lines front) ++ (lines + entry.1, entry.2) :: renumbered lines back := by
    rw [List.append_assoc]
    exact congrArg (first ++ ·) (List.map_append ..)
  have hmoved := addressOf_settled hboth.admits hboth.starts hsplit hdefines
  rw [addressOf_settled hsecond.admits hsecond.starts rfl hdefines, hmoved, imageOf_append,
    List.length_append, imageOf_renumbered, Nat.add_comm]

/-- The image of clauses after others is that of the others, and then their own with the addresses
raised by what the others take. -/
theorem image_append (hfirst : Assembles capacities size first)
    (hsecond : Assembles capacities' size' second)
    (hboth : Assembles joined total (first ++ renumbered lines second)) :
    (ofClauses joined (first ++ renumbered lines second)).image =
      (ofClauses capacities first).image ++
        (ofClauses capacities' second).settled.relocate (imageOf (fun _ => 0) first).length
          (ofClauses capacities' second).image := by
  rw [image_ofClauses, image_ofClauses, image_ofClauses, relocate_settled hsecond.starts,
    imageOf_append, imageOf_renumbered]
  congr 1
  -- Each part refers to its own symbols only, since each of them assembles by itself.
  · exact imageOf_congr fun entry hmem field hfield =>
      addressOf_append_left hfirst hboth (hfirst.closed entry hmem field hfield)
  · exact imageOf_congr fun entry hmem field hfield =>
      addressOf_append_right hsecond hboth (hsecond.closed entry hmem field hfield)

/-- The labels of two sources one after the other are those of the first, and those of the second
moved behind the image of the first. -/
theorem labels_append (hfirst : Assembles capacities size first)
    (hsecond : Assembles capacities' size' second)
    (hboth : Assembles joined total (first ++ renumbered lines second)) :
    (ofClauses joined (first ++ renumbered lines second)).settled.labels =
      (ofClauses capacities first).settled.labels ++
        (ofClauses capacities' second).settled.labels.map fun label =>
          (label.1, (imageOf (fun _ => 0) first).length + label.2) := by
  rw [labels_ofClauses hboth.admits hboth.starts, labels_ofClauses hfirst.admits hfirst.starts,
    labels_ofClauses hsecond.admits hsecond.starts, labelsOf_append, labelsOf_renumbered,
    Nat.zero_add, ← labelsOf_add, Nat.add_zero]

/-- Two sources that define all their symbols do so one after the other. -/
theorem closed_append (hfirst : Closed first) (hsecond : Closed second) :
    Closed (first ++ renumbered lines second) := by
  intro entry hmem field hfield
  rw [symbolsOf_append, symbolsOf_renumbered, List.mem_append]
  rcases List.mem_append.mp hmem with hmem | hmem
  · exact .inl (hfirst entry hmem field hfield)
  · obtain ⟨source, hsource, rfl⟩ := List.mem_map.mp hmem
    exact .inr (hsecond source hsource field hfield)

end

/-! ## Two sources -/

/-- What two sources have assembled to has room together, the second one after the first one. -/
structure Joins (capacities : Capacities) (size : Nat) (program program' : Program)
    (final final' : Assembler) : Prop where
  /-- No symbol is defined by both. -/
  distinct : ∀ name ∈ final.names, name ∉ final'.names
  statements : capacities.statements.admits
    (final.statements.size + final'.statements.size) = true
  symbols : capacities.symbols.admits
    (final.symbols.entries.length + final'.symbols.entries.length) = true
  constants : capacities.constants.admits (final.pool.size + final'.pool.size) = true
  /-- The statements of the second one start at 16-bit addresses. -/
  starts : ∀ statement ∈ final'.statements.toList,
    program.romSize + statement.address.toNat ≤ 0xFFFF
  buffer : program.romSize + program'.romSize ≤ size

/-- Two programs can be tested for joining. -/
instance (capacities : Capacities) (size : Nat) (program program' : Program)
    (final final' : Assembler) : Decidable (Joins capacities size program program' final final') :=
  decidable_of_iff
    ((∀ name ∈ final.names, name ∉ final'.names) ∧
      capacities.statements.admits (final.statements.size + final'.statements.size) = true ∧
      capacities.symbols.admits
        (final.symbols.entries.length + final'.symbols.entries.length) = true ∧
      capacities.constants.admits (final.pool.size + final'.pool.size) = true ∧
      (∀ statement ∈ final'.statements.toList,
        program.romSize + statement.address.toNat ≤ 0xFFFF) ∧
      program.romSize + program'.romSize ≤ size)
    ⟨fun ⟨distinct, statements, symbols, constants, starts, buffer⟩ =>
      ⟨distinct, statements, symbols, constants, starts, buffer⟩,
    fun h => ⟨h.distinct, h.statements, h.symbols, h.constants, h.starts, h.buffer⟩⟩

/-- What two sources assemble to, the second one after the first one. -/
structure Composes (program program' whole : Program) (final final' joint : Assembler) : Prop where
  /-- The image of the second one is relocated. -/
  image : whole.image = program.image ++ final'.relocate program.romSize program'.image
  /-- Each of its fields that hold the address of a symbol is raised by the size of the first
  image. -/
  raised : ∀ statement ∈ final'.statements.toList,
    ∀ field, statement.fieldInImage? = some field →
      { field with offset := program.romSize + field.offset }.value whole.image =
        field.value program'.image + program.romSize
  /-- All its other bytes stay as they are. -/
  kept : ∀ i, (∀ statement ∈ final'.statements.toList,
      ∀ field, statement.fieldInImage? = some field → ¬ field.Covers i) →
    whole.image[program.romSize + i]? = program'.image[i]?
  labels : joint.labels =
    final.labels ++ final'.labels.map fun label => (label.1, program.romSize + label.2)
  romSize : whole.romSize = program.romSize + program'.romSize
  ramSize : whole.ramSize = program.ramSize + program'.ramSize
  constantsSize : whole.constantsSize = program.constantsSize + program'.constantsSize

/-- What can be parsed is refused if it has more lines than there are numbers. -/
theorem parseLines_overflow {number : Nat} {lines : List (List Char)} {assembler : Assembler}
    {clauses : List (Nat × Clause)} (hnumber : number ≤ maxLine)
    (hmany : maxLine < number + lines.length) (hclauses : clausesOf number lines = .ok clauses)
    (hadmits : assembler.AdmitsAll clauses) :
    ∃ final, (parseLines number lines).run assembler =
      .error ⟨none, .lineNumberOverflow⟩ final := by
  induction lines generalizing number assembler clauses with
  | nil => exact absurd hmany (Nat.not_lt.mpr hnumber)
  | cons text rest ih =>
    by_cases hlast : number = maxLine
    · rw [parseLines, if_pos hlast]
      exact ⟨assembler, rfl⟩
    · obtain ⟨clause?, hread, hclauses⟩ := bind_eq_ok_iff.mp hclauses
      obtain ⟨others, hrest, hconcat⟩ := bind_eq_ok_iff.mp hclauses
      cases hconcat
      rw [List.length_cons] at hmany
      -- A blank line adds nothing to the clauses or to the assembler.
      obtain ⟨hfirst, hothers⟩ : assembler.Admits? clause? ∧
          (assembler.extend? (number + 1) clause?).AdmitsAll others := by
        rcases clause? with _ | clause
        · exact ⟨trivial, hadmits⟩
        · exact hadmits
      rw [parseLines_cons_run hlast, Parse.line_run_eq_ok_iff.mpr ⟨clause?, hread, hfirst, rfl⟩]
      exact ih (by omega) (by omega) hrest hothers

section

variable (capacities : Capacities) (clauses : List (Nat × Clause))

/-- There are as many symbols as definitions. -/
theorem length_symbols_settled :
    (ofClauses capacities clauses).settled.symbols.entries.length = (symbolsOf clauses).length := by
  rw [← names_settled_ofClauses capacities clauses]
  exact (List.length_map _).symm

/-- There are as many statements as clauses. -/
theorem size_statements_settled :
    (ofClauses capacities clauses).settled.statements.size = clauses.length := by
  unfold settled
  rw [List.size_toArray, Layout.length_located, statements_ofClauses, length_statementsOf]

end

/-- The image is as long as the bytes of all clauses. -/
theorem length_image_ofClauses (capacities : Capacities) (clauses : List (Nat × Clause)) :
    (ofClauses capacities clauses).image.length = (imageOf (fun _ => 0) clauses).length := by
  rw [image_ofClauses]
  exact length_imageOf ..

section

variable {capacities capacities' joined : Capacities} {buffer buffer' output : Array UInt8}
  {first second : List (Nat × Clause)}

/-- Clauses that assemble and have room together assemble one after the other. -/
theorem Joins.assembles
    (hjoins : Joins joined output.size ((ofClauses capacities first).program buffer)
      ((ofClauses capacities' second).program buffer') (ofClauses capacities first).settled
      (ofClauses capacities' second).settled)
    (hfirst : Assembles capacities buffer.size first)
    (hsecond : Assembles capacities' buffer'.size second) (lines : Nat) :
    Assembles joined output.size (first ++ renumbered lines second) := by
  obtain ⟨hdistinct, hstatements, hsymbols, hconstants, hstarts, hroom⟩ := hjoins
  rw [names_settled_ofClauses, names_settled_ofClauses] at hdistinct
  rw [size_statements_settled, size_statements_settled] at hstatements
  rw [length_symbols_settled, length_symbols_settled] at hsymbols
  change joined.constants.admits ((ofClauses capacities first).pool.size +
    (ofClauses capacities' second).pool.size) = true at hconstants
  rw [← Array.length_toList, ← Array.length_toList, pool_ofClauses, pool_ofClauses] at hconstants
  change (ofClauses capacities first).image.length + (ofClauses capacities' second).image.length ≤
    output.size at hroom
  rw [length_image_ofClauses, length_image_ofClauses] at hroom
  refine ⟨admitsAll_empty_iff.mpr ⟨?_, withinCapacities_ofClauses_iff.mpr ⟨?_, ?_, ?_⟩⟩, ?_, ?_,
    closed_append hfirst.closed hsecond.closed⟩
  · -- Symbols are distinct in each part, and none is in both.
    have hnodup := (admitsAll_empty_iff.mp hfirst.admits).1
    have hnodup' := (admitsAll_empty_iff.mp hsecond.admits).1
    unfold names at hnodup hnodup' ⊢
    rw [names_ofClauses] at hnodup hnodup' ⊢
    rw [symbolsOf_append, symbolsOf_renumbered]
    refine List.nodup_append.mpr ⟨hnodup, hnodup', fun name hname other hother hsame => ?_⟩
    exact hdistinct name hname (hsame ▸ hother)
  · rwa [List.length_append, length_renumbered]
  · rwa [symbolsOf_append, symbolsOf_renumbered, List.length_append]
  · rwa [constantsOf_append, constantsOf_renumbered, List.length_append]
  · rw [startsFrom_append, startsFrom_renumbered, Nat.zero_add]
    refine ⟨hfirst.starts, startsFrom_iff.mpr fun front entry back hsplit => ?_⟩
    -- The statement of a clause has the address at which the clause starts.
    have hstart := startsFrom_iff.mp hsecond.starts front entry back hsplit
    have hbound := hstarts _ (List.mem_of_getElem?
      ((List.getElem?_toArray ..).symm.trans (getElem?_settled hsplit)))
    change (ofClauses capacities first).image.length + (UInt16.ofNat _).toNat ≤ 0xFFFF at hbound
    rw [Nat.zero_add] at hstart
    rwa [length_image_ofClauses, UInt16.toNat_ofNat_of_lt' (Nat.lt_succ_of_le hstart)] at hbound
  · rwa [imageOf_append, imageOf_renumbered, List.length_append]

/-- A field of the second clauses is raised by what the first ones take, whatever has their
length. -/
theorem value_relocate {lines : Nat} (hsecond : Assembles capacities' buffer'.size second)
    (hboth : Assembles joined output.size (first ++ renumbered lines second))
    {statement : Statement}
    (hmem : statement ∈ (ofClauses capacities' second).settled.statements.toList)
    {field : Reference} (hfield : statement.fieldInImage? = some field) {front : List UInt8}
    (hfront : front.length = (imageOf (fun _ => 0) first).length) :
    { field with offset := front.length + field.offset }.value (front ++
        (ofClauses capacities' second).settled.relocate front.length
          (ofClauses capacities' second).image) =
      field.value (ofClauses capacities' second).image + front.length := by
  obtain ⟨⟨entry, hentry, source, hsource, hsymbol⟩, hholds⟩ :=
    field_settled hsecond.starts hmem hfield
  have hmoved := addressOf_append_right hsecond hboth (hsecond.closed entry hentry source hsource)
  rw [hsymbol, ← hfront] at hmoved
  rw [image_ofClauses, relocate_settled hsecond.starts, ← List.append_nil (_ ++ _),
    Reference.value_append (hholds _).1, (hholds _).2 (hmoved ▸ SymbolTable.addressOf_le ..),
    (hholds _).2 (SymbolTable.addressOf_le ..)]

/-- Clauses that assemble one after the other assemble to what they do by themselves, the second
ones relocated. -/
theorem Assembles.composes {lines : Nat} (hfirst : Assembles capacities buffer.size first)
    (hsecond : Assembles capacities' buffer'.size second)
    (hboth : Assembles joined output.size (first ++ renumbered lines second)) :
    Composes ((ofClauses capacities first).program buffer)
      ((ofClauses capacities' second).program buffer')
      ((ofClauses joined (first ++ renumbered lines second)).program output)
      (ofClauses capacities first).settled (ofClauses capacities' second).settled
      (ofClauses joined (first ++ renumbered lines second)).settled := by
  have hsize : ((ofClauses capacities first).program buffer).romSize =
      (ofClauses capacities first).image.length := rfl
  have hlength := length_image_ofClauses capacities first
  have himage := image_append hfirst hsecond hboth
  rw [← hlength] at himage
  -- The image is the first one, followed by the second one with its fields moved.
  refine ⟨?_, fun statement hmem field hfield => ?_, fun i hi => ?_, ?_, ?_, ?_, ?_⟩
  · rw [hsize, image_program, image_program, image_program]
    exact himage
  · rw [hsize, image_program, image_program, himage]
    exact value_relocate hsecond hboth hmem hfield hlength
  · -- A byte outside of all fields only moves.
    rw [hsize, image_program, image_program, himage,
      List.getElem?_append_right (Nat.le_add_right ..), Nat.add_sub_cancel_left]
    refine getElem?_relocate (fun statement hmem field hfield => ?_) _ hi
    rw [image_ofClauses]
    exact ((field_settled hsecond.starts hmem hfield).2 _).1
  · rw [hsize, hlength]
    exact labels_append hfirst hsecond hboth
  · change List.length _ = _ + List.length _
    rw [hsize, length_image_ofClauses, length_image_ofClauses, length_image_ofClauses,
      imageOf_append, imageOf_renumbered, List.length_append]
  · change List.sum _ = List.sum _ + List.sum _
    rw [ramSize_ofClauses, ramSize_ofClauses, ramSize_ofClauses, List.map_append, List.sum_append,
      sum_renumbered]
  · change List.sum _ = List.sum _ + List.sum _
    rw [constantsSize_ofClauses, constantsSize_ofClauses, constantsSize_ofClauses, List.map_append,
      List.sum_append]
    exact congrArg (_ + ·) (sum_renumbered lines second fun clause => clause.constants.length)

end

/-- Two sources that assemble and share no symbol assemble together, one after the other, if there
is room for both and their lines can be numbered. What they assemble to is the image of the first
one and that of the second one with all its symbols moved by what the first one takes. More lines
than there are numbers are refused for just that. -/
theorem assembly_composes {source source' : String} {buffer buffer' : Array UInt8}
    {assembler assembler' final final' joint : Assembler} {program program' : Program}
    (h : (assemble source buffer).run assembler = .ok program final)
    (h' : (assemble source' buffer').run assembler' = .ok program' final')
    (output : Array UInt8)
    (hjoins : Joins joint.capacities output.size program program' final final') :
    (Numbered (source ++ "\n" ++ source') →
      ∃ whole last, (assemble (source ++ "\n" ++ source') output).run joint = .ok whole last ∧
        Composes program program' whole final final' last) ∧
    (¬ Numbered (source ++ "\n" ++ source') →
      ∃ last, (assemble (source ++ "\n" ++ source') output).run joint =
        .error ⟨none, .lineNumberOverflow⟩ last) := by
  obtain ⟨-, clauses, hclauses, hfirst, rfl, rfl⟩ := assemble_run_eq_ok_iff_assembles.mp h
  obtain ⟨-, clauses', hclauses', hsecond, rfl, rfl⟩ := assemble_run_eq_ok_iff_assembles.mp h'
  obtain ⟨lines, hwhole⟩ := clausesOf_lines_append hclauses hclauses'
  have hboth := hjoins.assembles hfirst hsecond lines
  constructor
  · intro hnumbered
    exact ⟨_, _, assemble_run_eq_ok_iff_assembles.mpr ⟨hnumbered, _, hwhole, hboth, rfl, rfl⟩,
      hfirst.composes hsecond hboth⟩
  · -- Nothing in the lines is refused before the numbers run out.
    intro hnumbered
    have hmany : maxLine < 0 + (Text.lines (source ++ "\n" ++ source').toList).length := by
      rw [Nat.zero_add]
      exact Nat.lt_of_not_le hnumbered
    obtain ⟨last, hrun⟩ := parseLines_overflow (Nat.zero_le _) hmany hwhole hboth.admits
    exact ⟨last, bind_run_eq_error_iff.mpr (.inl hrun)⟩

/-- A source with jumps forward and back and a reservation. -/
def jumping : String :=
  ".loop:\njmp .end\n$count DV16 3\njmp .loop\n.end:\nhalt"

/-- A source that loads the address of a constant after it and jumps back. -/
def loading : String :=
  ".again:\nlcons r1, $more\n$more DC16 300\njmp .again"

/-- Two sources with references of both widths and in both directions, assembled one after the other
within bounds that leave nothing to spare. -/
theorem assembly_composes_jumping_loading :
    ∃ program program' whole final final' last,
      (assemble jumping (Array.replicate 20 0)).run (empty ⟨none, none, none⟩) =
        .ok program final ∧
      (assemble loading (Array.replicate 20 0)).run (empty ⟨none, none, none⟩) =
        .ok program' final' ∧
      (assemble (jumping ++ "\n" ++ loading) (Array.replicate 18 9)).run
        (empty ⟨some 10, some 5, some 2⟩) = .ok whole last ∧
      Composes program program' whole final final' last := by
  have hjoins : (match
      (assemble jumping (Array.replicate 20 0)).run (empty ⟨none, none, none⟩),
      (assemble loading (Array.replicate 20 0)).run (empty ⟨none, none, none⟩) with
    | .ok program final, .ok program' final' =>
      decide (Joins ⟨some 10, some 5, some 2⟩ 18 program program' final final')
    | _, _ => false) = true := by decide +kernel
  have hnumbered : Numbered (jumping ++ "\n" ++ loading) := by
    show _ ≤ _
    decide +kernel
  split at hjoins
  · rename_i program final program' final' hrun hrun'
    have h : Joins (empty ⟨some 10, some 5, some 2⟩).capacities
        (Array.replicate 18 (9 : UInt8)).size program program' final final' :=
      of_decide_eq_true hjoins
    obtain ⟨hcomposes, -⟩ := assembly_composes hrun hrun' _ h
    obtain ⟨whole, last, hwhole, h⟩ := hcomposes hnumbered
    exact ⟨program, program', whole, final, final', last, hrun, hrun', hwhole, h⟩
  · cases hjoins

end Assembler

end RegisterMachine.Assembly
