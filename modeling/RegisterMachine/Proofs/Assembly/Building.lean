import RegisterMachine.Proofs.Assembly.Representation

/-!
# When a build succeeds, and which line it blames

A statement starts after the bytes of those before it and ends after its own. A build succeeds
exactly when every statement starts at a 16-bit address and ends within the output buffer, and every
symbol that an instruction refers to is in the table. Otherwise it names the line of the first
statement for which there is no room, whatever symbols are missing, or else the line of the first
instruction whose symbol is missing. There is no other error
(`build_succeeds_iff_and_blames_first`).
-/

namespace RegisterMachine.Assembly.Assembler

/-- There is room in a buffer for every statement of an assembler. -/
def HasRoomForAll (size : Nat) (assembler : Assembler) : Prop :=
  ∀ front statement back, assembler.statements.toList = front ++ statement :: back →
    HasRoom size front statement

/-- The symbol that a statement refers to is defined, if there is one. -/
def Defines (assembler : Assembler) (statement : Statement) : Prop :=
  ∀ reference, statement.reference? = some reference → reference.symbol ∈ assembler.names

/-- The first statement for which there is no room. -/
def FirstWithoutRoom (size : Nat) (assembler : Assembler) (statement : Statement) : Prop :=
  ∃ front back, assembler.statements.toList = front ++ statement :: back ∧
    (∀ before statement' after, front = before ++ statement' :: after →
      HasRoom size before statement') ∧
    ¬ HasRoom size front statement

/-- The first statement whose symbol is not defined, and that symbol. -/
def FirstUndefined (assembler : Assembler) (statement : Statement) (symbol : Name) : Prop :=
  ∃ front back reference, assembler.statements.toList = front ++ statement :: back ∧
    (∀ statement' ∈ front, assembler.Defines statement') ∧
    statement.reference? = some reference ∧ reference.symbol = symbol ∧ symbol ∉ assembler.names

variable {assembler : Assembler} {complete : Bool} {buffer : Array UInt8}

/-- A build changes no name of a symbol. -/
theorem names_settled (assembler : Assembler) : assembler.settled.names = assembler.names :=
  Layout.map_name_assignAll ..

/-- Addresses define no symbols. -/
theorem isSome_address?_settled_iff {name : Name} :
    (assembler.settled.symbols.address? name.chars).isSome ↔ name ∈ assembler.names := by
  rw [SymbolTable.address?_isSome_iff, ← names_settled]
  rfl

/-- After a build a symbol has an address exactly if it is defined. -/
theorem resolves_settled_iff {statement : Statement} :
    statement.Resolves assembler.settled.symbols ↔ assembler.Defines statement := by
  unfold Statement.Resolves Defines
  simp only [isSome_address?_settled_iff]

/-- The first statement for which there is no room makes the build fail. -/
theorem FirstWithoutRoom.build_run (h : assembler.Sound) {statement : Statement}
    (hfirst : assembler.FirstWithoutRoom buffer.size statement) :
    ∃ final, (build buffer).run assembler = .error ⟨some statement.line, .programTooLarge⟩ final := by
  obtain ⟨front, back, hsplit, hfront, hroom⟩ := hfirst
  have hfits := (fits_start_iff h hsplit).not.mpr hroom
  exact ⟨_, build_run_of_not_fits h hsplit ((fitsAll_start_iff h hsplit).mpr hfront) hfits⟩

/-- Where there is room, the first statement whose symbol is not defined makes the build fail. -/
theorem FirstUndefined.build_run (h : assembler.Sound) {statement : Statement} {symbol : Name}
    (hroom : assembler.HasRoomForAll buffer.size)
    (hfirst : assembler.FirstUndefined statement symbol) :
    ∃ final, (build buffer).run assembler =
      .error ⟨some statement.line, .labelNotFound symbol⟩ final := by
  obtain ⟨front, back, reference, hsplit, hfront, hreference, rfl, hundefined⟩ := hfirst
  have hnone : assembler.settled.symbols.address? reference.symbol.chars = none := by
    rw [← Option.not_isSome_iff_eq_none, isSome_address?_settled_iff]
    exact hundefined
  have hresolves : ∀ statement' ∈ front, statement'.Resolves assembler.settled.symbols :=
    fun statement' hmem => resolves_settled_iff.mpr (hfront statement' hmem)
  exact ⟨_, build_run_of_not_resolves h ((fits_iff h).mpr hroom) hsplit hresolves hreference hnone⟩

/-- Where there is room for all and every symbol is defined, the build succeeds. -/
theorem build_run_of_defines (h : assembler.Sound) (hroom : assembler.HasRoomForAll buffer.size)
    (hdefines : ∀ statement ∈ assembler.statements.toList, assembler.Defines statement) :
    (build buffer).run assembler = .ok (assembler.program buffer) assembler.settled := by
  have hresolves : ∀ statement ∈ assembler.statements.toList,
      statement.Resolves assembler.settled.symbols :=
    fun statement hmem => resolves_settled_iff.mpr (hdefines statement hmem)
  exact (build_run_eq_ok_iff h.encloses).mpr ⟨(fits_iff h).mpr hroom, hresolves, rfl, rfl⟩

/-- Every build is of one of these three kinds. -/
theorem hasRoom_or_blames (h : assembler.Sound) (size : Nat) :
    (∃ statement, assembler.FirstWithoutRoom size statement) ∨
    assembler.HasRoomForAll size ∧
      ((∀ statement ∈ assembler.statements.toList, assembler.Defines statement) ∨
        ∃ statement symbol, assembler.FirstUndefined statement symbol) := by
  -- The passes depend on the buffer by its size alone, so any buffer of that size will do.
  obtain ⟨buffer, rfl⟩ : ∃ buffer : Array UInt8, buffer.size = size :=
    ⟨Array.replicate size 0, Array.size_replicate⟩
  rcases build_run_cases h buffer with ⟨front, statement, back, hsplit, hfront, hfits⟩ |
    ⟨hfits, hresolves | ⟨front, statement, back, reference, hsplit, hfront, hreference, hnone⟩⟩
  · have hroom := (fits_start_iff h hsplit).not.mp hfits
    exact .inl ⟨statement, front, back, hsplit, (fitsAll_start_iff h hsplit).mp hfront, hroom⟩
  · exact .inr ⟨(fits_iff h).mp hfits, .inl fun statement hmem =>
      resolves_settled_iff.mp (hresolves statement hmem)⟩
  · have hundefined : reference.symbol ∉ assembler.names := by
      rw [← isSome_address?_settled_iff, hnone]
      exact Bool.false_ne_true
    exact .inr ⟨(fits_iff h).mp hfits, .inr ⟨statement, reference.symbol, front, back, reference,
      hsplit, fun statement' hmem => resolves_settled_iff.mp (hfront statement' hmem), hreference,
      rfl, hundefined⟩⟩

/-- A build succeeds exactly when there is room for every statement and every symbol that is
referred to is defined. It fails with a line and a cause exactly when that is the line of the first
statement without room, for want of room, or, with room for all, the line of the first statement
whose symbol is not defined, for that symbol. -/
theorem build_succeeds_iff_and_blames_first (h : Reachable complete assembler)
    (buffer : Array UInt8) :
    (succeeded ((build buffer).run assembler) = true ↔
      assembler.HasRoomForAll buffer.size ∧
        ∀ statement ∈ assembler.statements.toList, assembler.Defines statement) ∧
    ∀ error, (∃ final, (build buffer).run assembler = .error error final) ↔
      (∃ statement, assembler.FirstWithoutRoom buffer.size statement ∧
        error = ⟨some statement.line, .programTooLarge⟩) ∨
      assembler.HasRoomForAll buffer.size ∧
        ∃ statement symbol, assembler.FirstUndefined statement symbol ∧
          error = ⟨some statement.line, .labelNotFound symbol⟩ := by
  have hsound := h.consistent.sound
  have hcases := hasRoom_or_blames hsound buffer.size
  refine ⟨⟨fun hsucceeded => ?_, fun ⟨hroom, hdefines⟩ => ?_⟩, fun error => ⟨?_, ?_⟩⟩
  · rcases hcases with ⟨statement, hfirst⟩ | ⟨hroom, hdefines | ⟨statement, symbol, hfirst⟩⟩
    · obtain ⟨final, hrun⟩ := hfirst.build_run hsound
      rw [hrun] at hsucceeded
      cases hsucceeded
    · exact ⟨hroom, hdefines⟩
    · obtain ⟨final, hrun⟩ := hfirst.build_run hsound hroom
      rw [hrun] at hsucceeded
      cases hsucceeded
  · rw [build_run_of_defines hsound hroom hdefines]
    rfl
  · -- Whichever kind the build is of, its result is known, and the error is that one.
    rintro ⟨final, herror⟩
    rcases hcases with ⟨statement, hfirst⟩ | ⟨hroom, hdefines | ⟨statement, symbol, hfirst⟩⟩
    · obtain ⟨final', hrun⟩ := hfirst.build_run hsound
      cases herror.symm.trans hrun
      exact .inl ⟨statement, hfirst, rfl⟩
    · cases herror.symm.trans (build_run_of_defines hsound hroom hdefines)
    · obtain ⟨final', hrun⟩ := hfirst.build_run hsound hroom
      cases herror.symm.trans hrun
      exact .inr ⟨hroom, statement, symbol, hfirst, rfl⟩
  · rintro (⟨statement, hfirst, rfl⟩ | ⟨hroom, statement, symbol, hfirst, rfl⟩)
    · exact hfirst.build_run hsound
    · exact hfirst.build_run hsound hroom

/-- A source that jumps to a symbol which no line defines. -/
def missingTarget : String :=
  "jmp .nowhere\n.here:\nhalt"

/-- What parsing this source leaves. -/
def missingTargetParsed : Assembler :=
  ending ((parse missingTarget).run (empty ⟨none, none, none⟩))

/-- In three bytes there is no room for the `halt`, which is blamed before the jump. With a fourth
byte the jump is. -/
theorem build_succeeds_iff_and_blames_first_missingTarget :
    (∃ statement, missingTargetParsed.FirstWithoutRoom 3 statement ∧ statement.line = 3) ∧
      missingTargetParsed.HasRoomForAll 4 ∧
      ∃ statement symbol, missingTargetParsed.FirstUndefined statement symbol ∧
        statement.line = 1 := by
  have haccepted : succeeded ((parse missingTarget).run (empty ⟨none, none, none⟩)) = true := by
    decide +kernel
  have hparsed : Reachable true missingTargetParsed := by
    rw [← haccepted]
    exact (Reachable.empty _).parse missingTarget
  have hsmall := exists_of_error?_eq_some (show
    error? ((build (Array.replicate 3 0)).run missingTargetParsed) =
      some ⟨some 3, .programTooLarge⟩ by decide +kernel)
  have hlarge := exists_of_error?_eq_some (show
    error? ((build (Array.replicate 4 0)).run missingTargetParsed) =
      some ⟨some 1, .labelNotFound ⟨".nowhere".toList, by decide⟩⟩ by decide +kernel)
  obtain ⟨-, hblames⟩ := build_succeeds_iff_and_blames_first hparsed (Array.replicate 3 0)
  obtain ⟨-, hblames'⟩ := build_succeeds_iff_and_blames_first hparsed (Array.replicate 4 0)
  refine ⟨?_, ?_⟩
  · rcases (hblames _).mp hsmall with ⟨statement, hfirst, heq⟩ | ⟨-, statement, symbol, -, heq⟩
    · exact ⟨statement, hfirst, (Option.some.inj (congrArg Error.line? heq)).symm⟩
    · cases congrArg Error.cause heq
  · rcases (hblames' _).mp hlarge with ⟨statement, -, heq⟩ |
      ⟨hroom, statement, symbol, hfirst, heq⟩
    · cases congrArg Error.cause heq
    · exact ⟨hroom, statement, symbol, hfirst,
        (Option.some.inj (congrArg Error.line? heq)).symm⟩

end RegisterMachine.Assembly.Assembler
