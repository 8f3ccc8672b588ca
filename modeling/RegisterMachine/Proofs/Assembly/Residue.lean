import RegisterMachine.Proofs.Computations
import RegisterMachine.Proofs.Assembly.Resolution

/-!
# What a refused source leaves

Parsing stops at the first line that is refused, and what was stored up to then stays. Of the line
itself there may be a `Residue`: its symbol, which is defined before the rest of the line is read,
and the bytes of those of its constants that have been stored. So what parsing leaves is what the
lines before it say and at most one such residue (`parse_leaves`).
-/

namespace RegisterMachine.Assembly

/-- Some bytes of constants have been stored and nothing else. -/
def Grown (assembler assembler' : Assembler) : Prop :=
  ∃ bytes : List UInt8, assembler' = { assembler with pool := assembler.pool ++ bytes }

/-- No bytes may have been stored. -/
theorem Grown.refl (assembler : Assembler) : Grown assembler assembler :=
  ⟨[], by rw [Array.appendList_nil]⟩

/-- Bytes may have been stored more than once. -/
theorem Grown.trans {assembler assembler' final : Assembler} (h : Grown assembler assembler')
    (h' : Grown assembler' final) : Grown assembler final := by
  obtain ⟨first, rfl⟩ := h
  obtain ⟨second, rfl⟩ := h'
  exact ⟨first ++ second, by rw [Parse.pool_append]⟩

/-- What a refused line may leave of itself: nothing, or a new symbol and bytes of its constants. -/
inductive Residue (assembler : Assembler) : Assembler → Prop where
  | nothing : Residue assembler assembler
  | symbol (name : Name) (bytes : List UInt8)
      (hfresh : assembler.symbols.defines name = false) :
      Residue assembler { assembler with
        symbols := assembler.symbols.add name
        pool := assembler.pool ++ bytes }

namespace Parse

variable {assembler assembler' : Assembler} {cause : Cause}

/-! ## Stores -/

/-- A definition that is refused leaves nothing. -/
theorem define_run_eq_error {name : Name}
    (h : (define name).run assembler = .error cause assembler') : assembler' = assembler := by
  unfold define at h
  rw [get_bind_run_eq_error_iff, demand_run_eq_error_iff, demand_run_eq_error_iff] at h
  rcases h with ⟨-, -, rfl⟩ | ⟨-, ⟨-, -, rfl⟩ | ⟨-, ⟨⟩⟩⟩ <;> rfl

/-- A statement that is refused leaves nothing. -/
theorem store_run_eq_error {statement : Statement}
    (h : (store statement).run assembler = .error cause assembler') : assembler' = assembler := by
  unfold store at h
  rw [get_bind_run_eq_error_iff, demand_run_eq_error_iff] at h
  rcases h with ⟨-, -, rfl⟩ | ⟨-, ⟨⟩⟩
  rfl

/-- Constants that are refused leave nothing. -/
theorem storeBytes_run_eq_error {bytes : List UInt8}
    (h : (storeBytes bytes).run assembler = .error cause assembler') : assembler' = assembler := by
  unfold storeBytes at h
  rw [get_bind_run_eq_error_iff, demand_run_eq_error_iff] at h
  rcases h with ⟨-, -, rfl⟩ | ⟨-, ⟨⟩⟩
  rfl

/-- Of pieces that are not all stored, the first ones are. -/
theorem forM_storeBytes_run_eq_error {pieces : List (List UInt8)}
    (h : (pieces.forM storeBytes).run assembler = .error cause assembler') :
    Grown assembler assembler' := by
  rw [List.forM_eq_forM] at h
  induction pieces generalizing assembler with
  | nil => cases h
  | cons piece pieces ih =>
    rw [List.forM_cons, bind_run_eq_error_iff] at h
    rcases h with hpiece | ⟨⟨⟩, _, hpiece, hrest⟩
    · rw [storeBytes_run_eq_error hpiece]
      exact .refl assembler
    · obtain ⟨-, rfl⟩ := storeBytes_run_eq_ok_iff.mp hpiece
      exact .trans ⟨piece, rfl⟩ (ih hrest)

/-- An item of constants stores bytes and nothing else. -/
theorem constant_run_eq_ok {width : Width} {item : List Char}
    (h : (constant width item).run assembler = .ok () assembler') :
    Grown assembler assembler' := by
  obtain ⟨pieces, -, h⟩ := ofExcept_bind_run_eq_ok_iff.mp h
  obtain ⟨-, rfl⟩ := forM_storeBytes_run_eq_ok_iff.mp h
  exact ⟨pieces.flatten, rfl⟩

/-- An item that is refused leaves at most bytes too. -/
theorem constant_run_eq_error {width : Width} {item : List Char}
    (h : (constant width item).run assembler = .error cause assembler') :
    Grown assembler assembler' := by
  rcases ofExcept_bind_run_eq_error_iff.mp h with ⟨-, rfl⟩ | ⟨pieces, -, h⟩
  · exact .refl _
  · exact forM_storeBytes_run_eq_error h

/-- Of items that are not all stored, the first ones are, and maybe a part of the next. -/
theorem forM_constant_run_eq_error {width : Width} {items : List (List Char)}
    (h : (items.forM fun item => constant width (Text.trim item)).run assembler =
      .error cause assembler') :
    Grown assembler assembler' := by
  rw [List.forM_eq_forM] at h
  induction items generalizing assembler with
  | nil => cases h
  | cons item items ih =>
    rw [List.forM_cons, bind_run_eq_error_iff] at h
    rcases h with hitem | ⟨⟨⟩, _, hitem, hrest⟩
    · exact constant_run_eq_error hitem
    · exact (constant_run_eq_ok hitem).trans (ih hrest)

/-! ## Lines -/

variable {number : Nat} {word rest : List Char}

/-- A label that is refused may leave its symbol, where there was no room for its statement. -/
theorem label_run_eq_error (h : (label number word rest).run assembler = .error cause assembler') :
    Residue assembler assembler' := by
  rcases ofExcept_bind_run_eq_error_iff.mp h with ⟨-, rfl⟩ | ⟨name, -, h⟩
  · exact .nothing
  · rcases bind_run_eq_error_iff.mp h with hdefine | ⟨⟨⟩, _, hdefine, hstore⟩
    · rw [define_run_eq_error hdefine]
      exact .nothing
    · -- The symbol is there, but there was no room for the statement.
      obtain ⟨hfresh, -, rfl⟩ := define_run_eq_ok_iff.mp hdefine
      rw [store_run_eq_error hstore]
      have hresidue := Residue.symbol name [] hfresh
      rwa [Array.appendList_nil] at hresidue

/-- An operation that is refused leaves no more than a residue. -/
theorem operation_run_eq_error {opcode : Opcode}
    (h : (operation number opcode word rest).run assembler = .error cause assembler') :
    Residue assembler assembler' := by
  rcases ofExcept_bind_run_eq_error_iff.mp h with ⟨-, rfl⟩ | ⟨statement, -, hstore⟩
  · exact .nothing
  · rw [store_run_eq_error hstore]
    exact .nothing

/-- A reservation that is refused leaves no more than bytes. -/
theorem reserve_run_eq_error {name : Name} {width : Width} {values : List Char}
    (h : (do
      let count ← MonadExcept.ofExcept (elementCount values)
      store ⟨number, name, .reservation width count, 0⟩ : Parse Unit).run assembler =
        .error cause assembler') :
    Grown assembler assembler' := by
  rcases ofExcept_bind_run_eq_error_iff.mp h with ⟨-, rfl⟩ | ⟨count, -, hstore⟩
  · exact .refl _
  · rw [store_run_eq_error hstore]
    exact .refl assembler

/-- Items of constants that are refused leave no more than bytes, those before the bad item. -/
theorem emit_run_eq_error {name : Name} {width : Width} {values : List Char}
    (h : (do
      let start := (← get).pool.size
      (Text.items values).forM fun item => constant width (Text.trim item)
      let stop := (← get).pool.size
      store ⟨number, name, .constants width start (stop - start), 0⟩ : Parse Unit).run assembler =
        .error cause assembler') :
    Grown assembler assembler' := by
  rw [get_bind_run_eq_error_iff] at h
  rcases bind_run_eq_error_iff.mp h with hitems | ⟨⟨⟩, _, hitems, hstore⟩
  · exact forM_constant_run_eq_error hitems
  · obtain ⟨bytes, -, -, rfl⟩ :=
      (forM_constant_run_eq_ok_iff (items_ne_nil values)).mp hitems
    rw [get_bind_run_eq_error_iff] at hstore
    rw [store_run_eq_error hstore]
    exact ⟨bytes, rfl⟩

/-- A directive that is refused leaves no more than its symbol and bytes. -/
theorem directive_run_eq_error
    (h : (directive number word rest).run assembler = .error cause assembler') :
    Residue assembler assembler' := by
  rcases ofExcept_bind_run_eq_error_iff.mp h with
    ⟨-, rfl⟩ | ⟨⟨name, ⟨storage, width⟩, values⟩, -, h⟩
  · exact .nothing
  · rcases bind_run_eq_error_iff.mp h with hdefine | ⟨⟨⟩, _, hdefine, hrest⟩
    · rw [define_run_eq_error hdefine]
      exact .nothing
    · obtain ⟨hfresh, -, rfl⟩ := define_run_eq_ok_iff.mp hdefine
      -- The symbol stays, whatever the values are refused for.
      rcases storage with _ | _
      · obtain ⟨bytes, rfl⟩ := emit_run_eq_error hrest
        exact .symbol name bytes hfresh
      · obtain ⟨bytes, rfl⟩ := reserve_run_eq_error hrest
        exact .symbol name bytes hfresh

/-- A line that is refused leaves at most a residue. -/
theorem line_run_eq_error {text : List Char}
    (h : (line number text).run assembler = .error cause assembler') :
    Residue assembler assembler' := by
  unfold line at h
  dsimp only at h
  generalize (Text.firstWord (Text.trim (Text.withoutComment text))).1 = word at h
  generalize (Text.firstWord (Text.trim (Text.withoutComment text))).2 = rest at h
  split at h
  · cases h
  · split at h
    · exact label_run_eq_error h
    · rcases hopcode : Opcode.ofMnemonic? word with _ | opcode
      · rw [hopcode] at h
        dsimp only at h
        split at h
        · exact directive_run_eq_error h
        · cases h
          exact .nothing
      · rw [hopcode] at h
        exact operation_run_eq_error h

end Parse

namespace Assembler

/-! ## Sources -/

/-- What parsing leaves: clauses with ascending numbers have been added, and if it has not succeeded
there may be a residue of the line after them. -/
structure Leaves (number : Nat) (assembler : Assembler) (clauses : List (Nat × Clause))
    (result : EStateM.Result Error Assembler Unit) : Prop where
  numbered : (number :: clauses.map Prod.fst).Pairwise (· < ·)
  admits : assembler.AdmitsAll clauses
  residue : Residue (assembler.extendAll clauses) (ending result)
  complete : succeeded result = true → ending result = assembler.extendAll clauses

/-- Parsing that is refused at its first line. -/
theorem Leaves.of_error {number : Nat} {assembler assembler' : Assembler} {error : Error}
    (h : Residue assembler assembler') : Leaves number assembler [] (.error error assembler') :=
  ⟨List.pairwise_singleton _ _, trivial, h, fun h => nomatch h⟩

/-- Parsing that goes on after a line. -/
theorem Leaves.extend? {number : Nat} {assembler : Assembler} {clause? : Option Clause}
    {clauses : List (Nat × Clause)} {result : EStateM.Result Error Assembler Unit}
    (h : Leaves (number + 1) (assembler.extend? (number + 1) clause?) clauses result)
    (hadmits : assembler.Admits? clause?) :
    Leaves number assembler ((clause?.map (number + 1, ·)).toList ++ clauses) result := by
  have hnumbered := List.pairwise_cons.mp h.numbered
  have hascending : (number :: clauses.map Prod.fst).Pairwise (· < ·) :=
    List.pairwise_cons.mpr
      ⟨fun other hmem => Nat.lt_of_succ_lt (hnumbered.1 other hmem), hnumbered.2⟩
  rcases clause? with _ | clause
  · exact ⟨hascending, h.admits, h.residue, h.complete⟩
  · refine ⟨List.pairwise_cons.mpr ⟨?_, h.numbered⟩, ⟨hadmits, h.admits⟩, h.residue, h.complete⟩
    intro other hmem
    rcases List.mem_cons.mp hmem with rfl | hmem
    · exact Nat.lt_succ_self number
    · exact (List.pairwise_cons.mp hascending).1 other hmem

/-- Parsing leaves whole clauses, and at most a residue of the line after them. -/
theorem parseLines_leaves (number : Nat) (lines : List (List Char)) (assembler : Assembler) :
    ∃ clauses, Leaves number assembler clauses ((parseLines number lines).run assembler) := by
  induction lines generalizing number assembler with
  | nil => exact ⟨[], List.pairwise_singleton _ _, trivial, .nothing, fun _ => rfl⟩
  | cons text rest ih =>
    rcases hrun : (parseLines number (text :: rest)).run assembler with
      ⟨⟨⟩, final⟩ | ⟨error, final⟩
    · -- All lines are parsed.
      rw [parseLines, demand_run_eq_ok_iff] at hrun
      obtain ⟨⟨⟩, _, hline, hrest⟩ := bind_run_eq_ok_iff.mp hrun.2
      obtain ⟨clause?, -, hadmits, rfl⟩ :=
        Parse.line_run_eq_ok_iff.mp (adaptExcept_run_eq_ok_iff.mp hline)
      obtain ⟨clauses, hleaves⟩ := ih (number + 1) (assembler.extend? (number + 1) clause?)
      rw [hrest] at hleaves
      exact ⟨_, hleaves.extend? hadmits⟩
    · rw [parseLines, demand_run_eq_error_iff] at hrun
      rcases hrun with ⟨-, -, rfl⟩ | ⟨-, hrun⟩
      · -- The first line has no number any more.
        exact ⟨[], .of_error .nothing⟩
      · rcases bind_run_eq_error_iff.mp hrun with hline | ⟨⟨⟩, _, hline, hrest⟩
        · -- The first line is refused.
          obtain ⟨cause, hrefused, -⟩ := adaptExcept_run_eq_error_iff.mp hline
          exact ⟨[], .of_error (Parse.line_run_eq_error hrefused)⟩
        · -- It is parsed, and one of the others is refused.
          obtain ⟨clause?, -, hadmits, rfl⟩ :=
            Parse.line_run_eq_ok_iff.mp (adaptExcept_run_eq_ok_iff.mp hline)
          obtain ⟨clauses, hleaves⟩ := ih (number + 1) (assembler.extend? (number + 1) clause?)
          rw [hrest] at hleaves
          exact ⟨_, hleaves.extend? hadmits⟩

/-- What parsing a source leaves does not depend on what the assembler has parsed before. -/
theorem parse_leaves (source : String) (assembler : Assembler) :
    ∃ clauses, Leaves 0 assembler.clear clauses ((parse source).run assembler) :=
  parseLines_leaves 0 _ assembler.clear

end Assembler

end RegisterMachine.Assembly
