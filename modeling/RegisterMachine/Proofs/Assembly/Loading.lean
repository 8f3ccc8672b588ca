import RegisterMachine.Memory.Region
import RegisterMachine.Proofs.Assembly.Representation
import RegisterMachine.Proofs.Text.Quoting

/-!
# Images and the address space

The first pass of a build checks that a statement starts at a 16-bit address, and no pass checks
where it ends. So all statements but the last end inside the address space, since the next one
starts there, and the last one ends wherever the output buffer has room. An image can be placed in
ROM exactly when its last statement ends inside the address space, which it does whenever the buffer
is no larger than that (`image_loads_iff_last_ends_inside`).

A text as a constant shows that larger images are accepted (`assemble_textSource`): it is the only
statement of its source, it starts at zero, and it may be of any length.
-/

namespace RegisterMachine.Assembly

/-- The image of a program can be placed in ROM: it is no larger than the address space, each of its
bytes has a 16-bit address, and it makes a region at address zero. -/
structure Program.Loadable (program : Program) : Prop where
  size : program.romSize ≤ addressSpace
  addressed : ∀ i byte, program.image[i]? = some byte → i ≤ 0xFFFF
  placed : ∃ region, Region.place 0 program.image.toArray = .ok region

namespace Layout

/-- Statements one after the other take up the bytes of both parts. -/
@[simp] theorem extent_append (front back : List Statement) :
    extent (front ++ back) = extent front + extent back := by
  unfold extent
  rw [List.map_append, List.sum_append]

/-- A single statement takes up its own bytes. -/
theorem extent_singleton (statement : Statement) : extent [statement] = statement.size :=
  List.sum_singleton

/-- Statements take the same bytes wherever they are located. -/
theorem extent_located (pool : Array UInt8) (cursor : Nat) (statements : List Statement) :
    extent (located pool cursor statements) = extent statements :=
  congrArg List.sum (Assembler.map_eq_of_map_unplaced (f := Statement.size) (fun _ => rfl)
    (map_unplaced_located pool cursor statements))

/-- The first statements are located as if there were no others. -/
theorem take_located (pool : Array UInt8) (cursor : Nat) (statements : List Statement) (i : Nat) :
    (located pool cursor statements).take i = located pool cursor (statements.take i) := by
  induction statements generalizing cursor i with
  | nil => rw [located, List.take_nil, located]
  | cons statement rest ih =>
    rcases i with _ | i
    · rfl
    · rw [located, List.take_succ_cons, List.take_succ_cons, located, ih]

end Layout

namespace Assembler

variable {assembler final : Assembler} {complete : Bool} {buffer : Array UInt8} {program : Program}

/-- An image has been accepted, by a build of what has been parsed or from a source. -/
inductive Accepted (buffer : Array UInt8) (assembler : Assembler) (program : Program)
    (final : Assembler) : Prop where
  | build (h : (build buffer).run assembler = .ok program final)
  | assemble (source : String) (h : (assemble source buffer).run assembler = .ok program final)

/-- How an image is laid out in a buffer of a given size: every statement starts where those before
it end, and the image ends where the last one does. -/
structure LaidOut (size : Nat) (program : Program) (final : Assembler) : Prop where
  address : ∀ i statement, final.statements[i]? = some statement →
    statement.address.toNat = Layout.extent (final.statements.toList.take i)
  romSize : program.romSize = Layout.extent final.statements.toList
  length_image : program.image.length = program.romSize
  within : program.romSize ≤ size

/-- A build lays out what it accepts. -/
theorem Sound.laidOut (h : assembler.Sound)
    (hrun : (Assembler.build buffer).run assembler = .ok program final) :
    LaidOut buffer.size program final := by
  obtain ⟨hfits, -, rfl, rfl⟩ := (build_run_eq_ok_iff h.encloses).mp hrun
  have hsize : assembler.image.length = Layout.extent assembler.statements.toList := by
    rw [image, Layout.length_image h.encloses, Layout.length_drafts h.inPool]
  have hwithin : assembler.image.length ≤ buffer.size := by
    rw [image, Layout.length_image h.encloses]
    exact hfits.length_drafts_le
  refine ⟨fun i statement hstatement => ?_, ?_, ?_, hwithin⟩
  · have hlocated : (Layout.located assembler.pool 0 assembler.statements.toList)[i]? =
        some statement := (List.getElem?_toArray ..).symm.trans hstatement
    rw [Layout.getElem?_located, Option.map_eq_some_iff] at hlocated
    obtain ⟨original, horiginal, rfl⟩ := hlocated
    obtain ⟨hi, rfl⟩ := List.getElem?_eq_some_iff.mp horiginal
    have hsplit : assembler.statements.toList = assembler.statements.toList.take i ++
        assembler.statements.toList[i] :: assembler.statements.toList.drop (i + 1) := by
      rw [List.getElem_cons_drop, List.take_append_drop]
    -- The statement starts at a 16-bit address, so nothing of that is lost in the address.
    obtain ⟨hstart, -, -⟩ := hfits _ _ _ hsplit
    have hdrafts := Layout.length_drafts (h.inPool_of_split hsplit).1
    show (UInt16.ofNat _).toNat = Layout.extent (List.take i (Layout.located ..))
    rw [Nat.zero_add, UInt16.toNat_ofNat_of_lt' (Nat.lt_succ_of_le hstart), hdrafts,
      Layout.take_located, Layout.extent_located]
  · show assembler.image.length = Layout.extent (Layout.located ..)
    rw [hsize, Layout.extent_located]
  · show (List.take assembler.image.length (assembler.image ++ _)).length = assembler.image.length
    rw [List.take_left]

/-- Whatever has been parsed before, what is accepted is laid out. -/
theorem Accepted.laidOut (h : Reachable complete assembler)
    (haccepted : Accepted buffer assembler program final) : LaidOut buffer.size program final := by
  rcases haccepted with hrun | ⟨source, hrun⟩
  · exact h.consistent.sound.laidOut hrun
  · obtain ⟨⟨⟩, parsed, hparse, hbuild⟩ := bind_run_eq_ok_iff.mp hrun
    have hparsed := consistent_parse source assembler
    rw [hparse] at hparsed
    exact hparsed.sound.laidOut hbuild

/-- An image loads when it is no larger than the address space. -/
theorem LaidOut.loadable_iff {size : Nat} (h : LaidOut size program final) :
    program.Loadable ↔ program.romSize ≤ addressSpace := by
  refine ⟨Program.Loadable.size, fun hle => ⟨hle, fun i byte hbyte => ?_, ?_⟩⟩
  · obtain ⟨hi, -⟩ := List.getElem?_eq_some_iff.mp hbyte
    have hlength := h.length_image
    unfold addressSpace at hle
    omega
  · have hfits : (0 : UInt16).toNat + program.image.toArray.size ≤ addressSpace := by
      rw [List.size_toArray, h.length_image, UInt16.toNat_zero, Nat.zero_add]
      exact hle
    exact ⟨⟨0, _, hfits⟩, Region.place_eq_ok_iff.mpr ⟨rfl, rfl⟩⟩

/-- A larger image makes no region. -/
theorem LaidOut.place_of_not_loadable {size : Nat} (h : LaidOut size program final)
    (hnot : ¬ program.Loadable) :
    Region.place 0 program.image.toArray = .error (.invalidAddress 0) := by
  rw [h.loadable_iff, ← h.length_image] at hnot
  unfold Region.place
  rw [dif_neg]
  · rfl
  · rw [List.size_toArray, UInt16.toNat_zero, Nat.zero_add]
    exact hnot

/-- The image ends where the last statement does. -/
theorem LaidOut.romSize_le_iff {size : Nat} (h : LaidOut size program final) :
    program.romSize ≤ addressSpace ↔ ∀ last, final.statements.back? = some last →
      last.address.toNat + last.size ≤ addressSpace := by
  rw [h.romSize]
  rcases List.eq_nil_or_concat final.statements.toList with hnil | ⟨front, last, hlast⟩
  · have hempty : final.statements = #[] := Array.toList_inj.mp hnil
    rw [hempty]
    refine ⟨fun _ last hback => ?_, fun _ => Nat.zero_le _⟩
    cases hback
  · rw [List.concat_eq_append] at hlast
    have hfinal : final.statements = front.toArray.push last := by
      apply Array.toList_inj.mp
      rw [hlast, Array.toList_push]
    have haddress := h.address front.length last (by
      rw [hfinal, ← List.size_toArray, Array.getElem?_push_size])
    rw [hlast, List.take_left] at haddress
    rw [hlast, Layout.extent_append, Layout.extent_singleton, ← haddress, hfinal, Array.back?_push]
    refine ⟨?_, fun hends => hends last rfl⟩
    rintro hle _ ⟨⟩
    exact hle

/-- Whatever has been parsed before, an image that is accepted loads exactly when its last statement
ends inside the address space. It always does when the buffer is no larger than that. Otherwise the
image is too large, and is refused as a region. -/
theorem image_loads_iff_last_ends_inside (h : Reachable complete assembler)
    (haccepted : Accepted buffer assembler program final) :
    LaidOut buffer.size program final ∧
      (program.Loadable ↔ ∀ last, final.statements.back? = some last →
        last.address.toNat + last.size ≤ addressSpace) ∧
      (buffer.size ≤ addressSpace → program.Loadable) ∧
      (¬ program.Loadable → addressSpace < program.romSize ∧
        Region.place 0 program.image.toArray = .error (.invalidAddress 0)) := by
  have hlaid := haccepted.laidOut h
  refine ⟨hlaid, hlaid.loadable_iff.trans hlaid.romSize_le_iff, fun hbuffer => ?_, fun hnot => ?_⟩
  · exact hlaid.loadable_iff.mpr (Nat.le_trans hlaid.within hbuffer)
  · have hlarge := hnot
    rw [hlaid.loadable_iff, Nat.not_le] at hlarge
    exact ⟨hlarge, hlaid.place_of_not_loadable hnot⟩

/-! ## A text of any length -/

/-- A line that declares a text. -/
def textLine (text : List Char) : List Char :=
  "$text DC8 ".toList ++ Text.quote text

/-- A source that declares a text and nothing else. -/
def textSource (text : List Char) : String :=
  String.ofList (textLine text)

/-- What the line says: the bytes of the text and a zero byte. -/
def textClause (text : List Char) : Clause :=
  ⟨⟨"$text".toList, by decide⟩, .constants .byte (Text.utf8Bytes text ++ [0])⟩

variable {text : List Char}

/-- The values of the directive are one item, the text in its quotes. -/
theorem ofDirective_quote (hquote : '"' ∉ text) :
    Clause.ofDirective "$text".toList ("DC8".toList ++ ' ' :: Text.quote text) =
      .ok (textClause text) := by
  have hfirst : Text.firstWord ("DC8".toList ++ ' ' :: Text.quote text) =
      ("DC8".toList, Text.quote text) := by
    have htrim : Text.trim (' ' :: Text.quote text) = Text.quote text := Text.trim_quote text
    rw [Text.firstWord_append_cons (Text.isWord_of_all (by decide) (by decide)) (by decide), htrim]
  have hdirective : Directive.ofChars "$text".toList ("DC8".toList ++ ' ' :: Text.quote text) =
      .ok ⟨⟨"$text".toList, by decide⟩, ⟨.rom, .byte⟩, Text.quote text⟩ := by
    unfold Directive.ofChars
    rw [hfirst]
    rfl
  have hconstant : constantBytes .byte (Text.trim (Text.quote text)) =
      .ok [Text.utf8Bytes text, [0]] := by
    unfold constantBytes
    rw [Text.trim_quote, Text.unquote?_quote]
  have hbytes : Clause.constantsOf .byte (Text.items (Text.quote text)) =
      .ok (Text.utf8Bytes text ++ [0]) := by
    rw [Text.items_quote hquote, Clause.constantsOf]
    refine bind_eq_ok_iff.mpr ⟨_, hconstant, bind_eq_ok_iff.mpr ⟨[], rfl, ?_⟩⟩
    rw [List.append_nil]
    rfl
  exact bind_eq_ok_iff.mpr ⟨_, hdirective, bind_eq_ok_iff.mpr ⟨_, hbytes, rfl⟩⟩

/-- The line that declares a text is not empty. -/
theorem textLine_ne_nil (text : List Char) : textLine text ≠ [] :=
  List.append_ne_nil_of_left_ne_nil (by decide) _

/-- The line reads as the clause with the bytes of the text. -/
theorem ofLine_textLine (hquote : '"' ∉ text) :
    Clause.ofLine (textLine text) = .ok (some (textClause text)) := by
  have hcomment : Text.withoutComment (textLine text) = textLine text :=
    Text.withoutComment_append_quote hquote (by decide) (by decide)
  have htrim : Text.trim (textLine text) = textLine text := by
    refine Text.trim_append_quote ?_ text
    rintro _ ⟨⟩
    decide
  have hfirst : Text.firstWord (textLine text) =
      ("$text".toList, "DC8".toList ++ ' ' :: Text.quote text) := by
    have hsplit : textLine text =
        "$text".toList ++ ' ' :: ("DC8".toList ++ ' ' :: Text.quote text) := rfl
    -- The blank after the first word is trimmed, and nothing else is.
    have hrest : Text.trim ("DC8 ".toList ++ Text.quote text) =
        "DC8 ".toList ++ Text.quote text := by
      refine Text.trim_append_quote ?_ text
      rintro _ ⟨⟩
      decide
    rw [hsplit, Text.firstWord_append_cons (Text.isWord_of_all (by decide) (by decide)) (by decide)]
    exact congrArg _ hrest
  have hmnemonic : Opcode.ofMnemonic? "$text".toList = none := by decide
  have hlabel : "$text".toList.head? ≠ some '.' := by decide
  unfold Clause.ofLine
  dsimp only
  rw [hcomment, htrim, if_neg (textLine_ne_nil text), hfirst, if_neg hlabel, hmnemonic]
  dsimp only
  rw [if_pos (by decide), ofDirective_quote hquote]
  rfl

/-- A text takes up its bytes and a zero byte. -/
theorem length_textBytes (text : List Char) :
    (Text.utf8Bytes text ++ [0]).length = Text.utf8Length text + 1 := by
  rw [List.length_append, List.length_singleton]
  rfl

/-- The source that declares a text has one line. -/
theorem lines_textSource (hline : '\n' ∉ text) :
    Text.lines (textSource text).toList = [textLine text] := by
  have hmem : '\n' ∉ textLine text := by
    unfold textLine Text.quote
    simp [hline]
  rw [textSource, String.toList_ofList, Text.lines_of_not_mem (textLine_ne_nil text) hmem]

/-- Capacities for one statement, one symbol and the bytes admit the clause of a text. -/
theorem admitsAll_textClause {capacities : Capacities}
    (hstatements : capacities.statements.admits 1 = true)
    (hsymbols : capacities.symbols.admits 1 = true)
    (hconstants : capacities.constants.admits (Text.utf8Length text + 1) = true) :
    (empty capacities).AdmitsAll [(1, textClause text)] := by
  refine ⟨⟨fun _ => rfl, fun _ => hsymbols, ?_, hstatements⟩, trivial⟩
  rintro _ _ ⟨⟩
  show capacities.constants.admits (0 + _) = true
  rw [Nat.zero_add, length_textBytes]
  exact hconstants

/-- Nothing stands before the text, so it starts at zero. -/
theorem fits_textClause {size : Nat} (capacities : Capacities)
    (hroom : Text.utf8Length text + 1 ≤ size) :
    (ofClauses capacities [(1, textClause text)]).Fits size := by
  refine fits_ofClauses_iff.mpr fun front entry back hsplit => ?_
  rcases front with _ | ⟨first, front⟩
  · cases hsplit
    refine ⟨Nat.zero_le _, ?_⟩
    show 0 + (Text.utf8Bytes text ++ [0]).length ≤ size
    rw [Nat.zero_add, length_textBytes]
    exact hroom
  · rw [List.cons_append, List.cons.injEq] at hsplit
    exact absurd hsplit.2.symm (List.append_ne_nil_of_right_ne_nil _ (List.cons_ne_nil _ _))

/-- A text of any length assembles where its bytes have room. -/
theorem assemble_textSource (hquote : '"' ∉ text) (hline : '\n' ∉ text) {assembler : Assembler}
    (hstatements : assembler.capacities.statements.admits 1 = true)
    (hsymbols : assembler.capacities.symbols.admits 1 = true)
    (hconstants : assembler.capacities.constants.admits (Text.utf8Length text + 1) = true)
    (hroom : Text.utf8Length text + 1 ≤ buffer.size) :
    ∃ program final, (assemble (textSource text) buffer).run assembler = .ok program final ∧
      program.image = Text.utf8Bytes text ++ [0] ∧
      program.romSize = Text.utf8Length text + 1 := by
  have hcount : (Text.lines (textSource text).toList).length ≤ maxLine := by
    rw [lines_textSource hline]
    exact (by decide : 1 ≤ maxLine)
  have hclauses : clausesOf 0 (Text.lines (textSource text).toList) =
      .ok [(1, textClause text)] := by
    rw [lines_textSource hline, clausesOf, ofLine_textLine hquote]
    rfl
  have hadmits : (empty assembler.capacities).AdmitsAll [(1, textClause text)] :=
    admitsAll_textClause hstatements hsymbols hconstants
  have hfits : (ofClauses assembler.capacities [(1, textClause text)]).Fits buffer.size :=
    fits_textClause _ hroom
  have hresolves : ∀ statement ∈
      (ofClauses assembler.capacities [(1, textClause text)]).statements.toList,
      statement.Resolves
        (ofClauses assembler.capacities [(1, textClause text)]).settled.symbols := by
    refine resolves_ofClauses_iff.mpr fun entry hmem field hfield => ?_
    rw [List.mem_singleton.mp hmem] at hfield
    cases hfield
  have himage (addressOf : List Char → Nat) :
      imageOf addressOf [(1, textClause text)] = Text.utf8Bytes text ++ [0] := List.append_nil _
  have hsettles : Settles [(1, textClause text)] buffer _ _ :=
    settles_ofClauses hadmits hfits hresolves
  refine ⟨_, _, assemble_run_eq_ok_iff.mpr ⟨hcount, _, hclauses, hadmits, hfits, hresolves, rfl,
    rfl⟩, ?_, ?_⟩
  · rw [hsettles.image, himage]
  · rw [hsettles.romSize, himage, length_textBytes]

/-! ## An image that is too large -/

/-- One character for each address, so there is no address for the zero byte after them. -/
def overlong : List Char :=
  List.replicate addressSpace 'x'

/-- The capacities and the output buffer of an assembler that has room for it. -/
def roomy : Capacities :=
  ⟨some 4096, some 1024, some 70000⟩

/-- A buffer that is larger than the address space. -/
def roomyBuffer : Array UInt8 :=
  Array.replicate 70000 0

/-- A text of as many bytes as there are addresses is assembled, with its zero byte past the last of
them. -/
theorem assemble_overlong :
    ∃ program final, (assemble (textSource overlong) roomyBuffer).run (empty roomy) =
      .ok program final ∧ program.romSize = addressSpace + 1 := by
  have hlength : Text.utf8Length overlong = addressSpace := Text.utf8Length_replicate _ (by decide)
  have hplain {c : Char} (hne : c ≠ 'x') : c ∉ overlong := fun hmem =>
    hne (List.eq_of_mem_replicate hmem)
  have hconstants :
      (empty roomy).capacities.constants.admits (Text.utf8Length overlong + 1) = true := by
    rw [hlength]
    decide
  have hroom : Text.utf8Length overlong + 1 ≤ roomyBuffer.size := by
    rw [hlength, roomyBuffer, Array.size_replicate]
    decide
  obtain ⟨program, final, hrun, -, hsize⟩ := assemble_textSource (hplain (by decide))
    (hplain (by decide)) (by decide) (by decide) hconstants hroom
  rw [hlength] at hsize
  exact ⟨program, final, hrun, hsize⟩

/-- Not every image that is accepted loads. -/
theorem not_forall_loadable :
    ¬ ∀ (capacities : Capacities) (source : String) (buffer : Array UInt8) (program : Program)
      (final : Assembler), (assemble source buffer).run (empty capacities) = .ok program final →
        program.Loadable := by
  intro hall
  obtain ⟨program, final, hrun, hsize⟩ := assemble_overlong
  have hloadable := (hall _ _ _ _ _ hrun).size
  rw [hsize] at hloadable
  exact absurd hloadable (by decide)

/-- The image is accepted, and refused as a region. -/
theorem image_loads_iff_last_ends_inside_overlong :
    ∃ program final, Accepted roomyBuffer (empty roomy) program final ∧
      program.romSize = addressSpace + 1 ∧
      Region.place 0 program.image.toArray = .error (.invalidAddress 0) := by
  obtain ⟨program, final, hrun, hsize⟩ := assemble_overlong
  have haccepted : Accepted roomyBuffer (empty roomy) program final := .assemble _ hrun
  obtain ⟨-, -, -, hrefused⟩ := image_loads_iff_last_ends_inside (.empty roomy) haccepted
  have hnot : ¬ program.Loadable := fun hloadable => by
    have hle := hloadable.size
    rw [hsize] at hle
    exact absurd hle (by decide)
  exact ⟨program, final, haccepted, hsize, (hrefused hnot).2⟩

end Assembler

end RegisterMachine.Assembly
