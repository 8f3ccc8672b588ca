import Mathlib.Data.List.Forall2
import RegisterMachine.Proofs.Assembly.Prefixes
import RegisterMachine.Proofs.Assembly.Rewording

/-!
# Edits that change nothing

An edit of a source inserts a line that says nothing, reformats a line, or puts carriage returns
before line feeds (`Edit`). Each comes with the map from the lines of the source to those of the
edited one. The lines that correspond read alike (`Aligned`), so the two sources are parsed to
assemblers that mirror each other, or refused at lines that correspond (`reproduces_parseLines`).

Edits of any number compose (`Reproduces.trans`), and so they do not matter to what a source
assembles to (`layout_does_not_matter`). They can only make a source too long for its lines to be
numbered.
-/

namespace RegisterMachine.Assembly

/-! ## Lines that correspond -/

/-- A line says nothing. -/
def SaysNothing (text : List Char) : Prop :=
  Text.trim (Text.withoutComment text) = []

/-- Blanks and a comment say nothing. -/
theorem saysNothing_append {gap comment : List Char} (hgap : Text.IsGap gap)
    (hcomment : IsComment comment) : SaysNothing (gap ++ comment) := by
  unfold SaysNothing
  rw [Text.trim_withoutComment_append_left hgap, withoutComment_of_isComment hcomment]
  rfl

/-- Lines that correspond read alike. The lines before these have been numbered up to `number` and
up to `number'`. -/
inductive Aligned (renumber : Nat → Nat) :
    Nat → Nat → List (List Char) → List (List Char) → Prop where
  | nil (number number' : Nat) : Aligned renumber number number' [] []
  | line {number number' : Nat} {text text' : List Char} {rest rest' : List (List Char)}
      (hnumber : renumber (number + 1) = number' + 1) (h : ReadsAlike text text')
      (hrest : Aligned renumber (number + 1) (number' + 1) rest rest') :
      Aligned renumber number number' (text :: rest) (text' :: rest')
  | inserted {number number' : Nat} {text' : List Char} {lines rest' : List (List Char)}
      (h : SaysNothing text') (hrest : Aligned renumber number (number' + 1) lines rest') :
      Aligned renumber number number' lines (text' :: rest')

/-- Lines that read alike one by one correspond, with their numbers shifted by as much. -/
theorem Aligned.of_forall₂ {renumber : Nat → Nat} {number number' : Nat}
    {lines lines' : List (List Char)} (h : List.Forall₂ ReadsAlike lines lines')
    (hnumber : ∀ i, renumber (number + i + 1) = number' + i + 1) :
    Aligned renumber number number' lines lines' := by
  induction h generalizing number number' with
  | nil => exact .nil _ _
  | cons hline _ ih =>
    refine .line (hnumber 0) hline (ih fun i => ?_)
    have hnext := hnumber (i + 1)
    rwa [← Nat.add_assoc, Nat.add_right_comm number, ← Nat.add_assoc, Nat.add_right_comm number']
      at hnext

/-- Lines are inserted, and none is taken out. -/
theorem Aligned.length_le {renumber : Nat → Nat} {number number' : Nat}
    {lines lines' : List (List Char)} (h : Aligned renumber number number' lines lines') :
    lines.length ≤ lines'.length := by
  induction h with
  | nil => exact Nat.le_refl _
  | line _ _ _ ih => exact Nat.succ_le_succ ih
  | inserted _ _ ih => exact Nat.le_succ_of_le ih

/-- The lines after the first ones move down by one. -/
def makingRoom (front line : Nat) : Nat :=
  if line ≤ front then line else line + 1

/-- A line that says nothing moves the lines after it, and no other ones. -/
theorem aligned_insert {text : List Char} (h : SaysNothing text) (number : Nat)
    (front back : List (List Char)) :
    Aligned (makingRoom (number + front.length)) number number (front ++ back)
      (front ++ text :: back) := by
  induction front generalizing number with
  | nil =>
    refine .inserted h (.of_forall₂ (List.forall₂_same.mpr fun line _ => .refl line) fun i => ?_)
    unfold makingRoom
    rw [if_neg (by simp only [List.length_nil]; omega)]
    omega
  | cons line front ih =>
    refine .line ?_ (.refl line) ?_
    · unfold makingRoom
      rw [if_pos (by simp only [List.length_cons]; omega)]
    · have hcount : number + (line :: front).length = number + 1 + front.length := by
        rw [List.length_cons]
        omega
      rw [hcount]
      exact ih (number + 1)

namespace Assembler

/-! ## Sources -/

/-- The results of two sources mirror each other, or the second one has more lines than there are
numbers and is refused for that. -/
def Reproduces {α : Type} (renumber : Nat → Nat) (numbered : Prop)
    (result result' : EStateM.Result Error Assembler α) : Prop :=
  SameOutcome (Error.Mirrors renumber) (Assembler.Mirrors renumber) result result' ∨
    ¬ numbered ∧ ∃ final, result' = .error ⟨none, .lineNumberOverflow⟩ final

/-- Reproducing twice is reproducing, at the lines that correspond after both. -/
theorem Reproduces.trans {renumber renumber' : Nat → Nat} {numbered numbered' : Prop} {α : Type}
    {first second third : EStateM.Result Error Assembler α} (hnumbered : numbered' → numbered)
    (h : Reproduces renumber numbered first second)
    (h' : Reproduces renumber' numbered' second third) :
    Reproduces (renumber' ∘ renumber) numbered' first third := by
  rcases h' with hsame' | hoverflow'
  · rcases h with hsame | ⟨hmany, final, rfl⟩
    · exact .inl (hsame.trans (fun _ _ _ he he' => he.trans he')
        (fun _ _ _ hs hs' => hs.trans hs') hsame')
    · -- Nothing but the same overflow mirrors an overflow.
      cases hsame' with
      | @error _ error herror _ final' =>
        obtain ⟨line?, cause⟩ := error
        obtain ⟨rfl, hcause⟩ := herror
        cases hcause
        exact .inr ⟨mt hnumbered hmany, final', rfl⟩
  · exact .inr hoverflow'

variable {renumber : Nat → Nat}

/-- There is no number for a line after the last one. -/
theorem parseLines_maxLine_run (text : List Char) (rest : List (List Char)) (assembler : Assembler) :
    (parseLines maxLine (text :: rest)).run assembler =
      .error ⟨none, .lineNumberOverflow⟩ assembler := by
  rw [parseLines, if_pos rfl]
  rfl

/-- Lines that correspond are parsed to the same, or refused alike. -/
theorem reproduces_parseLines {number number' : Nat} {lines lines' : List (List Char)}
    {assembler assembler' : Assembler} (h : Aligned renumber number number' lines lines')
    (hle : number ≤ number') (hnumber' : number' ≤ maxLine)
    (hmirrors : assembler.Mirrors renumber assembler') :
    Reproduces renumber (number' + lines'.length ≤ maxLine) ((parseLines number lines).run assembler)
      ((parseLines number' lines').run assembler') := by
  -- The induction is on the lines that correspond. Numbers on the right are ahead of those on the
  -- left, so they are the first ones to run out.
  induction h generalizing assembler assembler' with
  | nil => exact .inl (.ok () hmirrors)
  | @line number number' text text' rest rest' hnumber hline hrest ih =>
    have hcount : number' + (text' :: rest').length = number' + 1 + rest'.length := by
      rw [List.length_cons]
      omega
    by_cases hlast' : number' = maxLine
    · -- The numbers have run out on the right.
      rw [hlast', parseLines_maxLine_run]
      exact .inr ⟨by omega, assembler', rfl⟩
    · have hlast : number ≠ maxLine := by omega
      rw [parseLines_cons_run hlast, parseLines_cons_run hlast', hcount, ← hnumber]
      rcases (hline renumber (number + 1) _ _ hmirrors).ok_or_error with
        ⟨⟨⟩, next, next', hrun, hrun', hnext⟩ | ⟨cause, cause', next, next', hrun, hrun', hcause⟩
      · rw [hrun, hrun', hnumber]
        exact ih (by omega) (by omega) hnext
      · rw [hrun, hrun']
        exact .inl (.error ⟨rfl, hcause⟩ next next')
  | @inserted number number' text' lines rest' hnothing hrest ih =>
    have hcount : number' + (text' :: rest').length = number' + 1 + rest'.length := by
      rw [List.length_cons]
      omega
    by_cases hlast' : number' = maxLine
    · rw [hlast', parseLines_maxLine_run]
      exact .inr ⟨by omega, assembler', rfl⟩
    · -- A line that says nothing is passed on the right alone.
      have hline : (Parse.line (number' + 1) text').run assembler' = .ok () assembler' := by
        unfold Parse.line
        rw [hnothing]
        rfl
      rw [parseLines_cons_run hlast', hline, hcount]
      exact ih (by omega) (by omega) hmirrors

/-- Sources whose lines correspond assemble to the same, or are refused alike. -/
theorem reproduces_assemble {source source' : String} {assembler assembler' : Assembler}
    (h : Aligned renumber 0 0 (Text.lines source.toList) (Text.lines source'.toList))
    (hcapacities : assembler'.capacities = assembler.capacities) (buffer : Array UInt8) :
    Reproduces renumber (Numbered source') ((assemble source buffer).run assembler)
      ((assemble source' buffer).run assembler') := by
  have hcleared : assembler.clear.Mirrors renumber assembler'.clear :=
    ⟨hcapacities, .nil, rfl, rfl⟩
  have hparsed : Reproduces renumber (Numbered source') ((parse source).run assembler)
      ((parse source').run assembler') := by
    have h := reproduces_parseLines h (Nat.le_refl _) (Nat.zero_le _) hcleared
    rwa [Nat.zero_add] at h
  unfold assemble
  rw [EStateM.run_bind, EStateM.run_bind]
  rcases hparsed with hsame | ⟨hmany, final, hrun'⟩
  · rcases hsame.ok_or_error with ⟨⟨⟩, next, next', hrun, hrun', hnext⟩ |
      ⟨error, error', next, next', hrun, hrun', herror⟩
    · rw [hrun, hrun']
      exact .inl (parallel_build buffer next next' hnext)
    · rw [hrun, hrun']
      exact .inl (.error herror next next')
  · -- The second source has too many lines.
    rw [hrun']
    exact .inr ⟨hmany, final, rfl⟩

/-! ## Edits -/

/-- An edit of a source, with where the lines of the source stand afterwards. -/
inductive Edit : (Nat → Nat) → String → String → Prop where
  /-- A line of blanks and a comment, or of either, or an empty one. -/
  | insert {source source' : String} {front back : List (List Char)} {gap comment : List Char}
      (hgap : Text.IsGap gap) (hcomment : IsComment comment)
      (hlines : Text.lines source.toList = front ++ back)
      (hlines' : Text.lines source'.toList = front ++ (gap ++ comment) :: back) :
      Edit (makingRoom front.length) source source'
  /-- A line in another layout. -/
  | reformat {source source' : String} {front back : List (List Char)} {line line' : List Char}
      (h : Reformats line line') (hlines : Text.lines source.toList = front ++ line :: back)
      (hlines' : Text.lines source'.toList = front ++ line' :: back) : Edit id source source'
  /-- Carriage returns before line feeds. -/
  | lineEnds {source source' : String} (h : Text.CarriageReturns source.toList source'.toList) :
      Edit id source source'

/-- Any number of edits, with where the lines of the source stand after all of them. -/
inductive Edits : (Nat → Nat) → String → String → Prop where
  | none (source : String) : Edits id source source
  | more {renumber renumber' : Nat → Nat} {source source' source'' : String}
      (h : Edits renumber source source') (hedit : Edit renumber' source' source'') :
      Edits (renumber' ∘ renumber) source source''

/-- The lines of an edited source correspond to those of the source. -/
theorem Edit.aligned {source source' : String} (h : Edit renumber source source') :
    Aligned renumber 0 0 (Text.lines source.toList) (Text.lines source'.toList) := by
  have hsame (lines : List (List Char)) : List.Forall₂ ReadsAlike lines lines :=
    List.forall₂_same.mpr fun line _ => .refl line
  cases h with
  | @insert _ _ front back gap comment hgap hcomment hlines hlines' =>
    have halign := aligned_insert (saysNothing_append hgap hcomment) 0 front back
    rwa [Nat.zero_add, ← hlines, ← hlines'] at halign
  | reformat hline hlines hlines' =>
    rw [hlines, hlines']
    exact .of_forall₂ (List.rel_append (hsame _) (.cons hline.readsAlike (hsame _))) fun _ => rfl
  | lineEnds hreturns =>
    refine .of_forall₂ (hreturns.forall₂_lines.imp fun line line' hline => ?_) fun _ => rfl
    rcases hline with rfl | rfl
    · exact .refl _
    · exact .of_trim_eq (Text.trim_withoutComment_append_right (by decide) line)

/-- A source after any number of edits reproduces what the source comes to. -/
theorem Edits.reproduces {source source' : String} (h : Edits renumber source source')
    {assembler assembler' : Assembler} (hcapacities : assembler'.capacities = assembler.capacities)
    (buffer : Array UInt8) :
    Reproduces renumber (Numbered source') ((assemble source buffer).run assembler)
      ((assemble source' buffer).run assembler') := by
  induction h generalizing assembler' with
  | none source =>
    refine reproduces_assemble (.of_forall₂ ?_ fun _ => rfl) hcapacities buffer
    exact List.forall₂_same.mpr fun line _ => .refl line
  | more h hedit ih =>
    refine (ih rfl).trans (fun hnumbered => ?_)
      (reproduces_assemble hedit.aligned hcapacities buffer)
    exact Nat.le_trans hedit.aligned.length_le hnumbered

/-- The layout of a source does not matter. A source that is edited in any number of ways which
change nothing assembles within the same capacities and into the same buffer exactly when the source
itself does: to the same image and sizes, with the same symbols. If they are refused, it is for
errors of one kind at lines that correspond. Lines that are inserted may be too many to be numbered,
and then there may be an overflow before anything else. -/
theorem layout_does_not_matter {source source' : String} {assembler assembler' : Assembler}
    (h : Edits renumber source source') (hcapacities : assembler'.capacities = assembler.capacities)
    (buffer : Array UInt8) :
    (Numbered source' → SameOutcome (Error.Mirrors renumber) (Assembler.Mirrors renumber)
      ((assemble source buffer).run assembler) ((assemble source' buffer).run assembler')) ∧
    (¬ Numbered source' → SameOutcome (Error.Mirrors renumber) (Assembler.Mirrors renumber)
        ((assemble source buffer).run assembler) ((assemble source' buffer).run assembler') ∨
      ∃ final, (assemble source' buffer).run assembler' =
        .error ⟨none, .lineNumberOverflow⟩ final) := by
  rcases h.reproduces hcapacities buffer with hsame | ⟨hmany, hoverflow⟩
  · exact ⟨fun _ => hsame, fun _ => .inl hsame⟩
  · exact ⟨fun hnumbered => absurd hnumbered hmany, fun _ => .inr hoverflow⟩

/-- A program of one loop. -/
def loop : String :=
  ".top:\nmov r1, r2\njump .top"

/-- The same program with a heading, in other words and with other line ends. -/
def reworded : String :=
  "; a loop\r\n.top:\r\nmov r1, R2\r\nJMP .top"

/-- The loop takes six bytes in either form, and all its three statements are there. -/
theorem layout_does_not_matter_loop : ∃ renumber,
    Edits renumber loop reworded ∧ Numbered reworded ∧
      succeeded ((assemble loop (Array.replicate 6 0)).run (empty ⟨some 3, some 1, some 0⟩)) = true ∧
      SameOutcome (Error.Mirrors renumber) (Assembler.Mirrors renumber)
        ((assemble loop (Array.replicate 6 0)).run (empty ⟨some 3, some 1, some 0⟩))
        ((assemble reworded (Array.replicate 6 0)).run (empty ⟨some 3, some 1, some 0⟩)) := by
  have hheading : Edit (makingRoom 0) loop "; a loop\n.top:\nmov r1, r2\njump .top" :=
    .insert (show Text.IsGap [] by decide) (show IsComment "; a loop".toList from .inr (by decide))
      (show _ = [] ++ Text.lines loop.toList by decide +kernel) (by decide +kernel)
  have hregister : Rewords ([] ++ ("mov".toList ++ " r1, ".toList) ++ ("r2".toList ++ []))
      ([] ++ ("mov".toList ++ " r1, ".toList) ++ ("R2".toList ++ [])) := by
    have hopens : Opens .mov [] "mov".toList " r1, ".toList :=
      ⟨by decide, ⟨"mov", by decide, by decide⟩, ' ', by decide, by decide⟩
    have hend : ∀ c, ([] : List Char).head? = some c → Text.isSeparator c = true :=
      fun _ h => nomatch h
    exact .register hopens ⟨' ', by decide, by decide⟩ (by decide) (by decide) hend (by decide)
      (show _ = _ by decide)
  have hupper : Edit id "; a loop\n.top:\nmov r1, r2\njump .top"
      "; a loop\n.top:\nmov r1, R2\njump .top" :=
    .reformat (.words (show Text.withoutComment (_ ++ []) = _ by decide) hregister)
      (show _ = ["; a loop".toList, ".top:".toList] ++ _ :: ["jump .top".toList] by decide +kernel)
      (by decide +kernel)
  have hmnemonic : Rewords ([] ++ ("jump".toList ++ " .top".toList))
      ([] ++ ("JMP".toList ++ " .top".toList)) := by
    have hjump : Opcode.jmp.IsNamed "jump".toList := ⟨"jump", by decide, by decide⟩
    have hjmp : Opcode.jmp.IsNamed "JMP".toList := ⟨"jmp", by decide, by decide⟩
    have hapart : ∀ c, " .top".toList.head? = some c → Text.isBlank c = true := by
      rintro _ ⟨⟩
      decide
    exact .mnemonic (by decide) hjump hjmp hapart
  have halias : Edit id "; a loop\n.top:\nmov r1, R2\njump .top"
      "; a loop\n.top:\nmov r1, R2\nJMP .top" :=
    .reformat (.words (show Text.withoutComment (_ ++ []) = _ by decide) hmnemonic)
      (show _ = ["; a loop".toList, ".top:".toList, "mov r1, R2".toList] ++ _ :: [] by decide +kernel)
      (by decide +kernel)
  have hreturns : Edit id "; a loop\n.top:\nmov r1, R2\nJMP .top" reworded := by
    refine .lineEnds ?_
    have h := Text.carriageReturns_flatMap "; a loop\n.top:\nmov r1, R2\nJMP .top".toList
    have hreworded : ("; a loop\n.top:\nmov r1, R2\nJMP .top".toList.flatMap fun c =>
        if c = '\n' then ['\r', '\n'] else [c]) = reworded.toList := by decide +kernel
    rwa [hreworded] at h
  have hedits := ((((Edits.none loop).more hheading).more hupper).more halias).more hreturns
  have hnumbered : Numbered reworded := by
    unfold Numbered
    decide +kernel
  have hassembles : succeeded ((assemble loop (Array.replicate 6 0)).run
      (empty ⟨some 3, some 1, some 0⟩)) = true := by decide +kernel
  obtain ⟨hsame, -⟩ := layout_does_not_matter hedits rfl (Array.replicate 6 0)
  exact ⟨_, hedits, hnumbered, hassembles, hsame hnumbered⟩

end Assembler

end RegisterMachine.Assembly
