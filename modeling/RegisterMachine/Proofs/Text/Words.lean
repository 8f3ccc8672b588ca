import Mathlib.Data.List.TakeWhile
import RegisterMachine.Text.Pieces
import RegisterMachine.Text.Quotation

/-!
# Lines made of words

How text made of plain words is cut up again. A word has no separators and no semicolon; lines end
in a line feed, the first word of a line is followed by a blank, and the words after it stand
between commas and blanks. Such text has no comment and nothing to trim, and its lines and fields
are the ones it was made of.

The fields of any text are its maximal runs of characters that separate nothing (`runs_iff`).
-/

namespace RegisterMachine.Text

/-- What holds of all characters of a text is decided by going through the text, not through all
characters there are. -/
instance decidableForallMem (cs : List Char) (p : Char → Prop) [DecidablePred p] :
    Decidable (∀ c ∈ cs, p c) :=
  List.decidableBAll p cs

/-- A run of characters that no cut splits and no comment starts in. -/
structure IsWord (word : List Char) : Prop where
  ne_nil : word ≠ []
  plain : ∀ c ∈ word, isSeparator c = false ∧ c ≠ ';'

/-- A text is a word if the test on all its characters says so. -/
theorem isWord_of_all {word : List Char} (hne : word ≠ [])
    (h : (word.all fun c => !isSeparator c && c != ';') = true) : IsWord word := by
  refine ⟨hne, fun c hc => ?_⟩
  have hplain := List.all_eq_true.mp h c hc
  rw [Bool.and_eq_true, Bool.not_eq_true', bne_iff_ne] at hplain
  exact hplain

/-- Blanks are separators. -/
theorem not_isBlank_of_isSeparator {c : Char} (h : isSeparator c = false) : isBlank c = false := by
  unfold isSeparator at h
  rw [Bool.or_eq_false_iff] at h
  exact h.2

/-- No character of a word is blank. -/
theorem IsWord.not_isBlank {word : List Char} (h : IsWord word) {c : Char} (hc : c ∈ word) :
    isBlank c = false :=
  not_isBlank_of_isSeparator (h.plain c hc).1

/-! ## Comments and blanks -/

/-- A separator is not free where it does not stand, inside quotes or not. -/
theorem isFree_of_not_mem {separator : Char} {cs : List Char} (h : separator ∉ cs) (quoted : Bool) :
    ∀ entry ∈ marked quoted cs, isFree separator entry = false := by
  intro entry hentry
  have hmem : entry.1 ∈ cs := by
    rw [← map_fst_marked quoted cs]
    exact List.mem_map_of_mem hentry
  have hne : entry.1 ≠ separator := fun heq => h (heq ▸ hmem)
  unfold isFree
  rw [beq_false_of_ne hne, Bool.false_and]

/-- A line without a semicolon has no comment. -/
theorem withoutComment_of_not_mem {line : List Char} (h : ';' ∉ line) :
    withoutComment line = line := by
  have hfree : ∀ entry ∈ marked false line, (!isFree ';' entry) = true := fun entry hentry => by
    rw [isFree_of_not_mem h false entry hentry, Bool.not_false]
  unfold withoutComment
  rw [List.takeWhile_eq_self_iff.mpr hfree, map_fst_marked]

/-- A text that does not start with a blank keeps its start. -/
theorem trimStart_eq_self {cs : List Char} (h : ∀ c, cs.head? = some c → isBlank c = false) :
    trimStart cs = cs := by
  rcases cs with _ | ⟨c, cs⟩
  · rfl
  · have hc : ¬ isBlank c = true := by
      rw [h c rfl]
      decide
    exact List.dropWhile_cons_of_neg hc

/-- A text that neither starts nor ends with a blank has nothing to trim. -/
theorem trim_eq_self {cs : List Char} (hfirst : ∀ c, cs.head? = some c → isBlank c = false)
    (hlast : ∀ c, cs.getLast? = some c → isBlank c = false) : trim cs = cs := by
  unfold trim
  rw [trimStart_eq_self hfirst, trimStart_eq_self (by rwa [List.head?_reverse]),
    List.reverse_reverse]

/-- The first word of a text ends where a blank follows. -/
theorem firstWord_append {word rest : List Char} (hword : ∀ c ∈ word, isBlank c = false)
    (hrest : ∀ c, rest.head? = some c → isBlank c = true) :
    firstWord (word ++ rest) = (word, trim rest) := by
  have hplain : ∀ c ∈ word, (!isBlank c) = true := fun c hc => by rw [hword c hc, Bool.not_false]
  unfold firstWord
  rw [List.takeWhile_append_of_pos hplain, List.dropWhile_append_of_pos hplain]
  rcases rest with _ | ⟨c, rest⟩
  · rw [List.takeWhile_nil, List.dropWhile_nil, List.append_nil]
  · have hstop : (!isBlank c) = false := by rw [hrest c rfl, Bool.not_true]
    rw [List.takeWhile_cons_of_neg (by rw [hstop]; decide),
      List.dropWhile_cons_of_neg (by rw [hstop]; decide), List.append_nil]

/-- A text with a first word is not empty. -/
theorem ne_nil_of_firstWord {cs word rest : List Char} (h : firstWord cs = (word, rest))
    (hne : word ≠ []) : cs ≠ [] := by
  rintro rfl
  exact hne (Prod.mk.inj h).1.symm

/-- The first word of a text is what stands before its first blank. -/
theorem firstWord_append_cons {word rest : List Char} {blank : Char} (hword : IsWord word)
    (hblank : isBlank blank = true) :
    firstWord (word ++ blank :: rest) = (word, trim (blank :: rest)) := by
  refine firstWord_append (fun c => hword.not_isBlank) ?_
  rintro _ ⟨⟩
  exact hblank

/-- A word alone is a first word with nothing after it. -/
theorem firstWord_of_isWord {word : List Char} (hword : IsWord word) :
    firstWord word = (word, []) := by
  have hnothing : ∀ c, ([] : List Char).head? = some c → isBlank c = true := by
    rintro _ ⟨⟩
  have hfirst := firstWord_append (fun c => hword.not_isBlank) hnothing
  rwa [List.append_nil] at hfirst

/-! ## Fields and lines -/

/-- The maximal runs of a text without a separator. A gap of separators, if any, stands before each
of them, and each goes on up to a separator or to the end. -/
inductive Runs : List Char → List (List Char) → Prop where
  | none {gap : List Char} (hgap : ∀ c ∈ gap, isSeparator c = true) : Runs gap []
  | cons {gap run rest : List Char} {runs : List (List Char)}
      (hgap : ∀ c ∈ gap, isSeparator c = true) (hne : run ≠ [])
      (hrun : ∀ c ∈ run, isSeparator c = false)
      (hend : ∀ c, rest.head? = some c → isSeparator c = true) (hrest : Runs rest runs) :
      Runs (gap ++ (run ++ rest)) (run :: runs)

/-- A separator parts the fields before it from those after it. -/
theorem fields_append_cons (front back : List Char) {separator : Char}
    (h : isSeparator separator = true) :
    fields (front ++ separator :: back) = fields front ++ fields back := by
  unfold fields
  rw [List.splitOnP_append_cons front back h, List.filter_append]

/-- And so does one at the end of what stands before them. -/
theorem fields_append_of_getLast? {front : List Char}
    (h : ∃ c, front.getLast? = some c ∧ isSeparator c = true) (back : List Char) :
    fields (front ++ back) = fields front ++ fields back := by
  obtain ⟨separator, hlast, hseparator⟩ := h
  obtain ⟨init, rfl⟩ := List.getLast?_eq_some_iff.mp hlast
  have hfront : fields (init ++ [separator]) = fields init :=
    (fields_append_cons init [] hseparator).trans (List.append_nil _)
  rw [hfront, List.append_assoc]
  exact fields_append_cons init back hseparator

/-- Separators before a text open no field. -/
theorem fields_append_of_gap {gap : List Char} (h : ∀ c ∈ gap, isSeparator c = true)
    (cs : List Char) : fields (gap ++ cs) = fields cs := by
  induction gap with
  | nil => rfl
  | cons c gap ih =>
    rw [List.forall_mem_cons] at h
    exact (fields_append_cons [] (gap ++ cs) h.1).trans (ih h.2)

/-- A text without separators is one field. -/
theorem fields_of_run {run : List Char} (hne : run ≠ [])
    (hrun : ∀ c ∈ run, isSeparator c = false) : fields run = [run] := by
  have hkeep : (!run.isEmpty) = true := by
    rw [List.isEmpty_eq_false_iff.mpr hne]
    rfl
  unfold fields
  rw [List.splitOnP_eq_singleton hrun,
    List.filter_cons_of_pos (p := fun piece : List Char => !piece.isEmpty) hkeep, List.filter_nil]

/-- Runs are fields. -/
theorem Runs.fields_eq {cs : List Char} {runs : List (List Char)} (h : Runs cs runs) :
    fields cs = runs := by
  induction h with
  | @none gap hgap =>
    rw [← List.append_nil gap, fields_append_of_gap hgap]
    rfl
  | @cons gap run rest runs hgap hne hrun hend _ ih =>
    rw [fields_append_of_gap hgap]
    rcases rest with _ | ⟨c, rest⟩
    · rw [List.append_nil, fields_of_run hne hrun, ← ih]
      rfl
    · have hc := hend c rfl
      have hrest : fields (c :: rest) = fields rest := fields_append_cons [] rest hc
      rw [fields_append_cons run rest hc, fields_of_run hne hrun, ← hrest, ih]
      rfl

/-- Every text has its runs. -/
theorem exists_runs (cs : List Char) : ∃ runs, Runs cs runs := by
  induction cs with
  | nil => exact ⟨[], .none fun c hc => nomatch hc⟩
  | cons c cs ih =>
    obtain ⟨runs, hruns⟩ := ih
    cases hc : isSeparator c with
    | true =>
      -- The separator belongs to the gap at the start.
      cases hruns with
      | none hgap => exact ⟨[], .none (List.forall_mem_cons.mpr ⟨hc, hgap⟩)⟩
      | @cons gap run rest runs hgap hne hrun hend hrest =>
        exact ⟨run :: runs, .cons (List.forall_mem_cons.mpr ⟨hc, hgap⟩) hne hrun hend hrest⟩
    | false =>
      have hnone : ∀ d ∈ ([] : List Char), isSeparator d = true := fun d hd => nomatch hd
      by_cases hend : ∀ d, cs.head? = some d → isSeparator d = true
      · -- The character is a run by itself.
        exact ⟨[c] :: runs, .cons hnone (List.cons_ne_nil c [])
          (List.forall_mem_singleton.mpr hc) hend hruns⟩
      · -- It belongs to the run at the start, which has no gap before it.
        cases hruns with
        | none hgap => exact absurd (fun d hd => hgap d (List.mem_of_head? hd)) hend
        | @cons gap run rest runs hgap hne hrun hend' hrest =>
          rcases gap with _ | ⟨d, gap⟩
          · exact ⟨(c :: run) :: runs, .cons hnone (List.cons_ne_nil c run)
              (List.forall_mem_cons.mpr ⟨hc, hrun⟩) hend' hrest⟩
          · refine absurd (fun e he => ?_) hend
            cases he
            exact hgap d (.head _)

/-- The fields of a text are its maximal runs. -/
theorem runs_iff {cs : List Char} {runs : List (List Char)} : Runs cs runs ↔ fields cs = runs := by
  refine ⟨Runs.fields_eq, ?_⟩
  rintro rfl
  obtain ⟨runs, hruns⟩ := exists_runs cs
  rwa [hruns.fields_eq]

/-- A character of a text is a separator, or it stands in a field. -/
theorem isSeparator_or_mem_fields {cs : List Char} {c : Char} (hc : c ∈ cs) :
    isSeparator c = true ∨ ∃ field ∈ fields cs, c ∈ field := by
  obtain ⟨runs, hruns⟩ := exists_runs cs
  rw [hruns.fields_eq]
  induction hruns with
  | none hgap => exact .inl (hgap c hc)
  | @cons gap run rest runs hgap _ _ _ _ ih =>
    rcases List.mem_append.mp hc with hc | hc
    · exact .inl (hgap c hc)
    · rcases List.mem_append.mp hc with hc | hc
      · exact .inr ⟨run, List.mem_cons_self, hc⟩
      · refine (ih hc).imp_right ?_
        rintro ⟨field, hmem, hc⟩
        exact ⟨field, List.mem_cons_of_mem run hmem, hc⟩

/-- The last field of a text parts what stands before it, which ends in a separator, from separators
behind it. -/
theorem exists_last_field {cs word : List Char} {words : List (List Char)}
    (h : fields cs = words ++ [word]) :
    ∃ front back, cs = front ++ (word ++ back) ∧ fields front = words ∧
      (∀ c, front.getLast? = some c → isSeparator c = true) ∧
      (∀ c ∈ back, isSeparator c = true) ∧ word ≠ [] ∧ ∀ c ∈ word, isSeparator c = false := by
  have hruns : Runs cs (words ++ [word]) := runs_iff.mpr h
  clear h
  induction words generalizing cs with
  | nil =>
    rcases hruns with _ | @⟨gap, _, rest, _, hgap, hne, hrun, -, hrest⟩
    cases hrest with
    | none hback =>
      have hnothing : fields gap = [] := (Runs.none hgap).fields_eq
      exact ⟨gap, rest, rfl, hnothing, fun c hc => hgap c (List.mem_of_getLast? hc), hback, hne, hrun⟩
  | cons first words ih =>
    rcases hruns with _ | @⟨gap, _, rest, _, hgap, hne, hrun, hend, hrest⟩
    obtain ⟨front, back, rfl, hfront, hlast, hback, hword⟩ := ih hrest
    -- The field is not the first one, so there is a separator between the two.
    have hfrontNe : front ≠ [] := by
      rintro rfl
      obtain ⟨c, others, rfl⟩ := List.exists_cons_of_ne_nil hword.1
      have hseparator := hend c rfl
      rw [hword.2 c List.mem_cons_self] at hseparator
      cases hseparator
    refine ⟨gap ++ (first ++ front), back, by simp, ?_, ?_, hback, hword⟩
    · refine (Runs.cons hgap hne hrun (fun c hc => hend c ?_) (runs_iff.mpr hfront)).fields_eq
      obtain ⟨d, others, rfl⟩ := List.exists_cons_of_ne_nil hfrontNe
      exact hc
    · intro c hc
      have hsome := List.getLast?_eq_some_getLast hfrontNe
      rw [← List.append_assoc, List.getLast?_append, hsome, Option.some_or, ← hsome] at hc
      exact hlast c hc

/-- Words with a comma and a blank between them. -/
def listed (words : List (List Char)) : List Char :=
  [',', ' '].intercalate words

/-- Between two words stand a comma and a blank. -/
theorem listed_cons_cons (word next : List Char) (rest : List (List Char)) :
    listed (word :: next :: rest) = word ++ ',' :: ' ' :: listed (next :: rest) := by
  unfold listed
  rw [List.intercalate_cons_cons, List.append_assoc]
  rfl

/-- A single word is listed as it is. -/
theorem listed_singleton (word : List Char) : listed [word] = word :=
  List.intercalate_singleton

/-- A list of words has no other characters than theirs, commas and blanks. -/
theorem mem_listed {words : List (List Char)} {c : Char} (h : c ∈ listed words) :
    c = ',' ∨ c = ' ' ∨ ∃ word ∈ words, c ∈ word := by
  induction words with
  | nil => cases h
  | cons word rest ih =>
    rcases rest with _ | ⟨next, rest⟩
    · rw [listed_singleton] at h
      exact .inr (.inr ⟨word, List.mem_cons_self, h⟩)
    · rw [listed_cons_cons, List.mem_append, List.mem_cons, List.mem_cons] at h
      rcases h with h | h | h | h
      · exact .inr (.inr ⟨word, List.mem_cons_self, h⟩)
      · exact .inl h
      · exact .inr (.inl h)
      · rcases ih h with h | h | ⟨other, hmem, h⟩
        · exact .inl h
        · exact .inr (.inl h)
        · exact .inr (.inr ⟨other, List.mem_cons_of_mem _ hmem, h⟩)

/-- A list that starts with a word is not empty. -/
theorem listed_ne_nil {word : List Char} {rest : List (List Char)} (h : IsWord word) :
    listed (word :: rest) ≠ [] := by
  rcases rest with _ | ⟨next, rest⟩
  · rw [listed_singleton]
    exact h.ne_nil
  · rw [listed_cons_cons]
    exact List.append_ne_nil_of_left_ne_nil h.ne_nil _

/-- A list of words starts with a character of a word. -/
theorem not_isBlank_of_head?_listed {words : List (List Char)} (h : ∀ word ∈ words, IsWord word)
    {c : Char} (hc : (listed words).head? = some c) : isBlank c = false := by
  rcases words with _ | ⟨word, _ | ⟨next, rest⟩⟩
  · cases hc
  · rw [listed_singleton] at hc
    exact (h word List.mem_cons_self).not_isBlank (List.mem_of_head? hc)
  · have hword := h word List.mem_cons_self
    obtain ⟨first, word, rfl⟩ := List.exists_cons_of_ne_nil hword.ne_nil
    rw [listed_cons_cons, List.cons_append, List.head?_cons, Option.some.injEq] at hc
    exact hword.not_isBlank (hc ▸ List.mem_cons_self)

/-- A text ends as its last part does. -/
theorem getLast?_append_cons_of_ne_nil {front back : List Char} (c : Char) (h : back ≠ []) :
    (front ++ c :: back).getLast? = back.getLast? := by
  rw [List.getLast?_append, List.getLast?_cons_of_ne_nil h]
  rcases hlast : back.getLast? with _ | last
  · exact absurd (List.getLast?_eq_none_iff.mp hlast) h
  · rfl

/-- A list of words ends with a character of a word. -/
theorem not_isBlank_of_getLast?_listed {words : List (List Char)} (h : ∀ word ∈ words, IsWord word)
    {c : Char} (hc : (listed words).getLast? = some c) : isBlank c = false := by
  induction words with
  | nil => cases hc
  | cons word rest ih =>
    rw [List.forall_mem_cons] at h
    rcases rest with _ | ⟨next, rest⟩
    · rw [listed_singleton] at hc
      exact h.1.not_isBlank (List.mem_of_getLast? hc)
    · have hne : listed (next :: rest) ≠ [] := listed_ne_nil (h.2 next List.mem_cons_self)
      rw [listed_cons_cons, getLast?_append_cons_of_ne_nil _ (List.cons_ne_nil _ _),
        List.getLast?_cons_of_ne_nil hne] at hc
      exact ih h.2 hc

/-- A list of words has those words as its fields. -/
theorem fields_listed {words : List (List Char)} (h : ∀ word ∈ words, IsWord word) :
    fields (listed words) = words := by
  induction words with
  | nil => rfl
  | cons word rest ih =>
    rw [List.forall_mem_cons] at h
    have hword : fields word = [word] :=
      fields_of_run h.1.ne_nil fun c hc => (h.1.plain c hc).1
    have hrest := ih h.2
    rcases rest with _ | ⟨next, rest⟩
    · rw [listed_singleton, hword]
    · -- The blank after the comma is a gap before the other words.
      have hblank : ∀ c ∈ [' '], isSeparator c = true := List.forall_mem_singleton.mpr (by decide)
      have hgap : fields (' ' :: listed (next :: rest)) = fields (listed (next :: rest)) :=
        fields_append_of_gap hblank (listed (next :: rest))
      rw [listed_cons_cons, fields_append_cons word _ (by decide), hword, hgap, hrest]
      rfl

/-- A first word, and more words listed after it. -/
def sentence (word : List Char) (words : List (List Char)) : List Char :=
  match words with
  | [] => word
  | words => word ++ ' ' :: listed words

section

variable {word : List Char} {words : List (List Char)} (hword : IsWord word)
  (hwords : ∀ other ∈ words, IsWord other)

include hword hwords

/-- In a sentence of words no comment starts and no line ends. -/
theorem ne_of_mem_sentence {c : Char} (h : c ∈ sentence word words) : c ≠ ';' ∧ c ≠ '\n' := by
  have hplain {other : List Char} (hother : IsWord other) (hc : c ∈ other) :
      c ≠ ';' ∧ c ≠ '\n' := by
    refine ⟨(hother.plain c hc).2, ?_⟩
    rintro rfl
    exact absurd (hother.not_isBlank hc) (by decide)
  rcases words with _ | ⟨next, rest⟩
  · exact hplain hword h
  · rcases List.mem_append.mp h with h | h
    · exact hplain hword h
    · rcases List.mem_cons.mp h with rfl | h
      · decide
      · rcases mem_listed h with rfl | rfl | ⟨other, hmem, h⟩
        · decide
        · decide
        · exact hplain (hwords other hmem) h

omit hwords in
/-- A sentence starts with a word. -/
theorem sentence_ne_nil : sentence word words ≠ [] := by
  rcases words with _ | ⟨next, rest⟩
  · exact hword.ne_nil
  · exact List.append_ne_nil_of_left_ne_nil hword.ne_nil _

/-- A sentence has no comment. -/
theorem withoutComment_sentence : withoutComment (sentence word words) = sentence word words :=
  withoutComment_of_not_mem fun h => (ne_of_mem_sentence hword hwords h).1 rfl

/-- A sentence has no blanks around it. -/
theorem trim_sentence : trim (sentence word words) = sentence word words := by
  obtain ⟨first, word, rfl⟩ := List.exists_cons_of_ne_nil hword.ne_nil
  rcases words with _ | ⟨next, rest⟩
  · exact trim_eq_self (fun c h => hword.not_isBlank (List.mem_of_head? h))
      fun c h => hword.not_isBlank (List.mem_of_getLast? h)
  · refine trim_eq_self (fun c h => ?_) fun c h => ?_
    · cases h
      exact hword.not_isBlank List.mem_cons_self
    · have hne : listed (next :: rest) ≠ [] := listed_ne_nil (hwords next List.mem_cons_self)
      unfold sentence at h
      dsimp only at h
      rw [getLast?_append_cons_of_ne_nil _ hne] at h
      exact not_isBlank_of_getLast?_listed hwords h

/-- A sentence splits after its first word. -/
theorem firstWord_sentence : firstWord (sentence word words) = (word, listed words) := by
  rcases words with _ | ⟨next, rest⟩
  · exact firstWord_of_isWord hword
  · have htrim : trim (' ' :: listed (next :: rest)) = trim (listed (next :: rest)) := rfl
    unfold sentence
    dsimp only
    rw [firstWord_append_cons hword (by decide), htrim,
      trim_eq_self (fun c => not_isBlank_of_head?_listed hwords)
        fun c => not_isBlank_of_getLast?_listed hwords]

end

/-- A text without a line feed is a line. -/
theorem lines_of_not_mem {line : List Char} (hne : line ≠ []) (h : '\n' ∉ line) :
    lines line = [line] := by
  have hlast : [line].getLast? ≠ some [] := fun heq => hne (Option.some.inj heq)
  unfold lines
  dsimp only
  rw [List.splitOn_eq_singleton h, if_neg hlast]

/-- Lines that each end in a line feed are the lines of their text. -/
theorem lines_flatMap {lines : List (List Char)} (h : ∀ line ∈ lines, '\n' ∉ line) :
    Text.lines (lines.flatMap fun line => line ++ ['\n']) = lines := by
  -- The last line feed has an empty piece after it, which is no line.
  have hsplit : (lines.flatMap fun line => line ++ ['\n']).splitOn '\n' = lines ++ [[]] := by
    induction lines with
    | nil => rfl
    | cons line rest ih =>
      rw [List.forall_mem_cons] at h
      rw [List.flatMap_cons, List.append_assoc, List.singleton_append,
        List.splitOn_append_cons_self_of_not_mem h.1, ih h.2, List.cons_append]
  unfold Text.lines
  dsimp only
  rw [hsplit, if_pos List.getLast?_concat, List.dropLast_concat]

/-- The pieces of a text are its lines, and a blank one if the text ends in a line feed or is
empty. -/
theorem exists_splitOn_eq_lines (cs : List Char) :
    ∃ blanks, cs.splitOn '\n' = lines cs ++ blanks ∧ ∀ line ∈ blanks, line = [] := by
  unfold lines
  dsimp only
  split
  · rename_i hlast
    obtain ⟨front, hfront⟩ := List.getLast?_eq_some_iff.mp hlast
    refine ⟨[[]], ?_, fun line hmem => List.mem_singleton.mp hmem⟩
    rw [hfront, List.dropLast_concat]
  · exact ⟨[], (List.append_nil _).symm, fun line hmem => nomatch hmem⟩

/-- No piece of a text contains the separator. -/
theorem not_mem_of_mem_splitOn {separator : Char} {cs piece : List Char}
    (h : piece ∈ cs.splitOn separator) : separator ∉ piece := by
  induction cs generalizing piece with
  | nil =>
    obtain rfl := List.mem_singleton.mp h
    exact List.not_mem_nil
  | cons c cs ih =>
    rw [List.splitOn_cons_eq_if_modifyHead] at h
    split at h
    · rcases List.mem_cons.mp h with rfl | h
      · exact List.not_mem_nil
      · exact ih h
    · -- The character goes to the first piece of what follows.
      rename_i hne
      obtain ⟨first, rest, hsplit⟩ := List.exists_cons_of_ne_nil (List.splitOn_ne_nil separator cs)
      rw [hsplit] at h ih
      rcases List.mem_cons.mp h with rfl | h
      · refine fun hmem => (List.mem_cons.mp hmem).elim (fun heq => hne ?_) (ih List.mem_cons_self)
        rw [heq, beq_self_eq_true]
      · exact ih (List.mem_cons_of_mem _ h)

/-- No line has a line feed. -/
theorem not_mem_of_mem_lines {cs line : List Char} (h : line ∈ lines cs) : '\n' ∉ line := by
  obtain ⟨blanks, hpieces, -⟩ := exists_splitOn_eq_lines cs
  have hpiece : line ∈ cs.splitOn '\n' := hpieces ▸ List.mem_append_left blanks h
  exact not_mem_of_mem_splitOn hpiece

/-- The lines of two texts with a line feed between them. -/
theorem lines_append (first second : List Char) :
    lines (first ++ '\n' :: second) = first.splitOn '\n' ++ lines second := by
  have hsplit : (first ++ '\n' :: second).splitOn '\n' =
      first.splitOn '\n' ++ second.splitOn '\n' :=
    List.splitOnP_append_cons first second (beq_self_eq_true _)
  rcases List.eq_nil_or_concat (second.splitOn '\n') with hnil | ⟨front, last, hlast⟩
  · exact absurd hnil (List.splitOnP_ne_nil _ _)
  · rw [List.concat_eq_append] at hlast
    unfold lines
    dsimp only
    rw [hsplit, hlast, ← List.append_assoc, List.getLast?_concat, List.getLast?_concat,
      List.dropLast_concat, List.dropLast_concat]
    split
    · rfl
    · exact List.append_assoc ..

end RegisterMachine.Text
