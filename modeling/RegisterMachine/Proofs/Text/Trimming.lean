import RegisterMachine.Proofs.Text.Words

/-!
# Blanks around text

Blanks at either end of a text are trimmed (`trim_append_left`, `trim_append_right`) and so count
for nothing where a text is cut into its first word and the rest, or into fields. What is trimmed is
the text but for such blanks (`exists_gaps_trim`).
-/

namespace RegisterMachine.Text

/-- All characters are blank. -/
def IsGap (cs : List Char) : Prop :=
  ∀ c ∈ cs, isBlank c = true

/-- The characters of a gap are tested one by one. -/
instance (cs : List Char) : Decidable (IsGap cs) :=
  inferInstanceAs (Decidable (∀ c ∈ cs, isBlank c = true))

/-- A text neither starts nor ends with a blank. -/
structure IsTrimmed (cs : List Char) : Prop where
  first : ∀ c, cs.head? = some c → isBlank c = false
  last : ∀ c, cs.getLast? = some c → isBlank c = false

variable {cs gap word rest : List Char}

/-- Blanks read backwards are blanks. -/
theorem IsGap.reverse (h : IsGap gap) : IsGap gap.reverse :=
  fun c hc => h c (List.mem_reverse.mp hc)

/-- Blanks behind blanks are blanks. -/
theorem IsGap.append {gap' : List Char} (h : IsGap gap) (h' : IsGap gap') : IsGap (gap ++ gap') :=
  List.forall_mem_append.mpr ⟨h, h'⟩

/-- Blanks separate fields. -/
theorem IsGap.isSeparator (h : IsGap gap) : ∀ c ∈ gap, isSeparator c = true := fun c hc => by
  unfold Text.isSeparator
  rw [h c hc, Bool.or_true]

/-- A text without blanks at its ends is trimmed already. -/
theorem IsTrimmed.trim_eq (h : IsTrimmed cs) : trim cs = cs :=
  trim_eq_self h.first h.last

/-! ## Trimming -/

/-- Blanks before a text are dropped from its start. -/
theorem trimStart_append_left (h : IsGap gap) (cs : List Char) :
    trimStart (gap ++ cs) = trimStart cs :=
  List.dropWhile_append_of_pos h

/-- Of blanks nothing is left from the start. -/
theorem trimStart_eq_nil (h : IsGap gap) : trimStart gap = [] :=
  List.dropWhile_eq_nil_iff.mpr h

/-- Blanks before a text are trimmed. -/
theorem trim_append_left (h : IsGap gap) (cs : List Char) : trim (gap ++ cs) = trim cs := by
  unfold trim
  rw [trimStart_append_left h]

/-- Blanks behind a text are trimmed. -/
theorem trim_append_right (h : IsGap gap) (cs : List Char) : trim (cs ++ gap) = trim cs := by
  unfold trim
  have happend : trimStart (cs ++ gap) =
      if (trimStart cs).isEmpty then trimStart gap else trimStart cs ++ gap :=
    List.dropWhile_append
  rw [happend]
  split
  · rename_i hempty
    rw [trimStart_eq_nil h, List.isEmpty_iff.mp hempty]
  · rw [List.reverse_append, trimStart_append_left h.reverse]

/-- Of blanks nothing is left. -/
theorem trim_eq_nil (h : IsGap gap) : trim gap = [] := by
  rw [← List.append_nil gap, trim_append_left h]
  rfl

/-- Blanks and the rest of a text. -/
theorem exists_gap_trimStart (cs : List Char) : ∃ gap, IsGap gap ∧ cs = gap ++ trimStart cs :=
  ⟨cs.takeWhile isBlank, fun _ => List.mem_takeWhile_imp, (List.takeWhile_append_dropWhile).symm⟩

/-- What trimming drops at the end, after the start has been trimmed, is blank. -/
theorem exists_trim_gap (cs : List Char) :
    ∃ gap, IsGap gap ∧ trimStart cs = trim cs ++ gap := by
  obtain ⟨gap, hgap, hsplit⟩ := exists_gap_trimStart (trimStart cs).reverse
  refine ⟨gap.reverse, hgap.reverse, ?_⟩
  unfold trim
  rw [← List.reverse_append, ← hsplit, List.reverse_reverse]

/-- A text is what is left of it and blanks around that. -/
theorem exists_gaps_trim (cs : List Char) :
    ∃ front back, IsGap front ∧ IsGap back ∧ cs = front ++ (trim cs ++ back) := by
  obtain ⟨front, hfront, hstart⟩ := exists_gap_trimStart cs
  obtain ⟨back, hback, hend⟩ := exists_trim_gap cs
  exact ⟨front, back, hfront, hback, by rw [← hend, ← hstart]⟩

/-- A text with a character that is not blank is not trimmed away. -/
theorem trim_ne_nil {c : Char} (hc : c ∈ cs) (hblank : isBlank c = false) : trim cs ≠ [] := by
  obtain ⟨front, back, hfront, hback, hsplit⟩ := exists_gaps_trim cs
  intro hnil
  rw [hnil, List.nil_append] at hsplit
  rw [hsplit] at hc
  rw [hfront.append hback c hc] at hblank
  cases hblank

/-! ## First words and fields -/

/-- A text splits after its first word, and a blank follows if anything does. -/
theorem exists_rest_of_firstWord (h : firstWord cs = (word, rest)) :
    ∃ back, cs = word ++ back ∧ (∀ c ∈ word, isBlank c = false) ∧ rest = trim back ∧
      ∀ c, back.head? = some c → isBlank c = true := by
  cases h
  refine ⟨_, List.takeWhile_append_dropWhile.symm, fun c hc => ?_, rfl, fun c hc => ?_⟩
  · simpa using List.mem_takeWhile_imp hc
  · have hstop := List.head?_dropWhile_not (fun c => !isBlank c) cs
    rw [hc] at hstop
    simpa using hstop

/-- Blanks at the end of a text do not show in its first word and the rest. -/
theorem firstWord_append_right (h : IsGap gap) (cs : List Char) :
    firstWord (cs ++ gap) = firstWord cs := by
  rcases hfirst : firstWord cs with ⟨word, rest⟩
  obtain ⟨back, rfl, hword, rfl, hback⟩ := exists_rest_of_firstWord hfirst
  rw [List.append_assoc, firstWord_append hword, trim_append_right h]
  intro c hc
  rcases back with _ | ⟨first, others⟩
  · exact h c (List.mem_of_head? hc)
  · exact hback c hc

/-- Trimming does not show in the first word of a text that starts with it, nor in the rest. -/
theorem firstWord_trim (h : ∀ c, cs.head? = some c → isBlank c = false) :
    firstWord (trim cs) = firstWord cs := by
  obtain ⟨gap, hgap, hsplit⟩ := exists_trim_gap cs
  rw [trimStart_eq_self h] at hsplit
  rw [← firstWord_append_right hgap (trim cs), ← hsplit]

/-- Separators at the end of a text are behind its fields. -/
theorem fields_append_gap (h : ∀ c ∈ gap, isSeparator c = true) (cs : List Char) :
    fields (cs ++ gap) = fields cs := by
  rcases gap with _ | ⟨c, gap⟩
  · rw [List.append_nil]
  · rw [List.forall_mem_cons] at h
    have hnone : fields gap = [] := by
      rw [← List.append_nil gap, fields_append_of_gap h.2]
      rfl
    rw [fields_append_cons cs gap h.1, hnone, List.append_nil]

/-- Blanks around a text do not show in its fields. -/
theorem fields_trim (cs : List Char) : fields (trim cs) = fields cs := by
  obtain ⟨front, back, hfront, hback, hsplit⟩ := exists_gaps_trim cs
  calc fields (trim cs) = fields (trim cs ++ back) := (fields_append_gap hback.isSeparator _).symm
    _ = fields (front ++ (trim cs ++ back)) := (fields_append_of_gap hfront.isSeparator _).symm
    _ = fields cs := by rw [← hsplit]

end RegisterMachine.Text
