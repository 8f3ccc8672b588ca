import RegisterMachine.Proofs.Text.Words

/-!
# Texts in quotes

How a text that is put in quotes is read again. The text itself has no quote, so the mark at its end
is the one that closes it. Commas and semicolons in it are then ordinary characters: the quoted text
is a single item (`items_quote`), no comment starts in it (`withoutComment_append_quote`), and the
text is what comes out of the quotes (`unquote?_quote`).
-/

namespace RegisterMachine.Text

/-- A text in quotes. -/
def quote (text : List Char) : List Char :=
  '"' :: (text ++ ['"'])

/-! ## Marks -/

/-- Only a quote changes what is quoted. -/
theorem toggle_of_ne {c : Char} (h : c ≠ '"') (quoted : Bool) : toggle quoted c = quoted := by
  unfold toggle
  rw [beq_false_of_ne h, Bool.bne_false]

/-- A text without quotation marks leaves quoted what is quoted. -/
theorem foldl_toggle_of_not_mem {cs : List Char} (h : '"' ∉ cs) (quoted : Bool) :
    cs.foldl toggle quoted = quoted := by
  induction cs with
  | nil => rfl
  | cons c cs ih =>
    rw [List.mem_cons, not_or] at h
    rw [List.foldl_cons, toggle_of_ne (Ne.symm h.1), ih h.2]

/-- Text without quotes is all quoted or all free, and so is what follows it. -/
theorem marked_append_of_not_mem {front : List Char} (h : '"' ∉ front) (quoted : Bool)
    (back : List Char) :
    marked quoted (front ++ back) = front.map (·, quoted) ++ marked quoted back := by
  induction front with
  | nil => rfl
  | cons c front ih =>
    rw [List.mem_cons, not_or] at h
    rw [List.cons_append, marked_cons, toggle_of_ne (Ne.symm h.1), ih h.2]
    rfl

/-- All of a quoted text but the mark that opens it stands inside quotes. -/
theorem marked_quote {text : List Char} (h : '"' ∉ text) :
    marked false (quote text) = ('"', false) :: (text ++ ['"']).map (·, true) := by
  have hopen : toggle false '"' = true := by decide
  unfold quote
  rw [marked_cons, hopen, marked_append_of_not_mem h, List.map_append]
  rfl

/-- A quoted text has no free separators. -/
theorem isFree_of_mem_marked_quote {text : List Char} (h : '"' ∉ text) {separator : Char}
    (hne : separator ≠ '"') {entry : Char × Bool} (hmem : entry ∈ marked false (quote text)) :
    isFree separator entry = false := by
  rw [marked_quote h, List.mem_cons] at hmem
  unfold isFree
  rcases hmem with rfl | hmem
  · rw [beq_false_of_ne (Ne.symm hne), Bool.false_and]
  · obtain ⟨c, -, rfl⟩ := List.mem_map.mp hmem
    exact Bool.and_false _

/-! ## Reading a quoted text -/

variable {text : List Char}

/-- A quoted text is a single item. -/
theorem items_quote (h : '"' ∉ text) : items (quote text) = [quote text] := by
  have hpiece : ∀ entry ∈ marked false (quote text), isFree ',' entry = false :=
    fun entry => isFree_of_mem_marked_quote h (by decide)
  unfold items
  rw [List.splitOnP_eq_singleton hpiece, List.map_singleton, map_fst_marked]

/-- No comment starts in a quoted text. -/
theorem withoutComment_append_quote (h : '"' ∉ text) {front : List Char} (hquote : '"' ∉ front)
    (hsemicolon : ';' ∉ front) :
    withoutComment (front ++ quote text) = front ++ quote text := by
  have hfree : ∀ entry ∈ marked false (front ++ quote text), (!isFree ';' entry) = true := by
    intro entry hmem
    rw [marked_append_of_not_mem hquote, List.mem_append] at hmem
    rcases hmem with hmem | hmem
    · obtain ⟨c, hc, rfl⟩ := List.mem_map.mp hmem
      unfold isFree
      rw [beq_false_of_ne fun heq : c = ';' => hsemicolon (heq ▸ hc), Bool.false_and]
      rfl
    · rw [isFree_of_mem_marked_quote h (by decide) hmem]
      rfl
  unfold withoutComment
  rw [List.takeWhile_eq_self_iff.mpr hfree, map_fst_marked]

/-- A quoted text is unquoted to itself, whatever it contains. -/
theorem unquote?_quote (text : List Char) : unquote? (quote text) = some text := by
  show (if (text ++ ['"']).getLast? = some '"' then some (text ++ ['"']).dropLast else none) = _
  rw [if_pos List.getLast?_concat, List.dropLast_concat]

/-- Quotes are not blank, so there is nothing to trim after them. -/
theorem trim_append_quote {front : List Char}
    (hfirst : ∀ c, front.head? = some c → isBlank c = false) (text : List Char) :
    trim (front ++ quote text) = front ++ quote text := by
  refine trim_eq_self (fun c hc => ?_) fun c hc => ?_
  · rcases front with _ | ⟨first, front⟩
    · cases hc
      decide
    · exact hfirst c hc
  · have hlast : (front ++ quote text).getLast? = some '"' := by
      unfold quote
      rw [← List.cons_append, ← List.append_assoc, List.getLast?_concat]
    cases hlast.symm.trans hc
    decide

/-- A quoted text has no blanks around it to be trimmed. -/
theorem trim_quote (text : List Char) : trim (quote text) = quote text := by
  have hnothing : ∀ c, ([] : List Char).head? = some c → isBlank c = false := by
    rintro _ ⟨⟩
  exact trim_append_quote hnothing text

end RegisterMachine.Text
