import RegisterMachine.Proofs.Text.Quoting
import RegisterMachine.Proofs.Text.Trimming

/-!
# Comments and items

Where a line has its comment and its items, told by the stretches that it is put together from. A
stretch is `Closed` for a separator when it ends outside quotes, if it starts there, and has the
separator inside quotes only. A comment starts after closed text alone (`withoutComment_append`),
and closed text up to a comma is an item (`items_append_comma`). Blanks at the ends of a list are
only blanks at the ends of its items (`map_trim_items_trim`).
-/

namespace RegisterMachine.Text

/-- A stretch of text ends outside quotes, if it starts there, and a separator stands in it inside
quotes only. -/
structure Closed (separator : Char) (cs : List Char) : Prop where
  outside : cs.foldl toggle false = false
  whole : ∀ entry ∈ marked false cs, isFree separator entry = false

variable {separator c : Char} {cs front back gap text : List Char}

/-- What stands before a text counts for its marks only by whether it leaves it inside quotes. -/
theorem marked_append (quoted : Bool) (front back : List Char) :
    marked quoted (front ++ back) = marked quoted front ++ marked (front.foldl toggle quoted) back := by
  induction front generalizing quoted with
  | nil => rfl
  | cons c front ih =>
    rw [List.cons_append, marked_cons, marked_cons, ih, List.foldl_cons]
    rfl

namespace Closed

/-- The empty text is closed. -/
theorem nil : Closed separator [] :=
  ⟨rfl, fun _ hentry => nomatch hentry⟩

/-- Closed texts one after the other are closed. -/
theorem append (h : Closed separator front) (h' : Closed separator back) :
    Closed separator (front ++ back) := by
  constructor
  · rw [List.foldl_append, h.outside, h'.outside]
  · rw [marked_append, h.outside]
    exact List.forall_mem_append.mpr ⟨h.whole, h'.whole⟩

/-- Text without quotes is closed for what does not stand in it. -/
theorem of_plain (h : ∀ c ∈ cs, c ≠ '"' ∧ c ≠ separator) : Closed separator cs :=
  ⟨foldl_toggle_of_not_mem (fun hmem => (h _ hmem).1 rfl) false,
    isFree_of_not_mem (fun hmem => (h _ hmem).2 rfl) false⟩

/-- Blanks are closed, since a separator is none. -/
theorem of_gap (h : IsGap gap) (hseparator : isBlank separator = false) : Closed separator gap := by
  refine of_plain fun c hc => ⟨?_, ?_⟩
  · rintro rfl
    exact absurd (h _ hc) (by decide)
  · rintro rfl
    rw [h _ hc] at hseparator
    cases hseparator

/-- A quoted text is closed, whatever stands in it. -/
theorem quote (h : '"' ∉ text) (hseparator : separator ≠ '"') : Closed separator (Text.quote text) := by
  refine ⟨?_, fun entry => isFree_of_mem_marked_quote h hseparator⟩
  have hinside : text.foldl toggle true = true := foldl_toggle_of_not_mem h true
  unfold Text.quote
  rw [List.foldl_cons, List.foldl_append]
  exact congrArg (toggle · '"') hinside

end Closed

/-! ## Comments -/

/-- A comment starts after text that is closed for semicolons where it would start by itself. -/
theorem withoutComment_append (h : Closed ';' front) (back : List Char) :
    withoutComment (front ++ back) = front ++ withoutComment back := by
  have hfree : ∀ entry ∈ marked false front, (!isFree ';' entry) = true := fun entry hentry => by
    rw [h.whole entry hentry, Bool.not_false]
  unfold withoutComment
  rw [marked_append, h.outside, List.takeWhile_append_of_pos hfree, List.map_append, map_fst_marked]

/-- A text that starts with a semicolon is all comment. -/
theorem withoutComment_semicolon (cs : List Char) : withoutComment (';' :: cs) = [] := by
  unfold withoutComment
  rw [marked_cons, List.takeWhile_cons_of_neg (by decide), List.map_nil]

/-- Text that ends where a line ends has no comment, if it has no semicolon outside quotes. -/
theorem withoutComment_eq_self (h : ∀ entry ∈ marked false cs, isFree ';' entry = false) :
    withoutComment cs = cs := by
  have hfree : ∀ entry ∈ marked false cs, (!isFree ';' entry) = true := fun entry hentry => by
    rw [h entry hentry, Bool.not_false]
  unfold withoutComment
  rw [List.takeWhile_eq_self_iff.mpr hfree, map_fst_marked]

/-- What stands before the first free semicolon, whether the text starts inside quotes or not. -/
theorem exists_comment_of_quoted (quoted : Bool) (cs : List Char) :
    let left := ((marked quoted cs).takeWhile fun entry => !isFree ';' entry).map Prod.fst
    ∃ comment, cs = left ++ comment ∧
      (comment = [] ∨ comment.head? = some ';' ∧ left.foldl toggle quoted = false) ∧
      ∀ entry ∈ marked quoted left, isFree ';' entry = false := by
  induction cs generalizing quoted with
  | nil => exact ⟨[], rfl, .inl rfl, fun _ hentry => nomatch hentry⟩
  | cons c cs ih =>
    dsimp only
    rw [marked_cons]
    rcases hfree : isFree ';' (c, quoted) with _ | _
    · obtain ⟨comment, hsplit, hcomment, hwhole⟩ := ih (toggle quoted c)
      rw [List.takeWhile_cons_of_pos (by rw [hfree]; rfl), List.map_cons, marked_cons]
      exact ⟨comment, congrArg (c :: ·) hsplit, hcomment, List.forall_mem_cons.mpr ⟨hfree, hwhole⟩⟩
    · rw [List.takeWhile_cons_of_neg (by rw [hfree]; decide)]
      unfold isFree at hfree
      rw [Bool.and_eq_true, beq_iff_eq, Bool.not_eq_true'] at hfree
      obtain ⟨rfl, rfl⟩ := hfree
      exact ⟨_, rfl, .inr ⟨rfl, rfl⟩, fun _ hentry => nomatch hentry⟩

/-- A line is what is left of it without its comment, and then the comment, which starts outside
quotes. -/
theorem exists_comment (line : List Char) :
    ∃ comment, line = withoutComment line ++ comment ∧
      (comment = [] ∨ comment.head? = some ';' ∧ (withoutComment line).foldl toggle false = false) ∧
      ∀ entry ∈ marked false (withoutComment line), isFree ';' entry = false :=
  exists_comment_of_quoted false line

/-! ## Items -/

/-- A text without a comma outside quotes is one item. -/
theorem items_eq_singleton (h : ∀ entry ∈ marked false cs, isFree ',' entry = false) :
    items cs = [cs] := by
  unfold items
  rw [List.splitOnP_eq_singleton h, List.map_singleton, map_fst_marked]

/-- Closed text up to a comma is the first item. -/
theorem items_append_comma (h : Closed ',' front) (back : List Char) :
    items (front ++ ',' :: back) = front :: items back := by
  have hfree : isFree ',' (',', false) = true := rfl
  have htoggle : toggle false ',' = false := rfl
  unfold items
  rw [marked_append, h.outside, marked_cons, htoggle, List.splitOnP_append_cons _ _ hfree,
    List.splitOnP_eq_singleton h.whole, List.singleton_append, List.map_cons, map_fst_marked]

/-- What does not split goes to the first piece of what follows it. -/
theorem splitOnP_append_left {α : Type} {p : α → Bool} {xs : List α} (h : ∀ x ∈ xs, p x = false)
    (ys : List α) :
    ∃ first rest, ys.splitOnP p = first :: rest ∧ (xs ++ ys).splitOnP p = (xs ++ first) :: rest := by
  induction xs with
  | nil =>
    obtain ⟨first, rest, hsplit⟩ := List.exists_cons_of_ne_nil (List.splitOnP_ne_nil p ys)
    exact ⟨first, rest, hsplit, hsplit⟩
  | cons x xs ih =>
    rw [List.forall_mem_cons] at h
    obtain ⟨first, rest, hys, hall⟩ := ih h.2
    refine ⟨first, rest, hys, ?_⟩
    rw [List.cons_append, List.splitOnP_cons_eq_if_modifyHead, h.1, if_neg Bool.false_ne_true, hall]
    rfl

/-- What does not split goes to the last piece of what stands before it. -/
theorem splitOnP_append_right {α : Type} {p : α → Bool} {ys : List α} (h : ∀ y ∈ ys, p y = false)
    (xs : List α) :
    ∃ front last, xs.splitOnP p = front ++ [last] ∧
      (xs ++ ys).splitOnP p = front ++ [last ++ ys] := by
  induction xs with
  | nil => exact ⟨[], [], List.splitOnP_nil, List.splitOnP_eq_singleton h⟩
  | cons x xs ih =>
    obtain ⟨front, last, hxs, hall⟩ := ih
    rw [List.cons_append, List.splitOnP_cons_eq_if_modifyHead, List.splitOnP_cons_eq_if_modifyHead,
      hxs, hall]
    split
    · exact ⟨[] :: front, last, rfl, rfl⟩
    · rcases front with _ | ⟨first, front⟩
      · exact ⟨[], x :: last, rfl, rfl⟩
      · exact ⟨(x :: first) :: front, last, rfl, rfl⟩

/-- Blanks separate no items and start no comments, inside quotes or not. -/
theorem isFree_of_mem_marked_gap (h : IsGap gap) (hseparator : isBlank separator = false)
    (quoted : Bool) : ∀ entry ∈ marked quoted gap, isFree separator entry = false := by
  refine isFree_of_not_mem (fun hmem => ?_) quoted
  rw [h _ hmem] at hseparator
  cases hseparator

/-- Blanks at the ends of a list of items do not show in the items without theirs. -/
theorem map_trim_items_trim (cs : List Char) :
    (items (trim cs)).map trim = (items cs).map trim := by
  have hleft {gap : List Char} (hgap : IsGap gap) (cs : List Char) :
      (items (gap ++ cs)).map trim = (items cs).map trim := by
    have hclosed : Closed ',' gap := .of_gap hgap (by decide)
    obtain ⟨first, rest, hcs, hall⟩ := splitOnP_append_left hclosed.whole (marked false cs)
    unfold items
    rw [marked_append, hclosed.outside, hcs, hall, List.map_cons, List.map_cons, List.map_append,
      map_fst_marked, List.map_cons, List.map_cons, trim_append_left hgap]
  have hright {gap : List Char} (hgap : IsGap gap) (cs : List Char) :
      (items (cs ++ gap)).map trim = (items cs).map trim := by
    have hblank : isBlank ',' = false := by decide
    obtain ⟨front, last, hcs, hall⟩ :=
      splitOnP_append_right (isFree_of_mem_marked_gap hgap hblank (cs.foldl toggle false))
        (marked false cs)
    unfold items
    rw [marked_append, hcs, hall]
    simp only [List.map_append, List.map_cons, List.map_nil, map_fst_marked, trim_append_right hgap]
  obtain ⟨front, back, hfront, hback, hsplit⟩ := exists_gaps_trim cs
  conv => rhs; rw [hsplit]
  rw [hleft hfront, hright hback]

end RegisterMachine.Text
