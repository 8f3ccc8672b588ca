import RegisterMachine.Proofs.Assembly.OperandReading
import RegisterMachine.Proofs.Assembly.Reading
import RegisterMachine.Proofs.Assembly.Residue
import RegisterMachine.Proofs.Text.Grammar
import RegisterMachine.Proofs.Text.Items

/-!
# Items of constants

What the items of a line of constants stand for, told from how they are written: a literal for its
value, a quoted text for its bytes (`Stands`), a list for the bytes of all its items one after the
other (`Spells`). An item that is neither is refused (`Fails`), and the first one that is decides
what a list is refused for (`Breaks`).

The assembler scans for quotes three times: for the comment, for the commas and for the quotes
around an item. All three agree on these lists, since every item ends outside quotes and has its
commas and semicolons inside them (`Spells.constantsOf_eq`, `Breaks.stops`).
-/

namespace RegisterMachine.Assembly

/-! ## How items are written -/

/-- An item of constants and its bytes: a literal in the range of the width, or a quoted text, which
stands for its UTF-8 bytes and a zero byte whatever the width. -/
inductive Stands (width : Width) : List Char → List UInt8 → Prop where
  | literal {item : List Char} {v : Int} (h : Text.Literal item v)
      (hlow : -2 ^ (width.bits - 1) ≤ v) (hhigh : v ≤ 2 ^ width.bits - 1) :
      Stands width item (LittleEndian.toBytes width.bytes (v % 2 ^ width.bits).toNat)
  | quoted {text : List Char} (h : '"' ∉ text) :
      Stands width (Text.quote text) (Text.utf8Bytes text ++ [0])

/-- Items with a comma between each two of them and any blanks around them, and the bytes of all. -/
inductive Spells (width : Width) : List Char → List UInt8 → Prop where
  | last {before item after : List Char} {bytes : List UInt8} (hbefore : Text.IsGap before)
      (hitem : Stands width item bytes) (hafter : Text.IsGap after) :
      Spells width (before ++ (item ++ after)) bytes
  | cons {before item after rest : List Char} {bytes bytes' : List UInt8}
      (hbefore : Text.IsGap before) (hitem : Stands width item bytes) (hafter : Text.IsGap after)
      (hrest : Spells width rest bytes') :
      Spells width (before ++ (item ++ (after ++ ',' :: rest))) (bytes ++ bytes')

/-- A comment, or nothing. -/
def IsComment (text : List Char) : Prop :=
  text = [] ∨ text.head? = some ';'

/-- Why an item of constants is refused. -/
inductive Fails (width : Width) : List Char → Cause → Prop where
  | high {item : List Char} {v : Int} (h : Text.Literal item v) (hsmall : v.natAbs ≤ 2 ^ 63 - 1)
      (hhigh : 2 ^ width.bits - 1 < v) : Fails width item (.integerTooHigh v)
  | low {item : List Char} {v : Int} (h : Text.Literal item v) (hsmall : v.natAbs ≤ 2 ^ 63 - 1)
      (hlow : v < -2 ^ (width.bits - 1)) : Fails width item (.integerTooLow v)
  | number {item : List Char} (hliteral : ∀ v, Text.Literal item v → 2 ^ 63 ≤ v.natAbs)
      (hquoted : ∀ text, item ≠ Text.quote text) : Fails width item .invalidNumber

/-- An item stands between commas, with a given text after it: it has no blank at its ends and no
comma or semicolon outside quotes, and if it leaves a quote open it ends the line. -/
structure IsItem (item tail : List Char) : Prop where
  trimmed : Text.IsTrimmed item
  whole : ∀ separator, separator = ',' ∨ separator = ';' →
    ∀ entry ∈ Text.marked false item, Text.isFree separator entry = false
  tail : tail = [] ∨ item.foldl Text.toggle false = false ∧
    (tail.head? = some ',' ∨ tail.head? = some ';')

/-- Items the first of which that is refused, after the bytes of those before it. -/
inductive Breaks (width : Width) : List Char → List UInt8 → Cause → Prop where
  | here {before item after tail : List Char} {cause : Cause} (hbefore : Text.IsGap before)
      (hitem : IsItem item tail) (hfails : Fails width item cause) (hafter : Text.IsGap after)
      (hsome : item ≠ [] ∨ tail.head? = some ',') :
      Breaks width (before ++ (item ++ (after ++ tail))) [] cause
  /-- No item stands after the last comma. -/
  | trailing {before item after gap comment : List Char} {bytes : List UInt8}
      (hbefore : Text.IsGap before) (hitem : Stands width item bytes) (hafter : Text.IsGap after)
      (hgap : Text.IsGap gap) (hcomment : IsComment comment) :
      Breaks width (before ++ (item ++ (after ++ ',' :: (gap ++ comment)))) bytes .invalidNumber
  | later {before item after rest : List Char} {bytes bytes' : List UInt8} {cause : Cause}
      (hbefore : Text.IsGap before) (hitem : Stands width item bytes) (hafter : Text.IsGap after)
      (hrest : Breaks width rest bytes' cause) :
      Breaks width (before ++ (item ++ (after ++ ',' :: rest))) (bytes ++ bytes') cause

/-! ## Items -/

section

variable {width : Width} {before item after values tail comment : List Char} {bytes : List UInt8}
  {cause : Cause} {v : Int} {separator : Char}

/-- A literal is closed, whatever its magnitude, and it is no quoted text. -/
theorem closed_of_literal (h : Text.Literal item v) (hseparator : separator = ',' ∨ separator = ';') :
    Text.Closed separator item := by
  refine .of_plain fun c hc => ⟨(h.isLiteralChar c hc).ne_quote, ?_⟩
  obtain ⟨hplain, hsemicolon, -⟩ := (h.isLiteralChar c hc).plain
  rcases hseparator with rfl | rfl
  · rintro rfl
    cases hplain
  · exact hsemicolon

/-- A literal has no blanks around it. -/
theorem isTrimmed_of_literal (h : Text.Literal item v) : Text.IsTrimmed item :=
  ⟨fun c hc => (h.isLiteralChar c (List.mem_of_head? hc)).not_isBlank,
    fun c hc => (h.isLiteralChar c (List.mem_of_getLast? hc)).not_isBlank⟩

/-- A literal is not a quoted text. -/
theorem unquote?_of_literal (h : Text.Literal item v) : Text.unquote? item = none := by
  unfold Text.unquote?
  split
  · exact absurd rfl (h.isLiteralChar _ List.mem_cons_self).ne_quote
  · rfl

/-- Only quotes around it make a text a quoted one. -/
theorem unquote?_eq_none (h : ∀ text, item ≠ Text.quote text) : Text.unquote? item = none := by
  unfold Text.unquote?
  split
  · rename_i rest
    rw [if_neg]
    intro hlast
    obtain ⟨text, rfl⟩ := List.getLast?_eq_some_iff.mp hlast
    exact h text rfl
  · rfl

/-- An item that stands for bytes ends outside quotes, and separators stand in it inside quotes
only. -/
theorem Stands.closed (h : Stands width item bytes) (hseparator : separator = ',' ∨ separator = ';') :
    Text.Closed separator item := by
  cases h with
  | literal h => exact closed_of_literal h hseparator
  | quoted h => exact .quote h (by rcases hseparator with rfl | rfl <;> decide)

/-- An item that stands for bytes has no blanks around it. -/
theorem Stands.trim_eq (h : Stands width item bytes) : Text.trim item = item := by
  cases h with
  | literal h => exact (isTrimmed_of_literal h).trim_eq
  | quoted h => exact Text.trim_quote _

/-- Every item has at least one character, and the first one is not blank. -/
theorem Stands.exists_mem (h : Stands width item bytes) :
    ∃ c ∈ item, Text.isBlank c = false := by
  cases h with
  | literal h =>
    obtain ⟨c, hc⟩ := List.exists_mem_of_ne_nil _ h.ne_nil
    exact ⟨c, hc, (h.isLiteralChar c hc).not_isBlank⟩
  | quoted h => exact ⟨'"', List.mem_cons_self, by decide⟩

/-- The assembler reads an item as the bytes it stands for. -/
theorem Stands.exists_constantBytes (h : Stands width item bytes) :
    ∃ pieces, constantBytes width item = .ok pieces ∧ pieces.flatten = bytes := by
  unfold constantBytes
  cases h with
  | @literal _ v h hlow hhigh =>
    obtain ⟨hminimum, hmaximum, hmodulus⟩ := width.range_eq
    have hmagnitude : v.natAbs ≤ Text.maxMagnitude := by
      unfold Text.maxMagnitude
      cases width <;> simp [Width.bits, Width.bytes] at hlow hhigh <;> omega
    have hvalue : Text.integer? item = some v := Text.integer?_eq_some_iff.mpr ⟨h, hmagnitude⟩
    have hencoded := Width.encodeLiteral_eq_ok_iff.mpr ⟨v, hvalue, Width.encode_eq_ok_iff.mpr
      ⟨hminimum ▸ hlow, hmaximum ▸ hhigh, rfl⟩⟩
    rw [unquote?_of_literal h]
    refine ⟨_, map_eq_ok_iff.mpr ⟨_, hencoded, rfl⟩, ?_⟩
    rw [List.flatten_singleton, hmodulus]
    rfl
  | @quoted text h =>
    rw [Text.unquote?_quote]
    exact ⟨_, rfl, by simp⟩

/-- The assembler refuses an item for the reason that there is. -/
theorem Fails.constantBytes_eq (h : Fails width item cause) :
    constantBytes width item = .error cause := by
  unfold constantBytes
  cases h with
  | high h hsmall hhigh =>
    rw [unquote?_of_literal h]
    dsimp only
    rw [Width.encodeLiteral_of_high (Text.integer?_eq_some_iff.mpr ⟨h, hsmall⟩) hhigh]
    rfl
  | low h hsmall hlow =>
    rw [unquote?_of_literal h]
    dsimp only
    rw [Width.encodeLiteral_of_low (Text.integer?_eq_some_iff.mpr ⟨h, hsmall⟩) hlow]
    rfl
  | number hliteral hquoted =>
    have hnone : Text.integer? item = none := Text.integer?_eq_none_iff.mpr hliteral
    rw [unquote?_eq_none hquoted]
    dsimp only
    unfold Width.encodeLiteral
    rw [hnone]
    rfl

/-! ## Lists of items -/

/-- An item in its blanks is that item. -/
theorem Stands.trim_padded (h : Stands width item bytes) (hbefore : Text.IsGap before)
    (hafter : Text.IsGap after) : Text.trim (before ++ (item ++ after)) = item := by
  rw [Text.trim_append_left hbefore, Text.trim_append_right hafter, h.trim_eq]

/-- An item in its blanks has its commas and semicolons in quotes, and closes them. -/
theorem Stands.closed_padded (h : Stands width item bytes) (hbefore : Text.IsGap before)
    (hafter : Text.IsGap after) (hseparator : separator = ',' ∨ separator = ';') :
    Text.Closed separator (before ++ (item ++ after)) := by
  have hblank : Text.isBlank separator = false := by
    rcases hseparator with rfl | rfl <;> decide
  exact (Text.Closed.of_gap hbefore hblank).append
    ((h.closed hseparator).append (.of_gap hafter hblank))

/-- Items that are read, and then others. -/
theorem constantsOf_cons_of_stands (h : Stands width item bytes) (hbefore : Text.IsGap before)
    (hafter : Text.IsGap after) {items : List (List Char)} {bytes' : List UInt8}
    (hitems : Clause.constantsOf width items = .ok bytes') :
    Clause.constantsOf width ((before ++ (item ++ after)) :: items) = .ok (bytes ++ bytes') := by
  obtain ⟨pieces, hpieces, rfl⟩ := h.exists_constantBytes
  refine bind_eq_ok_iff.mpr ⟨pieces, ?_, bind_eq_ok_iff.mpr ⟨bytes', hitems, rfl⟩⟩
  rw [h.trim_padded hbefore hafter, hpieces]

/-- Only the items without their blanks count for the constants. -/
theorem constantsOf_congr {items items' : List (List Char)}
    (h : items.map Text.trim = items'.map Text.trim) :
    Clause.constantsOf width items = Clause.constantsOf width items' := by
  induction items generalizing items' with
  | nil =>
    rw [List.map_nil, eq_comm, List.map_eq_nil_iff] at h
    rw [h]
  | cons item items ih =>
    rw [List.map_cons, eq_comm, List.map_eq_cons_iff] at h
    obtain ⟨item', others, rfl, hitem, hothers⟩ := h
    rw [Clause.constantsOf, Clause.constantsOf, hitem, ih hothers.symm]

/-- A list of items has no semicolon outside quotes. -/
theorem Spells.closed (h : Spells width values bytes) : Text.Closed ';' values := by
  induction h with
  | last hbefore hitem hafter => exact hitem.closed_padded hbefore hafter (.inr rfl)
  | @cons before item after rest bytes bytes' hbefore hitem hafter hrest ih =>
    have hcomma : Text.Closed ';' [','] := .of_plain (by decide)
    have hall := (hitem.closed_padded hbefore hafter (.inr rfl)).append (hcomma.append ih)
    simpa using hall

/-- The assembler cuts a list into its items and reads all of them. -/
theorem Spells.constantsOf_eq (h : Spells width values bytes) :
    Clause.constantsOf width (Text.items values) = .ok bytes := by
  induction h with
  | @last before item after bytes hbefore hitem hafter =>
    have hclosed := hitem.closed_padded hbefore hafter (.inl rfl)
    have hnothing : Clause.constantsOf width [] = .ok [] := rfl
    have hread := constantsOf_cons_of_stands hitem hbefore hafter hnothing
    rw [Text.items_eq_singleton hclosed.whole]
    rwa [List.append_nil] at hread
  | @cons before item after rest bytes bytes' hbefore hitem hafter hrest ih =>
    have hclosed := hitem.closed_padded hbefore hafter (.inl rfl)
    have hsplit : before ++ (item ++ (after ++ ',' :: rest)) =
        (before ++ (item ++ after)) ++ ',' :: rest := by simp
    rw [hsplit, Text.items_append_comma hclosed]
    exact constantsOf_cons_of_stands hitem hbefore hafter ih

/-- Items that spell bytes are not all blank. -/
theorem Spells.exists_mem (h : Spells width values bytes) :
    ∃ c ∈ values, Text.isBlank c = false := by
  cases h with
  | last _ hitem _ =>
    obtain ⟨c, hc, hblank⟩ := hitem.exists_mem
    exact ⟨c, by simp [hc], hblank⟩
  | cons _ hitem _ _ =>
    obtain ⟨c, hc, hblank⟩ := hitem.exists_mem
    exact ⟨c, by simp [hc], hblank⟩

/-- Without a comment nothing is left of a comment. -/
theorem withoutComment_of_isComment (h : IsComment comment) : Text.withoutComment comment = [] := by
  rcases h with rfl | hsemicolon
  · rfl
  · obtain ⟨rest, rfl⟩ := List.head?_eq_some_iff.mp hsemicolon
    exact Text.withoutComment_semicolon rest

/-- In a list some items are read as bytes, and the one after them is refused. -/
def Stops (width : Width) (values : List Char) (bytes : List UInt8) (cause : Cause) : Prop :=
  ∃ front item rest, Text.items values = front ++ item :: rest ∧
    Clause.constantsOf width front = .ok bytes ∧
    constantBytes width (Text.trim item) = .error cause

/-- An item in its blanks has no commas or semicolons outside quotes. -/
theorem IsItem.whole_padded (h : IsItem item tail) (hbefore : Text.IsGap before)
    (hafter : Text.IsGap after) (hseparator : separator = ',' ∨ separator = ';') :
    ∀ entry ∈ Text.marked false (before ++ (item ++ after)), Text.isFree separator entry = false := by
  have hblank : Text.isBlank separator = false := by
    rcases hseparator with rfl | rfl <;> decide
  have hfront : Text.Closed separator before := .of_gap hbefore hblank
  rw [Text.marked_append, hfront.outside, Text.marked_append, List.forall_mem_append,
    List.forall_mem_append]
  exact ⟨hfront.whole, h.whole separator hseparator,
    Text.isFree_of_mem_marked_gap hafter hblank _⟩

/-- The comment stands behind an item: what is left without it is the item, or the item and what a
comma leads. -/
theorem IsItem.withoutComment_eq (h : IsItem item tail) (hbefore : Text.IsGap before)
    (hafter : Text.IsGap after) :
    tail.head? ≠ some ',' ∧
        Text.withoutComment (before ++ (item ++ (after ++ tail))) = before ++ (item ++ after) ∨
      Text.Closed ',' (before ++ (item ++ after)) ∧ ∃ rest,
        Text.withoutComment (before ++ (item ++ (after ++ tail))) =
          (before ++ (item ++ after)) ++ ',' :: rest := by
  have hwhole {separator : Char} (hseparator : separator = ',' ∨ separator = ';') :=
    h.whole_padded hbefore hafter hseparator
  have hassoc : before ++ (item ++ (after ++ tail)) = (before ++ (item ++ after)) ++ tail := by simp
  rw [hassoc]
  rcases h.tail with rfl | ⟨houtside, htail⟩
  · -- Nothing follows the item, and no comment starts in it.
    left
    rw [List.append_nil, Text.withoutComment_eq_self (hwhole (.inr rfl))]
    exact ⟨by decide, rfl⟩
  · have hclosed {separator : Char} (hseparator : separator = ',' ∨ separator = ';') :
        Text.Closed separator (before ++ (item ++ after)) := by
      have hblank : Text.isBlank separator = false := by
        rcases hseparator with rfl | rfl <;> decide
      exact (Text.Closed.of_gap hbefore hblank).append
        (.append ⟨houtside, h.whole separator hseparator⟩ (.of_gap hafter hblank))
    rw [Text.withoutComment_append (hclosed (.inr rfl))]
    rcases htail with hcomma | hsemicolon
    · -- A comma follows, and the comment is behind it.
      right
      obtain ⟨rest, rfl⟩ := List.head?_eq_some_iff.mp hcomma
      have hfirst : Text.Closed ';' [','] := .of_plain (by decide)
      refine ⟨hclosed (.inl rfl), Text.withoutComment rest, ?_⟩
      exact congrArg _ (Text.withoutComment_append hfirst rest)
    · -- The comment follows at once.
      left
      rw [withoutComment_of_isComment (.inr hsemicolon), List.append_nil, hsemicolon]
      exact ⟨by decide, rfl⟩

/-- The first item may be refused. -/
theorem IsItem.stops (hitem : IsItem item tail) (hfails : Fails width item cause)
    (hbefore : Text.IsGap before) (hafter : Text.IsGap after) :
    Stops width (Text.withoutComment (before ++ (item ++ (after ++ tail)))) [] cause := by
  have hrefused : constantBytes width (Text.trim (before ++ (item ++ after))) = .error cause := by
    rw [Text.trim_append_left hbefore, Text.trim_append_right hafter, hitem.trimmed.trim_eq,
      hfails.constantBytes_eq]
  rcases hitem.withoutComment_eq hbefore hafter with ⟨-, hall⟩ | ⟨hclosed, rest, hsplit⟩
  · rw [hall]
    refine ⟨[], _, [], ?_, rfl, hrefused⟩
    exact Text.items_eq_singleton (hitem.whole_padded hbefore hafter (.inl rfl))
  · rw [hsplit]
    exact ⟨[], _, Text.items rest, Text.items_append_comma hclosed rest, rfl, hrefused⟩

/-- A comment after a first item is one after the others. -/
theorem Stands.withoutComment_eq (h : Stands width item bytes) (hbefore : Text.IsGap before)
    (hafter : Text.IsGap after) (rest : List Char) :
    Text.withoutComment (before ++ (item ++ (after ++ ',' :: rest))) =
      (before ++ (item ++ after)) ++ ',' :: Text.withoutComment rest := by
  have hassoc : before ++ (item ++ (after ++ ',' :: rest)) =
      ((before ++ (item ++ after)) ++ [',']) ++ rest := by simp
  have hcomma : Text.Closed ';' [','] := .of_plain (by decide)
  have hclosed := (h.closed_padded hbefore hafter (.inr rfl)).append hcomma
  rw [hassoc, Text.withoutComment_append hclosed, List.append_assoc]
  rfl

/-- After an item that is read, one of the others may be refused. -/
theorem Stands.stops (hitem : Stands width item bytes) (hbefore : Text.IsGap before)
    (hafter : Text.IsGap after) {rest : List Char} {bytes' : List UInt8}
    (hrest : Stops width (Text.withoutComment rest) bytes' cause) :
    Stops width (Text.withoutComment (before ++ (item ++ (after ++ ',' :: rest)))) (bytes ++ bytes')
      cause := by
  obtain ⟨front, bad, others, hitems, hfront, hbad⟩ := hrest
  rw [hitem.withoutComment_eq hbefore hafter]
  refine ⟨(before ++ (item ++ after)) :: front, bad, others, ?_, ?_, hbad⟩
  · rw [Text.items_append_comma (hitem.closed_padded hbefore hafter (.inl rfl)), hitems]
    rfl
  · exact constantsOf_cons_of_stands hitem hbefore hafter hfront

/-- No item at all is refused as no number. -/
theorem Fails.nil : Fails width [] .invalidNumber :=
  .number (fun _ h => absurd rfl h.ne_nil) fun _ h => List.cons_ne_nil _ _ h.symm

/-- The empty text before a comment is an item. -/
theorem IsItem.nil (h : IsComment comment) : IsItem [] comment := by
  have hnothing : ∀ c ∈ ([] : List Char), Text.isBlank c = false := fun c hc => nomatch hc
  refine ⟨⟨fun c hc => hnothing c (List.mem_of_head? hc),
    fun c hc => hnothing c (List.mem_of_getLast? hc)⟩, fun _ _ => Text.Closed.nil.whole, ?_⟩
  rcases h with rfl | hsemicolon
  · exact .inl rfl
  · exact .inr ⟨rfl, .inr hsemicolon⟩

/-- The assembler reads the items before the one that is refused, and refuses that. -/
theorem Breaks.stops (h : Breaks width values bytes cause) :
    Stops width (Text.withoutComment values) bytes cause := by
  induction h with
  | here hbefore hitem hfails hafter _ => exact hitem.stops hfails hbefore hafter
  | @trailing before item after gap comment bytes hbefore hitem hafter hgap hcomment =>
    have hnothing : Text.IsGap [] := fun c hc => nomatch hc
    have hlast : Stops width (Text.withoutComment (gap ++ comment)) [] .invalidNumber :=
      (IsItem.nil hcomment).stops .nil hgap hnothing
    have hall := hitem.stops hbefore hafter hlast
    rwa [List.append_nil] at hall
  | later hbefore hitem hafter _ ih => exact hitem.stops hbefore hafter ih

/-- Items of which one is refused are not all blank. -/
theorem Breaks.exists_mem (h : Breaks width values bytes cause) :
    ∃ c ∈ Text.withoutComment values, Text.isBlank c = false := by
  cases h with
  | @here before item after tail cause hbefore hitem hfails hafter hsome =>
    rcases hitem.withoutComment_eq hbefore hafter with ⟨hend, hall⟩ | ⟨-, rest, hsplit⟩
    · obtain ⟨c, others, rfl⟩ := List.exists_cons_of_ne_nil (hsome.resolve_right hend)
      rw [hall]
      exact ⟨c, by simp, hitem.trimmed.first c rfl⟩
    · rw [hsplit]
      exact ⟨',', by simp, by decide⟩
  | trailing hbefore hitem hafter hgap hcomment =>
    obtain ⟨c, hc, hblank⟩ := hitem.exists_mem
    rw [hitem.withoutComment_eq hbefore hafter]
    exact ⟨c, by simp [hc], hblank⟩
  | later hbefore hitem hafter _ =>
    obtain ⟨c, hc, hblank⟩ := hitem.exists_mem
    rw [hitem.withoutComment_eq hbefore hafter]
    exact ⟨c, by simp [hc], hblank⟩

/-! ## Storing constants -/

/-- Blanks around the list do not show in what stops it. -/
theorem Stops.trim (h : Stops width values bytes cause) :
    Stops width (Text.trim values) bytes cause := by
  obtain ⟨front, item, rest, hitems, hfront, hitem⟩ := h
  have hsame := Text.map_trim_items_trim values
  rw [hitems, List.map_append, List.map_cons] at hsame
  obtain ⟨front', others, hitems', hfront', hothers⟩ := List.map_eq_append_iff.mp hsame
  obtain ⟨item', rest', rfl, hitem', -⟩ := List.map_eq_cons_iff.mp hothers
  refine ⟨front', item', rest', hitems', ?_, ?_⟩
  · rw [constantsOf_congr hfront', hfront]
  · rw [hitem', hitem]

/-- The items before the one that is refused are stored. -/
theorem Parse.forM_constant_run_of_stops (h : Stops width values bytes cause)
    (hroom : assembler.capacities.constants.admits (assembler.pool.size + bytes.length) = true) :
    ((Text.items values).forM fun item => constant width (Text.trim item)).run assembler =
      .error cause { assembler with pool := assembler.pool ++ bytes } := by
  obtain ⟨front, item, rest, hitems, hfront, hitem⟩ := h
  have hstored : (front.forM fun item => constant width (Text.trim item)).run assembler =
      .ok () { assembler with pool := assembler.pool ++ bytes } := by
    rcases front with _ | ⟨first, front⟩
    · cases hfront
      rw [Array.appendList_nil]
      rfl
    · exact (forM_constant_run_eq_ok_iff (List.cons_ne_nil _ _)).mpr ⟨bytes, hfront, hroom, rfl⟩
  rw [List.forM_eq_forM] at hstored ⊢
  rw [hitems, List.forM_append, bind_run_eq_error_iff]
  refine .inr ⟨(), _, hstored, ?_⟩
  rw [List.forM_cons, bind_run_eq_error_iff]
  exact .inl (ofExcept_bind_run_eq_error_iff.mpr (.inl ⟨hitem, rfl⟩))

end

end RegisterMachine.Assembly
