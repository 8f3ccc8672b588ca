import Mathlib.Data.List.Forall2
import RegisterMachine.Proofs.Text.Items
import RegisterMachine.Proofs.Text.Literals

/-!
# What the layout of a text does not change

Blanks at the ends of a line and a comment behind it leave the same text without comment and blanks
(`trim_withoutComment_append_left`, `trim_withoutComment_append_right`,
`withoutComment_append_semicolon`). A stretch inside a line may be exchanged for one with the same
quotes and semicolons without a change to where the comment starts (`withoutComment_exchange`), and
so may a word for one that differs in the case of its letters only (`SameCase.sameQuotes`). A
carriage return before a line feed is a blank at the end of a line
(`CarriageReturns.forall₂_lines`).
-/

namespace RegisterMachine.Text

variable {cs cs' front back comment line gap word rest : List Char}

/-! ## Comments -/

/-- No semicolon of a text stands outside quotes, where the text starts inside quotes or not. -/
def Uncut (quoted : Bool) (cs : List Char) : Prop :=
  ∀ entry ∈ marked quoted cs, isFree ';' entry = false

/-- Two texts one after the other are uncut if each is, the second one as the first one leaves it.
-/
theorem uncut_append_iff {quoted : Bool} :
    Uncut quoted (front ++ back) ↔ Uncut quoted front ∧ Uncut (front.foldl toggle quoted) back := by
  unfold Uncut
  rw [marked_append, List.forall_mem_append]

/-- What a line has before its comment, told from both parts. -/
theorem withoutComment_append_eq_iff :
    withoutComment (cs ++ comment) = cs ↔
      Uncut false cs ∧ (comment = [] ∨ comment.head? = some ';' ∧ cs.foldl toggle false = false) := by
  constructor
  · intro h
    obtain ⟨comment', hsplit, hcomment, huncut⟩ := exists_comment (cs ++ comment)
    rw [h] at hsplit hcomment huncut
    obtain rfl := List.append_cancel_left hsplit
    exact ⟨huncut, hcomment⟩
  · rintro ⟨huncut, rfl | ⟨hhead, houtside⟩⟩
    · rw [List.append_nil, withoutComment_eq_self huncut]
    · obtain ⟨text, rfl⟩ := List.head?_eq_some_iff.mp hhead
      have hclosed : Closed ';' cs := ⟨houtside, huncut⟩
      rw [withoutComment_append hclosed, withoutComment_semicolon, List.append_nil]

/-- A comment behind a line that ends outside quotes, or that has a comment already, is dropped. -/
theorem withoutComment_append_semicolon (h : (withoutComment line).foldl toggle false = false)
    (text : List Char) : withoutComment (line ++ ';' :: text) = withoutComment line := by
  obtain ⟨comment, hsplit, hcomment, huncut⟩ := exists_comment line
  have hhead : (comment ++ ';' :: text).head? = some ';' := by
    rcases hcomment with rfl | ⟨hhead, -⟩
    · rfl
    · rw [List.head?_append, hhead]
      rfl
  conv => lhs; rw [hsplit, List.append_assoc]
  exact withoutComment_append_eq_iff.mpr ⟨huncut, .inr ⟨hhead, h⟩⟩

/-- Blanks at the start of a line are dropped. -/
theorem trim_withoutComment_append_left (h : IsGap gap) (line : List Char) :
    trim (withoutComment (gap ++ line)) = trim (withoutComment line) := by
  rw [withoutComment_append (.of_gap h (by decide)), trim_append_left h]

/-- Blanks at the end of a line are dropped, whether they belong to its comment, stand inside quotes
or neither. -/
theorem trim_withoutComment_append_right (h : IsGap gap) (line : List Char) :
    trim (withoutComment (line ++ gap)) = trim (withoutComment line) := by
  obtain ⟨comment, hsplit, hcomment, huncut⟩ := exists_comment line
  rcases hcomment with rfl | ⟨hhead, houtside⟩
  · rw [List.append_nil] at hsplit
    rw [← hsplit] at huncut
    have hgap : Uncut (line.foldl toggle false) gap := isFree_of_mem_marked_gap h (by decide) _
    rw [withoutComment_eq_self (uncut_append_iff.mpr ⟨huncut, hgap⟩), trim_append_right h, ← hsplit]
  · have hhead' : (comment ++ gap).head? = some ';' := by
      rw [List.head?_append, hhead]
      rfl
    conv => lhs; rw [hsplit, List.append_assoc]
    rw [withoutComment_append_eq_iff.mpr ⟨huncut, .inr ⟨hhead', houtside⟩⟩]

/-! ## Stretches of a line -/

/-- A stretch of text counts as much as another one for quotes, and is free of semicolons outside
quotes where the other one is. -/
structure SameQuotes (cs cs' : List Char) : Prop where
  foldl : ∀ quoted, cs'.foldl toggle quoted = cs.foldl toggle quoted
  uncut : ∀ quoted, Uncut quoted cs → Uncut quoted cs'

/-- Texts without quotation marks and semicolons count alike. -/
theorem SameQuotes.of_plain (h : ∀ c ∈ cs, c ≠ '"' ∧ c ≠ ';') (h' : ∀ c ∈ cs', c ≠ '"' ∧ c ≠ ';') :
    SameQuotes cs cs' where
  foldl quoted := by
    rw [foldl_toggle_of_not_mem fun hmem => (h _ hmem).1 rfl,
      foldl_toggle_of_not_mem fun hmem => (h' _ hmem).1 rfl]
  uncut quoted _ := isFree_of_not_mem (fun hmem => (h' _ hmem).2 rfl) quoted

/-- An exchange inside a line does not move its comment. -/
theorem withoutComment_exchange {middle middle' : List Char} (h : SameQuotes middle middle')
    (hcode : withoutComment (front ++ (middle ++ back) ++ comment) = front ++ (middle ++ back)) :
    withoutComment (front ++ (middle' ++ back) ++ comment) = front ++ (middle' ++ back) := by
  obtain ⟨huncut, hcomment⟩ := withoutComment_append_eq_iff.mp hcode
  rw [uncut_append_iff, uncut_append_iff] at huncut
  obtain ⟨hfront, hmiddle, hback⟩ := huncut
  rw [List.foldl_append, List.foldl_append] at hcomment
  refine withoutComment_append_eq_iff.mpr ⟨?_, ?_⟩
  · rw [uncut_append_iff, uncut_append_iff, h.foldl]
    exact ⟨hfront, h.uncut _ hmiddle, hback⟩
  · rwa [List.foldl_append, List.foldl_append, h.foldl]

/-! ## The case of letters -/

/-- Two texts differ in the case of ASCII letters only. -/
def SameCase (cs cs' : List Char) : Prop :=
  cs'.map Char.toLower = cs.map Char.toLower

/-- A character that is folded is a letter, and so is what it is folded to. -/
theorem isLiteralChar_toLower {c : Char} (h : c.toLower ≠ c) : IsLiteralChar c.toLower := by
  unfold Char.toLower at h ⊢
  split
  · rename_i hupper
    have hle : 65 ≤ c.val.toNat := UInt32.le_iff_toNat_le.mp hupper.1
    have hge : c.val.toNat ≤ 90 := UInt32.le_iff_toNat_le.mp hupper.2
    refine .inr (.inr (.inr (.inr ?_)))
    change 97 ≤ (c.val + 32).toNat ∧ (c.val + 32).toNat ≤ 122
    rw [UInt32.toNat_add]
    change 97 ≤ (c.val.toNat + 32) % 2 ^ 32 ∧ (c.val.toNat + 32) % 2 ^ 32 ≤ 122
    omega
  · rename_i hupper
    rw [dif_neg hupper] at h
    exact absurd rfl h

/-- Characters that are folded to the same are the same, or both are letters. -/
theorem eq_or_isLiteralChar {c c' : Char} (h : c'.toLower = c.toLower) :
    c' = c ∨ IsLiteralChar c ∧ IsLiteralChar c' := by
  by_cases hc : c.toLower = c
  · by_cases hc' : c'.toLower = c'
    · exact .inl (hc'.symm.trans (h.trans hc))
    · have hletter := isLiteralChar_toLower hc'
      exact .inr ⟨isLiteralChar_of_toLower (h ▸ hletter), isLiteralChar_of_toLower hletter⟩
  · have hletter := isLiteralChar_toLower hc
    exact .inr ⟨isLiteralChar_of_toLower hletter, isLiteralChar_of_toLower (h ▸ hletter)⟩

namespace SameCase

/-- In such texts each character stands for itself or for a letter in another case. -/
theorem forall₂ (h : SameCase cs cs') :
    List.Forall₂ (fun c c' => c' = c ∨ IsLiteralChar c ∧ IsLiteralChar c') cs cs' := by
  unfold SameCase at h
  induction cs generalizing cs' with
  | nil =>
    obtain rfl := List.map_eq_nil_iff.mp h
    exact .nil
  | cons c cs ih =>
    obtain ⟨c', others, rfl, hc, hothers⟩ := List.map_eq_cons_iff.mp h
    exact .cons (eq_or_isLiteralChar hc) (ih hothers)

/-- A text in another case is not empty if the text is not. -/
theorem ne_nil (h : SameCase cs cs') (hne : cs ≠ []) : cs' ≠ [] := by
  rintro rfl
  exact hne (List.map_eq_nil_iff.mp h.symm)

/-- What holds of all letters, and of the characters of a text, holds of those of the other one. -/
theorem forall_mem (h : SameCase cs cs') {p : Char → Prop} (hletter : ∀ c, IsLiteralChar c → p c)
    (hcs : ∀ c ∈ cs, p c) : ∀ c ∈ cs', p c := by
  have hforall := h.forall₂
  clear h
  induction hforall with
  | nil => exact fun c hc => nomatch hc
  | cons hc _ ih =>
    rw [List.forall_mem_cons] at hcs ⊢
    refine ⟨?_, ih hcs.2⟩
    rcases hc with rfl | ⟨-, hc⟩
    · exact hcs.1
    · exact hletter _ hc

/-- Where the text has no separators, it has none in another case. -/
theorem not_isSeparator (h : SameCase cs cs') (hcs : ∀ c ∈ cs, isSeparator c = false) :
    ∀ c ∈ cs', isSeparator c = false :=
  h.forall_mem (fun _ hc => hc.plain.1) hcs

/-- Where the text has no blanks, it has none in another case. -/
theorem not_isBlank (h : SameCase cs cs') (hcs : ∀ c ∈ cs, isBlank c = false) :
    ∀ c ∈ cs', isBlank c = false :=
  h.forall_mem (fun _ hc => hc.not_isBlank) hcs

/-- The case of letters says nothing about quotes and comments. -/
theorem sameQuotes (h : SameCase cs cs') : SameQuotes cs cs' := by
  have hforall := h.forall₂
  clear h
  have htoggle {c c' : Char} (h : c' = c ∨ IsLiteralChar c ∧ IsLiteralChar c') (quoted : Bool) :
      toggle quoted c' = toggle quoted c := by
    rcases h with rfl | ⟨hc, hc'⟩
    · rfl
    · rw [toggle_of_ne hc.ne_quote, toggle_of_ne hc'.ne_quote]
  induction hforall with
  | nil => exact ⟨fun _ => rfl, fun _ h => h⟩
  | @cons c c' cs cs' hc _ ih =>
    refine ⟨fun quoted => ?_, fun quoted huncut => ?_⟩
    · rw [List.foldl_cons, List.foldl_cons, htoggle hc, ih.foldl]
    · unfold Uncut at huncut ⊢
      rw [marked_cons, List.forall_mem_cons] at huncut ⊢
      rw [htoggle hc]
      refine ⟨?_, ih.uncut _ huncut.2⟩
      rcases hc with rfl | ⟨-, hc'⟩
      · exact huncut.1
      · unfold isFree
        rw [beq_false_of_ne hc'.plain.2.1, Bool.false_and]

end SameCase

/-! ## The first word of a line -/

/-- Blanks before a word do not show, and neither do those behind what follows it. -/
theorem firstWord_trim_append (hgap : IsGap gap) (hne : word ≠ [])
    (hword : ∀ c ∈ word, isBlank c = false) (hrest : ∀ c, rest.head? = some c → isBlank c = true) :
    firstWord (trim (gap ++ (word ++ rest))) = (word, trim rest) := by
  obtain ⟨first, others, rfl⟩ := List.exists_cons_of_ne_nil hne
  rw [trim_append_left hgap, firstWord_trim, firstWord_append hword hrest]
  rintro _ ⟨⟩
  exact hword _ List.mem_cons_self

/-! ## Fields -/

/-- Any separators part the fields before them from those behind. -/
theorem fields_append_separators (hne : gap ≠ []) (hgap : ∀ c ∈ gap, isSeparator c = true)
    (front back : List Char) : fields (front ++ (gap ++ back)) = fields front ++ fields back := by
  obtain ⟨separator, others, rfl⟩ := List.exists_cons_of_ne_nil hne
  rw [List.forall_mem_cons] at hgap
  calc fields (front ++ (separator :: others ++ back))
      = fields front ++ fields (others ++ back) := fields_append_cons _ _ hgap.1
    _ = fields front ++ fields back := by rw [fields_append_of_gap hgap.2]

/-- A word between separators is a field. -/
theorem fields_append_word (hne : word ≠ []) (hword : ∀ c ∈ word, isSeparator c = false)
    (hfront : ∃ c, front.getLast? = some c ∧ isSeparator c = true)
    (hback : ∀ c, back.head? = some c → isSeparator c = true) :
    fields (front ++ (word ++ back)) = fields front ++ word :: fields back := by
  have hruns : Runs ([] ++ (word ++ back)) (word :: fields back) :=
    .cons (fun _ h => nomatch h) hne hword hback (runs_iff.mpr rfl)
  rw [fields_append_of_getLast? hfront]
  exact congrArg (fields front ++ ·) hruns.fields_eq

/-! ## Line ends -/

/-- Carriage returns have been put before some of the line feeds of a text. -/
inductive CarriageReturns : List Char → List Char → Prop where
  | nil : CarriageReturns [] []
  | keep (c : Char) {cs cs' : List Char} (h : CarriageReturns cs cs') :
      CarriageReturns (c :: cs) (c :: cs')
  | insert {cs cs' : List Char} (h : CarriageReturns cs cs') :
      CarriageReturns ('\n' :: cs) ('\r' :: '\n' :: cs')

/-- Every line feed may get a carriage return. -/
theorem carriageReturns_flatMap (cs : List Char) :
    CarriageReturns cs (cs.flatMap fun c => if c = '\n' then ['\r', '\n'] else [c]) := by
  induction cs with
  | nil => exact .nil
  | cons c cs ih =>
    rw [List.flatMap_cons]
    split
    · rename_i hfeed
      rw [hfeed]
      exact .insert ih
    · exact .keep c ih

/-- The line is as before, or has a carriage return at its end. -/
def ReturnsAtEnd (line line' : List Char) : Prop :=
  line' = line ∨ line' = line ++ ['\r']

/-- The pieces between line feeds may have a carriage return at their ends, all but the last one,
which no line feed follows. -/
theorem CarriageReturns.exists_splitOn (h : CarriageReturns cs cs') :
    ∃ front front' last, cs.splitOn '\n' = front ++ [last] ∧ cs'.splitOn '\n' = front' ++ [last] ∧
      List.Forall₂ ReturnsAtEnd front front' := by
  induction h with
  | nil => exact ⟨[], [], [], List.splitOn_nil _, List.splitOn_nil _, .nil⟩
  | @keep c cs cs' h ih =>
    obtain ⟨front, front', last, hcs, hcs', hfront⟩ := ih
    rw [List.splitOn_cons_eq_if_modifyHead, List.splitOn_cons_eq_if_modifyHead, hcs, hcs']
    split
    · -- A line feed opens an empty piece.
      exact ⟨[] :: front, [] :: front', last, rfl, rfl, .cons (.inl rfl) hfront⟩
    · -- Any other character belongs to the first piece, which may be the last one as well.
      cases hfront with
      | nil => exact ⟨[], [], c :: last, rfl, rfl, .nil⟩
      | @cons first first' front front' hfirst hfront =>
        refine ⟨(c :: first) :: front, (c :: first') :: front', last, rfl, rfl, .cons ?_ hfront⟩
        rcases hfirst with rfl | rfl
        · exact .inl rfl
        · exact .inr rfl
  | @insert cs cs' h ih =>
    obtain ⟨front, front', last, hcs, hcs', hfront⟩ := ih
    -- A return is inserted at the end of an empty piece, which the characters before it make
    -- longer.
    refine ⟨[] :: front, ['\r'] :: front', last, ?_, ?_, .cons (.inr rfl) hfront⟩
    · rw [List.splitOn_cons_eq_if_modifyHead, hcs, if_pos (beq_self_eq_true '\n')]
      rfl
    · rw [List.splitOn_cons_eq_if_modifyHead, List.splitOn_cons_eq_if_modifyHead, hcs',
        if_pos (beq_self_eq_true '\n'), if_neg (by decide)]
      rfl

/-- Carriage returns before line feeds stand at the ends of lines. -/
theorem CarriageReturns.forall₂_lines (h : CarriageReturns cs cs') :
    List.Forall₂ ReturnsAtEnd (lines cs) (lines cs') := by
  obtain ⟨front, front', last, hcs, hcs', hfront⟩ := h.exists_splitOn
  unfold lines
  dsimp only
  rw [hcs, hcs', List.getLast?_concat, List.getLast?_concat]
  split
  · rw [List.dropLast_concat, List.dropLast_concat]
    exact hfront
  · exact List.rel_append hfront (.cons (.inl rfl) .nil)

end RegisterMachine.Text
