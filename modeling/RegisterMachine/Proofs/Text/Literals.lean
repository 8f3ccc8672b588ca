import RegisterMachine.Proofs.Text.Words
import RegisterMachine.Text.Numeral

/-!
# Literals as words

In whatever base it is written, a literal has no characters but letters, digits and a sign. So it is
one word of a line (`isWord_of_integer?`), and it is not taken for a symbol, which starts with a
mark (`head?_ne_of_integer?`).
-/

namespace RegisterMachine.Text

/-- A letter, a digit or a sign. -/
def IsLiteralChar (c : Char) : Prop :=
  c = '-' ∨ c = '+' ∨ 48 ≤ c.toNat ∧ c.toNat ≤ 57 ∨ 65 ≤ c.toNat ∧ c.toNat ≤ 90 ∨
    97 ≤ c.toNat ∧ c.toNat ≤ 122

/-- A character is compared with the ranges of codes. -/
instance (c : Char) : Decidable (IsLiteralChar c) :=
  inferInstanceAs (Decidable (_ ∨ _))

/-- A character of a literal is none that separates words or marks anything else. -/
theorem IsLiteralChar.plain {c : Char} (h : IsLiteralChar c) :
    isSeparator c = false ∧ c ≠ ';' ∧ c ≠ '.' ∧ c ≠ '$' := by
  have hrange : c.toNat = 43 ∨ c.toNat = 45 ∨ 48 ≤ c.toNat ∧ c.toNat ≤ 57 ∨
      65 ≤ c.toNat ∧ c.toNat ≤ 90 ∨ 97 ≤ c.toNat ∧ c.toNat ≤ 122 := by
    rcases h with rfl | rfl | h
    · exact .inr (.inl rfl)
    · exact .inl rfl
    · exact .inr (.inr h)
  have hne {other : Char} (hother : other.toNat < 43 ∨ other.toNat = 44 ∨ other.toNat = 46 ∨
      57 < other.toNat ∧ other.toNat < 65) : c ≠ other := by
    rintro rfl
    omega
  have hblank : isBlank c = false := by
    unfold isBlank blankRanges
    simp
    omega
  refine ⟨?_, hne (by decide), hne (by decide), hne (by decide)⟩
  unfold isSeparator
  rw [hblank, beq_false_of_ne (hne (by decide))]
  rfl

/-- A quotation mark stands in no literal. -/
theorem IsLiteralChar.ne_quote {c : Char} (h : IsLiteralChar c) : c ≠ '"' := by
  rintro rfl
  exact absurd h (by decide)

/-- A blank stands in no literal. -/
theorem IsLiteralChar.not_isBlank {c : Char} (h : IsLiteralChar c) : isBlank c = false :=
  not_isBlank_of_isSeparator h.plain.1

/-- A letter is one in either case. -/
theorem isLiteralChar_of_toLower {c : Char} (h : IsLiteralChar c.toLower) : IsLiteralChar c := by
  unfold Char.toLower at h
  split at h
  · rename_i hupper
    exact .inr (.inr (.inr (.inl hupper)))
  · exact h

/-- A digit of any base. -/
theorem isLiteralChar_of_digitValue? {c : Char} {digit : Nat} (h : digitValue? c = some digit) :
    IsLiteralChar c := by
  unfold digitValue? at h
  split at h
  · rename_i hrange
    exact .inr (.inr (.inl hrange))
  · split at h
    · rename_i hrange
      exact .inr (.inr (.inr (.inr hrange)))
    · split at h
      · rename_i hrange
        exact .inr (.inr (.inr (.inl hrange)))
      · cases h

/-- What is read as digits after other digits has characters of literals only. -/
theorem isLiteralChar_of_foldlM {base value n : Nat} {digits : List Char}
    (h : digits.foldlM (appendDigit base) value = some n) : ∀ c ∈ digits, IsLiteralChar c := by
  induction digits generalizing value with
  | nil => exact fun c hc => nomatch hc
  | cons first digits ih =>
    rw [List.foldlM_cons] at h
    obtain ⟨value', hfirst, hrest⟩ := Option.bind_eq_some_iff.mp h
    have hdigit : ∃ digit, digitValue? first = some digit := by
      unfold appendDigit at hfirst
      split at hfirst
      · rename_i digit hdigit
        exact ⟨digit, hdigit⟩
      · cases hfirst
    obtain ⟨digit, hdigit⟩ := hdigit
    exact List.forall_mem_cons.mpr ⟨isLiteralChar_of_digitValue? hdigit, ih hrest⟩

/-- What is read as digits has characters of literals only. -/
theorem isLiteralChar_of_natural? {base n : Nat} {digits : List Char}
    (h : natural? base digits = some n) : ∀ c ∈ digits, IsLiteralChar c := by
  unfold natural? at h
  split at h
  · cases h
  · exact isLiteralChar_of_foldlM h

/-- The marks of the bases are a zero and a letter. -/
theorem isLiteralChar_of_baseAndDigits {literal : List Char} {n : Nat}
    (h : natural? (baseAndDigits literal).1 (baseAndDigits literal).2 = some n) :
    ∀ c ∈ literal, IsLiteralChar c := by
  have hdigits := isLiteralChar_of_natural? h
  have hzero : IsLiteralChar '0' := .inr (.inr (.inl (by decide)))
  unfold baseAndDigits at hdigits
  split at hdigits
  · exact List.forall_mem_cons.mpr ⟨hzero, List.forall_mem_cons.mpr
      ⟨.inr (.inr (.inr (.inr (by decide)))), hdigits⟩⟩
  · exact List.forall_mem_cons.mpr ⟨hzero, List.forall_mem_cons.mpr
      ⟨.inr (.inr (.inr (.inl (by decide)))), hdigits⟩⟩
  · exact List.forall_mem_cons.mpr ⟨hzero, hdigits⟩
  · exact hdigits

/-- What is read as a literal without a sign has characters of literals only. -/
theorem isLiteralChar_of_magnitude? {literal : List Char} {n : Nat}
    (h : magnitude? literal = some n) : ∀ c ∈ literal, IsLiteralChar c := by
  obtain ⟨hnatural, -⟩ := Option.filter_eq_some_iff.mp h
  exact isLiteralChar_of_baseAndDigits hnatural

variable {literal : List Char} {value : Int}

/-- What is read as a literal has characters of literals only. -/
theorem isLiteralChar_of_integer? (h : integer? literal = some value) :
    ∀ c ∈ literal, IsLiteralChar c := by
  unfold integer? at h
  split at h
  · obtain ⟨_, hmagnitude, -⟩ := Option.map_eq_some_iff.mp h
    obtain ⟨n, hmagnitude, -⟩ := Option.bind_eq_some_iff.mp hmagnitude
    exact List.forall_mem_cons.mpr ⟨.inl rfl, isLiteralChar_of_magnitude? hmagnitude⟩
  · obtain ⟨n, hmagnitude, -⟩ := Option.map_eq_some_iff.mp h
    exact List.forall_mem_cons.mpr ⟨.inr (.inl rfl), isLiteralChar_of_magnitude? hmagnitude⟩
  · obtain ⟨n, hmagnitude, -⟩ := Option.map_eq_some_iff.mp h
    exact isLiteralChar_of_magnitude? hmagnitude

/-- A literal is a word. -/
theorem isWord_of_integer? (h : integer? literal = some value) : IsWord literal := by
  refine ⟨?_, fun c hc => ?_⟩
  · rintro rfl
    cases h
  · obtain ⟨hseparator, hsemicolon, -⟩ := (isLiteralChar_of_integer? h c hc).plain
    exact ⟨hseparator, hsemicolon⟩

/-- What consists of letters, digits and signs starts with no mark of a symbol. -/
theorem head?_ne_of_isLiteralChar {word : List Char} (h : ∀ c ∈ word, IsLiteralChar c) :
    word.head? ≠ some '.' ∧ word.head? ≠ some '$' := by
  constructor
  · intro hhead
    exact (h _ (List.mem_of_head? hhead)).plain.2.2.1 rfl
  · intro hhead
    exact (h _ (List.mem_of_head? hhead)).plain.2.2.2 rfl

/-- A literal starts neither like a label nor like a directive. -/
theorem head?_ne_of_integer? (h : integer? literal = some value) :
    literal.head? ≠ some '.' ∧ literal.head? ≠ some '$' :=
  head?_ne_of_isLiteralChar (isLiteralChar_of_integer? h)

end RegisterMachine.Text
