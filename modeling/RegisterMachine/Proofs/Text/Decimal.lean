import RegisterMachine.Text.Numeral
import RegisterMachine.Text.Utf8

/-!
# Decimal numerals

The decimal numeral of a number is a word of digits, and as a literal it denotes the number, for the
numbers that a literal can denote (`integer?_decimal`). It is never taken for an octal or
hexadecimal literal, since only the numeral of zero starts with the digit zero.
-/

namespace RegisterMachine.Text

/-- The decimal numeral of a number. -/
def decimal (n : Nat) : List Char :=
  Nat.toDigits 10 n

/-- A decimal numeral has decimal digits only. -/
theorem isDigit_of_mem_decimal {n : Nat} {c : Char} (h : c ∈ decimal n) : c.isDigit = true :=
  Nat.isDigit_of_mem_toDigits (by decide) (by decide) h

/-- Every number has a digit. -/
theorem decimal_ne_nil (n : Nat) : decimal n ≠ [] :=
  Nat.toDigits_ne_nil

/-! ## The value of a numeral -/

/-- A digit is between the characters zero and nine. -/
theorem toNat_of_isDigit {c : Char} (h : c.isDigit = true) : 48 ≤ c.toNat ∧ c.toNat ≤ 57 := by
  unfold Char.isDigit at h
  rw [Bool.and_eq_true, decide_eq_true_eq, decide_eq_true_eq] at h
  exact h

/-- A decimal digit appends its distance to the character zero. -/
theorem appendDigit_of_isDigit {c : Char} (h : c.isDigit = true) (value : Nat) :
    appendDigit 10 value c = some (10 * value + (c.toNat - '0'.toNat)) := by
  have hrange := toNat_of_isDigit h
  have hdigit : c.toNat - '0'.toNat < 10 := by
    have hzero : '0'.toNat = 48 := rfl
    omega
  unfold appendDigit digitValue?
  rw [if_pos (show '0' ≤ c ∧ c ≤ '9' from hrange)]
  dsimp only
  rw [if_pos hdigit, Nat.mul_comm]

/-- Digits denote the number that the standard library reads them as. -/
theorem natural?_of_isDigit {digits : List Char} (hne : digits ≠ [])
    (h : ∀ c ∈ digits, c.isDigit = true) :
    natural? 10 digits = some (Nat.ofDigitChars 10 digits 0) := by
  have hfold (value : Nat) : digits.foldlM (appendDigit 10) value =
      some (Nat.ofDigitChars 10 digits value) := by
    clear hne
    induction digits generalizing value with
    | nil => rfl
    | cons c digits ih =>
      rw [List.forall_mem_cons] at h
      rw [List.foldlM_cons, appendDigit_of_isDigit h.1, Nat.ofDigitChars_cons]
      exact ih h.2 _
  obtain ⟨c, digits, rfl⟩ := List.exists_cons_of_ne_nil hne
  exact hfold 0

/-- Only the numeral of zero starts with the digit zero. -/
theorem head?_decimal_ne {n : Nat} (h : 0 < n) : (decimal n).head? ≠ some '0' := by
  induction n using Nat.strongRecOn with
  | ind n ih =>
    unfold decimal at ih ⊢
    by_cases hsmall : n < 10
    · rw [Nat.toDigits_of_lt_base hsmall, List.head?_cons, Ne, Option.some.injEq,
        Nat.digitChar_eq_zero]
      omega
    · -- The first digit is that of a tenth of the number.
      obtain ⟨c, digits, hdigits⟩ :=
        List.exists_cons_of_ne_nil (Nat.toDigits_ne_nil (n := n / 10) (b := 10))
      have hrest := ih (n / 10) (by omega) (by omega)
      rw [hdigits] at hrest
      rw [Nat.toDigits_of_base_le (by decide) (by omega), hdigits]
      exact hrest

/-- Only a literal that starts with a zero is read in another base than ten. -/
theorem baseAndDigits_of_head?_ne {digits : List Char} (h : digits.head? ≠ some '0') :
    baseAndDigits digits = (10, digits) := by
  unfold baseAndDigits
  split
  · exact absurd rfl h
  · exact absurd rfl h
  · exact absurd rfl h
  · rfl

/-- A numeral is read in base ten. -/
theorem baseAndDigits_decimal (n : Nat) : baseAndDigits (decimal n) = (10, decimal n) := by
  rcases Nat.eq_zero_or_pos n with rfl | hpos
  · rfl
  · exact baseAndDigits_of_head?_ne (head?_decimal_ne hpos)

/-- A numeral denotes its number, if any literal does. -/
theorem integer?_decimal {n : Nat} (h : n ≤ maxMagnitude) :
    integer? (decimal n) = some (n : Int) := by
  have hmagnitude : magnitude? (decimal n) = some n := by
    unfold magnitude?
    rw [baseAndDigits_decimal]
    dsimp only
    rw [natural?_of_isDigit (decimal_ne_nil n) fun _ => isDigit_of_mem_decimal, decimal,
      Nat.ofDigitChars_ten_toDigits]
    exact Option.filter_some_pos (decide_eq_true h)
  -- No digit is a sign.
  have hsign {c : Char} {digits : List Char} (hdigits : decimal n = c :: digits) :
      c.isDigit = true :=
    isDigit_of_mem_decimal (by rw [hdigits]; exact List.mem_cons_self)
  unfold integer?
  split
  · rename_i heq
    exact absurd (hsign heq) (by decide)
  · rename_i heq
    exact absurd (hsign heq) (by decide)
  · rw [hmagnitude]
    rfl

/-! ## The length of a numeral -/

/-- Digits take one byte each. -/
theorem utf8Length_of_isDigit {digits : List Char} (h : ∀ c ∈ digits, c.isDigit = true) :
    utf8Length digits = digits.length := by
  induction digits with
  | nil => rfl
  | cons c digits ih =>
    rw [List.forall_mem_cons] at h
    have hsize : c.utf8Size = 1 := by
      have hsmall : c.val ≤ 0x7F :=
        UInt32.le_iff_toNat_le.mpr (Nat.le_trans (toNat_of_isDigit h.1).2 (by decide))
      exact if_pos hsmall
    rw [utf8Length_cons, ih h.2, hsize, List.length_cons, Nat.add_comm]

/-- The numeral of a number with at most ten digits takes at most ten bytes. -/
theorem utf8Length_decimal_le {n : Nat} (h : n < 10000000000) : utf8Length (decimal n) ≤ 10 := by
  rw [utf8Length_of_isDigit fun _ => isDigit_of_mem_decimal]
  exact (Nat.length_toDigits_le_iff (by decide) (by decide)).mpr h

end RegisterMachine.Text
