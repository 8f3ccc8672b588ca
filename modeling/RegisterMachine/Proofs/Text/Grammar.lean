import Mathlib.Data.List.Forall2
import Mathlib.Data.Nat.Digits.Defs
import Mathlib.Tactic.IntervalCases
import Mathlib.Tactic.Ring
import RegisterMachine.Proofs.Text.Decimal
import RegisterMachine.Proofs.Text.Literals

/-!
# The grammar of literals

Which texts are integer literals, and what they denote, told without the way they are read. The
digits are those of a table, in either case (`IsDigit`), and a run of digits denotes the number that
`Nat.ofDigits` gives it (`Denotes`). An unsigned literal is hexadecimal after `0x` or `0X`, octal
after a zero that is not all of it, and otherwise decimal (`Unsigned`); a literal has at most one
sign before it (`Literal`). There is no bound on what it denotes.

A literal is read as what it denotes when its magnitude is below `2 ^ 63`, and no other text is read
(`integer?_eq_some_iff`). Every number has a decimal and a hexadecimal numeral (`literal_decimal`,
`literal_hexadecimal`).
-/

namespace RegisterMachine.Text

/-- The digits with letters in lower case, in the order of their values. -/
def lowerDigits : List Char := "0123456789abcdef".toList

/-- The digits with letters in upper case. -/
def upperDigits : List Char := "0123456789ABCDEF".toList

/-- A character is the digit with a value in a base. -/
def IsDigit (base : Nat) (c : Char) (value : Nat) : Prop :=
  value < base ∧ (lowerDigits[value]? = some c ∨ upperDigits[value]? = some c)

/-- A digit is looked up in the tables. -/
instance (base : Nat) (c : Char) (value : Nat) : Decidable (IsDigit base c value) :=
  inferInstanceAs (Decidable (_ ∧ _))

/-- A nonempty run of digits, the first one the most significant, denotes a number in a base. -/
def Denotes (base : Nat) (digits : List Char) (n : Nat) : Prop :=
  digits ≠ [] ∧
    ∃ values, List.Forall₂ (IsDigit base) digits values ∧ n = Nat.ofDigits base values.reverse

/-- The letters after a zero that mark a hexadecimal literal. -/
def IsMark (c : Char) : Prop :=
  c = 'x' ∨ c = 'X'

/-- The literals without a sign, and what they denote. -/
inductive Unsigned : List Char → Nat → Prop where
  | hexadecimal {mark : Char} {digits : List Char} {n : Nat} (hmark : IsMark mark)
      (h : Denotes 16 digits n) : Unsigned ('0' :: mark :: digits) n
  | octal {digits : List Char} {n : Nat} (h : Denotes 8 digits n) : Unsigned ('0' :: digits) n
  | digit {c : Char} {n : Nat} (h : IsDigit 10 c n) : Unsigned [c] n
  | decimal {digits : List Char} {n : Nat} (hfirst : digits.head? ≠ some '0')
      (h : Denotes 10 digits n) : Unsigned digits n

/-- The literals, and what they denote. -/
inductive Literal : List Char → Int → Prop where
  | unsigned {body : List Char} {n : Nat} (h : Unsigned body n) : Literal body n
  | plus {body : List Char} {n : Nat} (h : Unsigned body n) : Literal ('+' :: body) n
  | minus {body : List Char} {n : Nat} (h : Unsigned body n) : Literal ('-' :: body) (-n)

/-! ## Digits -/

variable {base n value : Nat} {c mark : Char} {digits body text : List Char}

/-- The codes of the digits with a value. -/
theorem toNat_of_digitValue? (h : digitValue? c = some value) :
    c.toNat = 48 + value ∧ value < 10 ∨ c.toNat = 87 + value ∧ 10 ≤ value ∨
      c.toNat = 55 + value ∧ 10 ≤ value := by
  unfold digitValue? at h
  split at h
  · rename_i hrange
    have hrange : 48 ≤ c.toNat ∧ c.toNat ≤ 57 := hrange
    have hvalue : c.toNat - 48 = value := Option.some.inj h
    omega
  · split at h
    · rename_i hrange
      have hrange : 97 ≤ c.toNat ∧ c.toNat ≤ 122 := hrange
      have hvalue : c.toNat - 97 + 10 = value := Option.some.inj h
      omega
    · split at h
      · rename_i hrange
        have hrange : 65 ≤ c.toNat ∧ c.toNat ≤ 90 := hrange
        have hvalue : c.toNat - 65 + 10 = value := Option.some.inj h
        omega
      · cases h

/-- A character is the one with its code. -/
theorem eq_ofNat_of_toNat (h : c.toNat = n) : c = Char.ofNat n := by
  rw [← h, Char.ofNat_toNat]

/-- Up to base sixteen, the digits of the table are read with their values, and no others are. -/
theorem isDigit_iff (hbase : base ≤ 16) :
    IsDigit base c value ↔ digitValue? c = some value ∧ value < base := by
  unfold IsDigit
  rw [and_comm, and_congr_left_iff]
  intro hvalue
  have hsmall : value < 16 := Nat.lt_of_lt_of_le hvalue hbase
  clear hvalue
  constructor
  · -- There are sixteen values, each with its two characters.
    rintro (h | h)
    · interval_cases value <;> (cases h; decide)
    · interval_cases value <;> (cases h; decide)
  · intro h
    -- A character that has a value is a digit, a small letter or a capital.
    rcases toNat_of_digitValue? h with ⟨hcode, hvalue⟩ | ⟨hcode, hvalue⟩ | ⟨hcode, hvalue⟩
    · left
      obtain rfl := eq_ofNat_of_toNat hcode
      clear h hcode hsmall
      interval_cases value <;> decide
    · left
      obtain rfl := eq_ofNat_of_toNat hcode
      clear h hcode
      interval_cases value <;> decide
    · right
      obtain rfl := eq_ofNat_of_toNat hcode
      clear h hcode
      interval_cases value <;> decide

/-! ## Runs of digits -/

/-- A digit that is read is put behind those before it. -/
theorem appendDigit_eq_some_iff {acc : Nat} (hbase : base ≤ 16) :
    appendDigit base acc c = some n ↔
      ∃ value, IsDigit base c value ∧ n = acc * base + value := by
  simp only [isDigit_iff hbase]
  unfold appendDigit
  rcases hdigit : digitValue? c with _ | digit
  · simp
  · simp only [Option.ite_none_right_eq_some, Option.some.injEq]
    constructor
    · rintro ⟨hlt, rfl⟩
      exact ⟨digit, ⟨rfl, hlt⟩, rfl⟩
    · rintro ⟨_, ⟨rfl, hlt⟩, rfl⟩
      exact ⟨hlt, rfl⟩

/-- Digits are read from the left, and what has been read before counts for each of them. -/
theorem foldlM_appendDigit_eq_some_iff {acc : Nat} (hbase : base ≤ 16) :
    digits.foldlM (appendDigit base) acc = some n ↔
      ∃ values, List.Forall₂ (IsDigit base) digits values ∧
        n = acc * base ^ values.length + Nat.ofDigits base values.reverse := by
  -- Each digit moves what has been read so far by one place.
  induction digits generalizing acc with
  | nil => simp [List.forall₂_nil_left_iff, eq_comm]
  | cons c digits ih =>
    have hvalue (value : Nat) (values : List Nat) :
        (acc * base + value) * base ^ values.length + Nat.ofDigits base values.reverse =
          acc * base ^ (value :: values).length + Nat.ofDigits base (value :: values).reverse := by
      rw [List.reverse_cons, Nat.ofDigits_append, Nat.ofDigits_singleton, List.length_reverse,
        List.length_cons]
      ring
    rw [List.foldlM_cons]
    constructor
    · intro h
      obtain ⟨next, hfirst, hrest⟩ := Option.bind_eq_some_iff.mp h
      obtain ⟨value, hdigit, rfl⟩ := (appendDigit_eq_some_iff hbase).mp hfirst
      obtain ⟨values, hdigits, rfl⟩ := ih.mp hrest
      exact ⟨value :: values, .cons hdigit hdigits, hvalue value values⟩
    · rintro ⟨_, hdigits, rfl⟩
      rcases hdigits with _ | ⟨hdigit, hdigits⟩
      rename_i value values
      refine Option.bind_eq_some_iff.mpr ⟨acc * base + value,
        (appendDigit_eq_some_iff hbase).mpr ⟨value, hdigit, rfl⟩, ih.mpr ⟨values, hdigits, ?_⟩⟩
      exact (hvalue value values).symm

/-- A run of digits is read as the number it denotes. -/
theorem natural?_eq_some_iff (hbase : base ≤ 16) :
    natural? base digits = some n ↔ Denotes base digits n := by
  unfold Denotes
  rcases digits with _ | ⟨c, digits⟩
  · simp [natural?]
  · have hfold : (c :: digits).foldlM (appendDigit base) 0 = some n ↔ _ :=
      foldlM_appendDigit_eq_some_iff hbase
    simp only [Nat.zero_mul, Nat.zero_add] at hfold
    simp only [ne_eq, reduceCtorEq, not_false_eq_true, true_and]
    exact hfold

/-- What denotes a number consists of digits. -/
theorem Denotes.isDigit_of_mem (h : Denotes base digits n) (hc : c ∈ digits) :
    ∃ value, IsDigit base c value := by
  obtain ⟨-, values, hdigits, -⟩ := h
  induction hdigits with
  | nil => cases hc
  | cons hdigit _ ih =>
    rcases List.mem_cons.mp hc with rfl | hc
    · exact ⟨_, hdigit⟩
    · exact ih hc

/-! ## Literals without a sign -/

/-- A zero with something else than a mark after it is read in base eight. -/
theorem baseAndDigits_of_not_isMark (h : ¬ IsMark c) :
    baseAndDigits ('0' :: c :: digits) = (8, c :: digits) := by
  unfold baseAndDigits
  split
  · rename_i heq
    cases heq
    exact absurd (.inl rfl) h
  · rename_i heq
    cases heq
    exact absurd (.inr rfl) h
  · rename_i heq
    cases heq
    rfl
  · rename_i heq
    exact absurd rfl (heq c digits)

/-- A zero and a mark are followed by hexadecimal digits. -/
theorem baseAndDigits_of_isMark (h : IsMark mark) :
    baseAndDigits ('0' :: mark :: digits) = (16, digits) := by
  rcases h with rfl | rfl <;> rfl

/-- A mark is no octal digit. -/
theorem not_isMark_of_denotes (h : Denotes 8 (c :: digits) n) : ¬ IsMark c := by
  obtain ⟨value, hdigit⟩ := h.isDigit_of_mem List.mem_cons_self
  obtain ⟨hvalue, hlt⟩ := (isDigit_iff (by decide)).mp hdigit
  rintro (rfl | rfl)
  · cases hvalue
    omega
  · cases hvalue
    omega

/-- A single digit denotes its value. -/
theorem denotes_singleton_iff : Denotes base [c] n ↔ IsDigit base c n := by
  unfold Denotes
  simp [List.forall₂_cons_left_iff, List.forall₂_nil_left_iff]

/-- What the base and the digits of a text denote is what it denotes as a literal without a sign. -/
theorem unsigned_iff :
    Unsigned body n ↔ Denotes (baseAndDigits body).1 (baseAndDigits body).2 n := by
  constructor
  · rintro (⟨hmark, h⟩ | h | h | ⟨hfirst, h⟩)
    · rwa [baseAndDigits_of_isMark hmark]
    · rename_i digits
      obtain ⟨c, digits, rfl⟩ := List.exists_cons_of_ne_nil h.1
      rwa [baseAndDigits_of_not_isMark (not_isMark_of_denotes h)]
    · rename_i c
      have hbase : baseAndDigits [c] = (10, [c]) := by
        unfold baseAndDigits
        split <;> simp_all
      rw [hbase]
      exact denotes_singleton_iff.mpr h
    · rwa [baseAndDigits_of_head?_ne hfirst]
  · intro h
    -- The mark after a zero tells the base, and a zero by itself is read in base 10.
    by_cases hfirst : body.head? = some '0'
    · rcases body with _ | ⟨zero, _ | ⟨c, digits⟩⟩
      · cases hfirst
      · cases hfirst
        exact .digit (denotes_singleton_iff.mp h)
      · cases hfirst
        by_cases hmark : IsMark c
        · rw [baseAndDigits_of_isMark hmark] at h
          exact .hexadecimal hmark h
        · rw [baseAndDigits_of_not_isMark hmark] at h
          exact .octal h
    · rw [baseAndDigits_of_head?_ne hfirst] at h
      exact .decimal hfirst h

/-- No literal is read in a base above 16. -/
theorem base_baseAndDigits_le (body : List Char) : (baseAndDigits body).1 ≤ 16 := by
  unfold baseAndDigits
  split <;> simp

/-- A literal without a sign is read up to a magnitude. -/
theorem magnitude?_eq_some_iff :
    magnitude? body = some n ↔ Unsigned body n ∧ n ≤ maxMagnitude := by
  unfold magnitude?
  dsimp only
  rw [Option.filter_eq_some_iff, natural?_eq_some_iff (base_baseAndDigits_le body),
    decide_eq_true_eq, unsigned_iff]

/-- Without a sign too a literal has no other characters than signs, letters and decimal digits. -/
theorem Unsigned.isLiteralChar (h : Unsigned body n) : ∀ c ∈ body, IsLiteralChar c :=
  isLiteralChar_of_baseAndDigits
    ((natural?_eq_some_iff (base_baseAndDigits_le body)).mpr (unsigned_iff.mp h))

/-- A literal without a sign has a digit. -/
theorem Unsigned.ne_nil (h : Unsigned body n) : body ≠ [] := by
  rcases h with h | h | h | ⟨-, h⟩
  · exact List.cons_ne_nil _ _
  · exact List.cons_ne_nil _ _
  · exact List.cons_ne_nil _ _
  · exact h.1

/-- What a literal denotes is unique. -/
theorem Unsigned.unique {m : Nat} (h : Unsigned body n) (h' : Unsigned body m) : m = n := by
  rw [unsigned_iff, ← natural?_eq_some_iff (base_baseAndDigits_le body)] at h h'
  exact Option.some.inj (h'.symm.trans h)

/-- The characters that may stand before a literal without a sign. -/
def IsSign (c : Char) : Prop :=
  c = '+' ∨ c = '-'

/-- A sign is no digit. -/
theorem IsDigit.not_isSign (hbase : base ≤ 16) (h : IsDigit base c value) : ¬ IsSign c := by
  have hcode := toNat_of_digitValue? ((isDigit_iff hbase).mp h).1
  rintro (rfl | rfl)
  · have hplus : '+'.toNat = 43 := rfl
    omega
  · have hminus : '-'.toNat = 45 := rfl
    omega

/-- A literal without a sign starts with none. -/
theorem Unsigned.not_isSign (h : Unsigned body n) (hc : body.head? = some c) : ¬ IsSign c := by
  have hzero : ¬ IsSign '0' := by
    rintro (h | h) <;> cases h
  obtain ⟨rest, rfl⟩ := List.head?_eq_some_iff.mp hc
  rcases h with ⟨-, -⟩ | - | h | ⟨-, h⟩
  · exact hzero
  · exact hzero
  · exact h.not_isSign (by decide)
  · obtain ⟨value, hdigit⟩ := h.isDigit_of_mem List.mem_cons_self
    exact hdigit.not_isSign (by decide)

/-! ## Literals with a sign -/

variable {v : Int}

/-- Behind a minus stands a literal without a sign, and it is negated. -/
theorem literal_minus_iff : Literal ('-' :: body) v ↔ ∃ n, Unsigned body n ∧ v = -n := by
  constructor
  · rintro (h | h | h)
    · exact absurd (.inr rfl) (h.not_isSign rfl)
    · exact ⟨_, h, rfl⟩
  · rintro ⟨n, h, rfl⟩
    exact .minus h

/-- Behind a plus stands a literal without a sign, and it counts as it is. -/
theorem literal_plus_iff : Literal ('+' :: body) v ↔ ∃ n, Unsigned body n ∧ v = n := by
  constructor
  · rintro (h | h | h)
    · exact absurd (.inl rfl) (h.not_isSign rfl)
    · exact ⟨_, h, rfl⟩
  · rintro ⟨n, h, rfl⟩
    exact .plus h

/-- A text that starts with no sign is a literal if it is one without a sign. -/
theorem literal_iff_of_not_isSign (hfirst : ∀ c, body.head? = some c → ¬ IsSign c) :
    Literal body v ↔ ∃ n, Unsigned body n ∧ v = n := by
  constructor
  · rintro (h | h | h)
    · exact ⟨_, h, rfl⟩
    · exact absurd (.inl rfl) (hfirst _ rfl)
    · exact absurd (.inr rfl) (hfirst _ rfl)
  · rintro ⟨n, h, rfl⟩
    exact .unsigned h

/-- A magnitude is read as what the literal after the sign denotes, if that is small enough. -/
theorem exists_magnitude?_iff {f : Nat → Int} (hf : ∀ n, (f n).natAbs = n) :
    (∃ n, magnitude? body = some n ∧ f n = v) ↔
      (∃ n, Unsigned body n ∧ v = f n) ∧ v.natAbs ≤ maxMagnitude := by
  simp only [magnitude?_eq_some_iff]
  constructor
  · rintro ⟨n, ⟨h, hmagnitude⟩, rfl⟩
    exact ⟨⟨n, h, rfl⟩, by rwa [hf]⟩
  · rintro ⟨⟨n, h, rfl⟩, hmagnitude⟩
    rw [hf] at hmagnitude
    exact ⟨n, ⟨h, hmagnitude⟩, rfl⟩

/-- A text is read as an integer exactly when it denotes that integer as a literal, and the
magnitude is below `2 ^ 63`. -/
theorem integer?_eq_some_iff :
    integer? text = some v ↔ Literal text v ∧ v.natAbs ≤ maxMagnitude := by
  have hplain (body : List Char) : (magnitude? body).map Int.ofNat = some v ↔
      (∃ n : Nat, Unsigned body n ∧ v = n) ∧ v.natAbs ≤ maxMagnitude := by
    rw [Option.map_eq_some_iff]
    exact exists_magnitude?_iff Int.natAbs_natCast
  have hnegated (body : List Char) : integer? ('-' :: body) = some v ↔
      (∃ n : Nat, Unsigned body n ∧ v = -n) ∧ v.natAbs ≤ maxMagnitude := by
    have hread : integer? ('-' :: body) =
        Option.map (fun n : Nat => -(n : Int)) (magnitude? body) := by
      change Option.map (fun m : Int => -m) (magnitude? body >>= fun n => pure (n : Int)) = _
      cases magnitude? body <;> rfl
    rw [hread, Option.map_eq_some_iff]
    exact exists_magnitude?_iff fun n => by rw [Int.natAbs_neg, Int.natAbs_natCast]
  -- A sign is taken off, and otherwise all of the text is a magnitude.
  rcases text with _ | ⟨c, body⟩
  · rw [literal_iff_of_not_isSign (by rintro _ ⟨⟩)]
    exact hplain []
  · by_cases hsign : IsSign c
    · rcases hsign with rfl | rfl
      · rw [literal_plus_iff]
        exact hplain body
      · rw [literal_minus_iff]
        exact hnegated body
    · have hfirst : ∀ d, (c :: body).head? = some d → ¬ IsSign d := by
        rintro _ ⟨⟩
        exact hsign
      rw [literal_iff_of_not_isSign hfirst, ← hplain]
      unfold integer?
      split
      · rename_i heq
        cases heq
        exact absurd (.inr rfl) hsign
      · rename_i heq
        cases heq
        exact absurd (.inl rfl) hsign
      · rfl

/-- A literal denotes one number. -/
theorem Literal.unique {w : Int} (h : Literal text v) (h' : Literal text w) : w = v := by
  cases h with
  | unsigned h =>
    obtain ⟨m, hm, rfl⟩ := (literal_iff_of_not_isSign fun c => h.not_isSign).mp h'
    rw [h.unique hm]
  | plus h =>
    obtain ⟨m, hm, rfl⟩ := literal_plus_iff.mp h'
    rw [h.unique hm]
  | minus h =>
    obtain ⟨m, hm, rfl⟩ := literal_minus_iff.mp h'
    rw [h.unique hm]

/-- A text is not read exactly when it is no literal, or one of too large a magnitude. -/
theorem integer?_eq_none_iff :
    integer? text = none ↔ ∀ v, Literal text v → maxMagnitude < v.natAbs := by
  rw [Option.eq_none_iff_forall_ne_some]
  refine forall_congr' fun v => ?_
  rw [ne_eq, integer?_eq_some_iff, not_and, Nat.not_le]

/-- A literal that is too large is not read. -/
theorem Literal.integer?_eq_none (h : Literal text v) (hlarge : maxMagnitude < v.natAbs) :
    integer? text = none :=
  integer?_eq_none_iff.mpr fun w hw => by rwa [h.unique hw]

/-- Whatever its magnitude, a literal has no characters but letters, digits and a sign. -/
theorem Literal.isLiteralChar (h : Literal text v) : ∀ c ∈ text, IsLiteralChar c := by
  cases h with
  | unsigned h => exact h.isLiteralChar
  | plus h => exact List.forall_mem_cons.mpr ⟨.inr (.inl rfl), h.isLiteralChar⟩
  | minus h => exact List.forall_mem_cons.mpr ⟨.inl rfl, h.isLiteralChar⟩

/-- A literal is not empty. -/
theorem Literal.ne_nil (h : Literal text v) : text ≠ [] := by
  cases h with
  | unsigned h => exact h.ne_nil
  | plus | minus => exact List.cons_ne_nil _ _

/-! ## Numerals -/

/-- The hexadecimal numeral of a number, after its mark. -/
def hexadecimal (n : Nat) : List Char :=
  '0' :: 'x' :: Nat.toDigits 16 n

/-- The character of a number below 16 is the digit with that value. -/
theorem isDigit_digitChar (h : n < 16) : IsDigit 16 n.digitChar n := by
  interval_cases n <;> decide

/-- One more digit is appended to the number of those before it. -/
theorem natural?_concat (h : natural? base digits = some n) :
    natural? base (digits ++ [c]) = appendDigit base n c := by
  unfold natural? at h ⊢
  rcases digits with _ | ⟨first, digits⟩
  · cases h
  · dsimp only [List.cons_append] at h ⊢
    rw [← List.cons_append, List.foldlM_append, h]
    simp

/-- The digits of a number denote it. -/
theorem natural?_toDigits (n : Nat) : natural? 16 (Nat.toDigits 16 n) = some n := by
  induction n using Nat.strongRecOn with
  | ind n ih =>
    by_cases hsmall : n < 16
    · rw [Nat.toDigits_of_lt_base hsmall, natural?_eq_some_iff (Nat.le_refl 16),
        denotes_singleton_iff]
      exact isDigit_digitChar hsmall
    · have hlast : IsDigit 16 (n % 16).digitChar (n % 16) :=
        isDigit_digitChar (Nat.mod_lt n (by decide))
      rw [Nat.toDigits_of_base_le (by decide) (by omega),
        natural?_concat (ih (n / 16) (by omega)), appendDigit_eq_some_iff (Nat.le_refl 16)]
      exact ⟨n % 16, hlast, (Nat.div_add_mod' n 16).symm⟩

/-- The decimal numeral of a number is a literal for it, if it is not too large to be read. -/
theorem literal_decimal (h : n ≤ maxMagnitude) : Literal (decimal n) n :=
  (integer?_eq_some_iff.mp (integer?_decimal h)).1

/-- The hexadecimal numeral of a number is a literal for it. -/
theorem literal_hexadecimal (n : Nat) : Literal (hexadecimal n) n :=
  .unsigned (.hexadecimal (.inl rfl) ((natural?_eq_some_iff (by decide)).mp (natural?_toDigits n)))

/-- Letters, digits and signs take one byte each. -/
theorem utf8Length_of_isLiteralChar {cs : List Char} (h : ∀ c ∈ cs, IsLiteralChar c) :
    utf8Length cs = cs.length := by
  induction cs with
  | nil => rfl
  | cons c cs ih =>
    rw [List.forall_mem_cons] at h
    have hcode : c.toNat ≤ 0x7F := by
      rcases h.1 with rfl | rfl | hrange
      · decide
      · decide
      · omega
    rw [utf8Length_cons, ih h.2, Char.utf8Size_eq_one_iff.mpr (UInt32.le_iff_toNat_le.mpr hcode),
      List.length_cons, Nat.add_comm]

/-- The hexadecimal numeral of a 16-bit number has at most six characters. -/
theorem utf8Length_hexadecimal_le (h : n < 0x10000) : utf8Length (hexadecimal n) ≤ 6 := by
  have hdigits : (Nat.toDigits 16 n).length ≤ 4 :=
    (Nat.length_toDigits_le_iff (by decide) (by decide)).mpr h
  rw [utf8Length_of_isLiteralChar (literal_hexadecimal n).isLiteralChar]
  unfold hexadecimal
  rw [List.length_cons, List.length_cons]
  omega

end RegisterMachine.Text
