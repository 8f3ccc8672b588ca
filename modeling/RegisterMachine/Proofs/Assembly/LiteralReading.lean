import RegisterMachine.Assembly.Directive
import RegisterMachine.Proofs.Text.Grammar

/-!
# What is accepted as a literal

Whatever the text, it is accepted as an integer exactly when it is a literal of the grammar with a
magnitude below `2 ^ 63`, and then as the integer that it denotes; all other text is refused as no
number wherever a number must stand (`texts_are_read_by_grammar`). The shapes that come close to a
literal (`Misshapen`) are none.
-/

namespace RegisterMachine

namespace Text

/-- A sign or nothing. -/
def IsSigning (front : List Char) : Prop :=
  front = [] ∨ ∃ sign, IsSign sign ∧ front = [sign]

/-- Texts that are like literals and are none. -/
inductive Misshapen : List Char → Prop where
  | empty : Misshapen []
  | signAlone {sign : Char} (hsign : IsSign sign) : Misshapen [sign]
  | signs {first second : Char} {rest : List Char} (hfirst : IsSign first)
      (hsecond : IsSign second) : Misshapen (first :: second :: rest)
  | prefixAlone {front : List Char} {mark : Char} (hfront : IsSigning front)
      (hmark : IsMark mark) : Misshapen (front ++ ['0', mark])
  | signAfterPrefix {front rest : List Char} {mark sign : Char} (hfront : IsSigning front)
      (hmark : IsMark mark) (hsign : IsSign sign) : Misshapen (front ++ '0' :: mark :: sign :: rest)
  | strayHexadecimal {front digits : List Char} {mark c : Char} (hfront : IsSigning front)
      (hmark : IsMark mark) (hmem : c ∈ digits) (hstray : ∀ value, ¬ IsDigit 16 c value) :
      Misshapen (front ++ '0' :: mark :: digits)
  | strayOctal {front digits : List Char} {c : Char} (hfront : IsSigning front)
      (hmark : ∀ mark, digits.head? = some mark → ¬ IsMark mark) (hmem : c ∈ digits)
      (hstray : ∀ value, ¬ IsDigit 8 c value) : Misshapen (front ++ '0' :: digits)
  | strayDecimal {front digits : List Char} {c : Char} (hfront : IsSigning front)
      (hzero : digits.head? ≠ some '0') (hsign : ∀ sign, digits.head? = some sign → ¬ IsSign sign)
      (hmem : c ∈ digits) (hstray : ∀ value, ¬ IsDigit 10 c value) : Misshapen (front ++ digits)
  /-- Only ASCII characters make literals. -/
  | foreign {text : List Char} {c : Char} (hmem : c ∈ text) (hcode : 128 ≤ c.toNat) :
      Misshapen text

variable {front body text digits : List Char} {mark : Char} {v : Int}

/-- Behind the sign of a literal is a literal without one. -/
theorem Literal.exists_unsigned (h : Literal (front ++ body) v) (hfront : IsSigning front)
    (hbody : ∀ c, body.head? = some c → ¬ IsSign c) : ∃ n, Unsigned body n := by
  rcases hfront with rfl | ⟨sign, rfl | rfl, rfl⟩
  · obtain ⟨n, hn, -⟩ := (literal_iff_of_not_isSign hbody).mp h
    exact ⟨n, hn⟩
  · obtain ⟨n, hn, -⟩ := literal_plus_iff.mp h
    exact ⟨n, hn⟩
  · obtain ⟨n, hn, -⟩ := literal_minus_iff.mp h
    exact ⟨n, hn⟩

/-- A text that starts with a zero starts with no sign. -/
theorem not_isSign_zero {rest : List Char} : ∀ c, ('0' :: rest).head? = some c → ¬ IsSign c := by
  rintro _ ⟨⟩ (h | h) <;> cases h

/-- Behind a mark are digits of base sixteen. -/
theorem Literal.exists_hexadecimal (h : Literal (front ++ '0' :: mark :: digits) v)
    (hfront : IsSigning front) (hmark : IsMark mark) : ∃ n, Denotes 16 digits n := by
  obtain ⟨n, hn⟩ := h.exists_unsigned hfront not_isSign_zero
  rw [unsigned_iff, baseAndDigits_of_isMark hmark] at hn
  exact ⟨n, hn⟩

/-- A misshapen text is no literal. -/
theorem Misshapen.not_literal (h : Misshapen text) : ¬ Literal text v := by
  intro hliteral
  cases h with
  | empty => exact hliteral.ne_nil rfl
  | @signAlone sign hsign =>
    have hnothing : ∀ c, ([] : List Char).head? = some c → ¬ IsSign c := by
      rintro _ ⟨⟩
    have hsigned : Literal ([sign] ++ []) v := hliteral
    obtain ⟨n, hn⟩ := hsigned.exists_unsigned (.inr ⟨sign, hsign, rfl⟩) hnothing
    exact hn.ne_nil rfl
  | @signs first second rest hfirst hsecond =>
    -- What is behind the first sign is no literal without a sign.
    rcases hfirst with rfl | rfl
    · obtain ⟨n, hn, -⟩ := literal_plus_iff.mp hliteral
      exact hn.not_isSign rfl hsecond
    · obtain ⟨n, hn, -⟩ := literal_minus_iff.mp hliteral
      exact hn.not_isSign rfl hsecond
  | prefixAlone hfront hmark =>
    obtain ⟨n, hn⟩ := hliteral.exists_hexadecimal hfront hmark
    exact hn.1 rfl
  | signAfterPrefix hfront hmark hsign =>
    obtain ⟨n, hn⟩ := hliteral.exists_hexadecimal hfront hmark
    obtain ⟨value, hdigit⟩ := hn.isDigit_of_mem List.mem_cons_self
    exact hdigit.not_isSign (by decide) hsign
  | strayHexadecimal hfront hmark hmem hstray =>
    obtain ⟨n, hn⟩ := hliteral.exists_hexadecimal hfront hmark
    obtain ⟨value, hdigit⟩ := hn.isDigit_of_mem hmem
    exact hstray value hdigit
  | strayOctal hfront hmark hmem hstray =>
    obtain ⟨n, hn⟩ := hliteral.exists_unsigned hfront not_isSign_zero
    obtain ⟨first, rest, rfl⟩ := List.exists_cons_of_ne_nil (List.ne_nil_of_mem hmem)
    rw [unsigned_iff, baseAndDigits_of_not_isMark (hmark first rfl)] at hn
    obtain ⟨value, hdigit⟩ := hn.isDigit_of_mem hmem
    exact hstray value hdigit
  | strayDecimal hfront hzero hsign hmem hstray =>
    obtain ⟨n, hn⟩ := hliteral.exists_unsigned hfront hsign
    rw [unsigned_iff, baseAndDigits_of_head?_ne hzero] at hn
    obtain ⟨value, hdigit⟩ := hn.isDigit_of_mem hmem
    exact hstray value hdigit
  | @foreign _ c hmem hcode =>
    have hletter := hliteral.isLiteralChar c hmem
    have hminus : '-'.toNat = 45 := rfl
    have hplus : '+'.toNat = 43 := rfl
    rcases hletter with rfl | rfl | hrange
    · omega
    · omega
    · omega

end Text

namespace Assembly

/-- How a text is read as an integer. -/
structure ReadByGrammar (text : List Char) : Prop where
  /-- It is accepted as what it denotes as a literal, if the magnitude of that is below `2 ^ 63`. -/
  accepted : ∀ v, Text.integer? text = some v ↔ Text.Literal text v ∧ v.natAbs ≤ 2 ^ 63 - 1
  /-- Otherwise it is refused as no number where a literal of any width must stand. -/
  refused : ∀ width : Width, width.encodeLiteral text = .error .invalidNumber ↔
    ∀ v, Text.Literal text v → 2 ^ 63 ≤ v.natAbs
  /-- And so it is where a number of elements must stand. -/
  refusedCount : elementCount text = .error .invalidNumber ↔
    ∀ v, Text.Literal text v → 2 ^ 63 ≤ v.natAbs
  /-- Negating the magnitude of what is accepted, as a signed word of 64 bits, does not wrap. -/
  unwrapped : ∀ v, Text.integer? text = some v →
    (Int64.ofNat v.natAbs).toInt = v.natAbs ∧ (-Int64.ofNat v.natAbs).toInt = -v.natAbs
  /-- What is misshapen is refused. -/
  shaped : Text.Misshapen text → Text.integer? text = none

variable {text : List Char}

/-- What is no number has no value, and nothing that has one is refused as no number. -/
theorem Width.encodeLiteral_eq_invalidNumber_iff {width : Width} :
    width.encodeLiteral text = .error .invalidNumber ↔ Text.integer? text = none := by
  unfold Width.encodeLiteral Width.encode
  split
  · rename_i value h
    rw [h]
    split
    · simp
    · split
      · simp
      · simp
  · rename_i h
    rw [h]
    simp

/-- A count of elements is an invalid number exactly if it does not read as an integer. -/
theorem elementCount_eq_invalidNumber_iff :
    elementCount text = .error .invalidNumber ↔ Text.integer? text = none := by
  unfold elementCount
  split
  · rename_i h
    rw [h]
    simp
  · rename_i count h
    rw [h]
    split
    · simp
    · split
      · simp
      · simp

/-- Every text is read by the grammar of literals. -/
theorem texts_are_read_by_grammar (text : List Char) : ReadByGrammar text := by
  have hnone : Text.integer? text = none ↔ ∀ v, Text.Literal text v → 2 ^ 63 ≤ v.natAbs :=
    Text.integer?_eq_none_iff
  refine ⟨fun v => Text.integer?_eq_some_iff, fun width => ?_, ?_, fun v h => ?_, fun h => ?_⟩
  · exact Width.encodeLiteral_eq_invalidNumber_iff.trans hnone
  · exact elementCount_eq_invalidNumber_iff.trans hnone
  · have hmagnitude : v.natAbs < 2 ^ 63 := Nat.lt_succ_of_le (Text.integer?_eq_some_iff.mp h).2
    exact ⟨Int64.toInt_ofNat_of_lt hmagnitude, Int64.toInt_neg_ofNat_of_le hmagnitude.le⟩
  · exact hnone.mpr fun v hliteral => absurd hliteral h.not_literal

end Assembly

end RegisterMachine
