import Mathlib.Algebra.Ring.Int.Defs
import RegisterMachine.Assembly.Operands
import RegisterMachine.Proofs.Computations
import RegisterMachine.Proofs.Text.Literals

/-!
# What operands are accepted

What a word reads as where an operand of a given kind stands. It is stated by itself (`Reads`), with
the words that stand for symbols and the ranges of the integers, and so is what is refused and why
(`Refuses`). The assembler does just that (`ofName_of_reads`, `ofName_of_misreads`), and every word
that is short enough does one or the other (`reads_or_misreads`).
-/

namespace RegisterMachine

/-- A word is looked up as the register whose name it is, whatever the case of its ASCII letters. -/
theorem Register.ofName?_eq_some_iff {word : List Char} {register : Register} :
    ofName? word = some register ↔ word.map Char.toLower = register.name.toList := by
  constructor
  · intro h
    have hname : (register.name.toList == word.map Char.toLower) = true :=
      List.find?_some
        (p := fun register : Register => register.name.toList == word.map Char.toLower) h
    exact (beq_iff_eq.mp hname).symm
  · intro h
    have hlower : register.name.toList.map Char.toLower = register.name.toList := by
      cases register <;> decide
    rw [← ofName?_name register]
    unfold ofName?
    rw [h, hlower]

namespace Assembly

/-- The width of the integers that an operand takes. -/
def literalWidth? : OperandKind → Option Width
  | .register => none
  | .immediate8 => some .byte
  | .immediate32 => some .word
  | .address | .target => some .half

/-- An operand that may be a literal takes up the bytes of that literal. -/
theorem width_of_literalWidth? {kind : OperandKind} {width : Width}
    (h : literalWidth? kind = some width) : kind.width = width.bytes := by
  cases kind <;> cases h <;> rfl

/-- A word that stands for a symbol: with a mark where a constant of 32 bits may stand, and whatever
is no literal where a jump target may stand. -/
def StandsForSymbol : OperandKind → List Char → Prop
  | .immediate32, word => word.head? = some '.' ∨ word.head? = some '$'
  | .target, word => Text.integer? word = none
  | .register, _ | .immediate8, _ | .address, _ => False

/-- What a word reads as. A literal of `w` bits is an integer from `-2 ^ (w - 1)` to `2 ^ w - 1`. -/
inductive Reads : OperandKind → List Char → Operand → Prop where
  | register {word : List Char} {register : Register}
      (hname : word.map Char.toLower = register.name.toList) :
      Reads .register word (.bytes [register.id])
  | literal {kind : OperandKind} {width : Width} {word : List Char} {value : Int}
      (hwidth : literalWidth? kind = some width) (hvalue : Text.integer? word = some value)
      (hlow : -2 ^ (width.bits - 1) ≤ value) (hhigh : value ≤ 2 ^ width.bits - 1) :
      Reads kind word
        (.bytes (LittleEndian.toBytes width.bytes (value % 2 ^ width.bits).toNat))
  | symbol {kind : OperandKind} {width : Width} {word : List Char}
      (hwidth : literalWidth? kind = some width) (hsymbol : StandsForSymbol kind word) :
      Reads kind word (.symbol width)

/-- Why a word does not read, if it is not too long. -/
inductive Misreads : OperandKind → Name → Cause → Prop where
  | register {word : Name}
      (hname : ∀ register : Register, word.chars.map Char.toLower ≠ register.name.toList) :
      Misreads .register word (.badRegister word)
  | number {kind : OperandKind} {width : Width} {word : Name}
      (hwidth : literalWidth? kind = some width) (hsymbol : ¬ StandsForSymbol kind word.chars)
      (hvalue : Text.integer? word.chars = none) : Misreads kind word .invalidNumber
  | high {kind : OperandKind} {width : Width} {word : Name} {value : Int}
      (hwidth : literalWidth? kind = some width)
      (hvalue : Text.integer? word.chars = some value) (hhigh : 2 ^ width.bits - 1 < value) :
      Misreads kind word (.integerTooHigh value)
  | low {kind : OperandKind} {width : Width} {word : Name} {value : Int}
      (hwidth : literalWidth? kind = some width)
      (hvalue : Text.integer? word.chars = some value) (hlow : value < -2 ^ (width.bits - 1)) :
      Misreads kind word (.integerTooLow value)

/-- Why a word is refused. -/
inductive Refuses : OperandKind → List Char → Cause → Prop where
  | long {kind : OperandKind} {word : List Char} (hlong : Name.capacity < Text.utf8Length word) :
      Refuses kind word .nameTooLong
  | misread {kind : OperandKind} {word : Name} {cause : Cause} (h : Misreads kind word cause) :
      Refuses kind word.chars cause

section

variable {kind : OperandKind} {width : Width} {word : Name} {value : Int} {operand : Operand}
  {cause : Cause}

/-- The range of a field in powers of two. -/
theorem Width.range_eq (width : Width) :
    width.minimum = -2 ^ (width.bits - 1) ∧ width.maximum = 2 ^ width.bits - 1 ∧
      (width.modulus : Int) = 2 ^ width.bits := by
  cases width <;> decide

/-- A value above the range of a field is refused as such. -/
theorem Width.encodeLiteral_of_high {literal : List Char} (hvalue : Text.integer? literal = some value)
    (hhigh : 2 ^ width.bits - 1 < value) :
    width.encodeLiteral literal = .error (.integerTooHigh value) := by
  obtain ⟨-, hmaximum, -⟩ := width.range_eq
  unfold encodeLiteral encode
  rw [hvalue, hmaximum]
  dsimp only
  rw [if_pos hhigh]

/-- And so is one below the range. -/
theorem Width.encodeLiteral_of_low {literal : List Char} (hvalue : Text.integer? literal = some value)
    (hlow : value < -2 ^ (width.bits - 1)) :
    width.encodeLiteral literal = .error (.integerTooLow value) := by
  obtain ⟨hminimum, hmaximum, -⟩ := width.range_eq
  have hnotHigh : ¬ value > 2 ^ width.bits - 1 := by
    cases width <;> simp [bits, bytes] at hlow ⊢ <;> omega
  unfold encodeLiteral encode
  rw [hvalue, hminimum, hmaximum]
  dsimp only
  rw [if_neg hnotHigh, if_pos hlow]

/-- A literal does not stand for a symbol. -/
theorem not_standsForSymbol {literal : List Char} (hvalue : Text.integer? literal = some value) :
    ¬ StandsForSymbol kind literal := by
  obtain ⟨hdot, hdollar⟩ := Text.head?_ne_of_integer? hvalue
  cases kind with
  | immediate32 => exact not_or.mpr ⟨hdot, hdollar⟩
  | target =>
    intro hnone
    cases hvalue.symm.trans hnone
  | register | immediate8 | address => exact id

/-- A word that stands for a symbol is taken as one. -/
theorem ofName_of_symbol (hwidth : literalWidth? kind = some width)
    (h : StandsForSymbol kind word.chars) : Operand.ofName kind word = .ok (.symbol width) := by
  cases kind with
  | register | immediate8 | address => exact h.elim
  | immediate32 =>
    cases hwidth
    have hsymbol : isSymbol word.chars = true := by
      unfold isSymbol
      rw [Bool.or_eq_true, decide_eq_true_eq, decide_eq_true_eq]
      exact h
    unfold Operand.ofName
    dsimp only
    rw [if_pos hsymbol]
  | target =>
    cases hwidth
    have hnone : Text.integer? word.chars = none := h
    unfold Operand.ofName
    dsimp only
    rw [hnone]

/-- A word that stands for no symbol is read as a literal. -/
theorem ofName_of_literal (hwidth : literalWidth? kind = some width)
    (h : ¬ StandsForSymbol kind word.chars) :
    Operand.ofName kind word = Operand.bytes <$> width.encodeLiteral word.chars := by
  cases kind with
  | register => cases hwidth
  | immediate8 | address =>
    cases hwidth
    rfl
  | immediate32 =>
    cases hwidth
    have hsymbol : ¬ isSymbol word.chars = true := by
      unfold isSymbol
      rw [Bool.or_eq_true, decide_eq_true_eq, decide_eq_true_eq]
      exact h
    unfold Operand.ofName
    dsimp only
    rw [if_neg hsymbol]
  | target =>
    cases hwidth
    obtain ⟨value, hvalue⟩ := Option.ne_none_iff_exists'.mp h
    unfold Operand.ofName Width.encodeLiteral
    dsimp only
    rw [hvalue]

/-- A word is taken for the operand that it reads as. -/
theorem ofName_of_reads (h : Reads kind word.chars operand) :
    Operand.ofName kind word = .ok operand := by
  generalize hchars : word.chars = chars at h
  cases h with
  | register hname =>
    unfold Operand.ofName
    dsimp only
    rw [hchars, Register.ofName?_eq_some_iff.mpr hname]
  | @literal _ width _ value hwidth hvalue hlow hhigh =>
    obtain ⟨hminimum, hmaximum, hmodulus⟩ := width.range_eq
    rw [ofName_of_literal hwidth (hchars ▸ not_standsForSymbol hvalue), hchars]
    refine map_eq_ok_iff.mpr ⟨_, Width.encodeLiteral_eq_ok_iff.mpr ⟨value, hvalue,
      Width.encode_eq_ok_iff.mpr ⟨hminimum ▸ hlow, hmaximum ▸ hhigh, rfl⟩⟩, ?_⟩
    rw [hmodulus]
    rfl
  | symbol hwidth hsymbol => exact ofName_of_symbol hwidth (hchars ▸ hsymbol)

/-- A word that does not read is refused for its cause. -/
theorem ofName_of_misreads (h : Misreads kind word cause) :
    Operand.ofName kind word = .error cause := by
  cases h with
  | register hname =>
    have hnone : Register.ofName? word.chars = none := by
      rw [Option.eq_none_iff_forall_ne_some]
      exact fun register hregister => hname register (Register.ofName?_eq_some_iff.mp hregister)
    unfold Operand.ofName
    dsimp only
    rw [hnone]
  | number hwidth hsymbol hvalue =>
    rw [ofName_of_literal hwidth hsymbol]
    unfold Width.encodeLiteral
    rw [hvalue]
    rfl
  | high hwidth hvalue hhigh =>
    rw [ofName_of_literal hwidth (not_standsForSymbol hvalue),
      Width.encodeLiteral_of_high hvalue hhigh]
    rfl
  | low hwidth hvalue hlow =>
    rw [ofName_of_literal hwidth (not_standsForSymbol hvalue),
      Width.encodeLiteral_of_low hvalue hlow]
    rfl

/-- A word that is not too long reads as something, or there is a reason why not. -/
theorem reads_or_misreads (kind : OperandKind) (word : Name) :
    (∃ operand, Reads kind word.chars operand) ∨ ∃ cause, Misreads kind word cause := by
  cases hwidth : literalWidth? kind with
  | none =>
    cases kind with
    | register =>
      by_cases hname : ∃ register : Register, word.chars.map Char.toLower = register.name.toList
      · obtain ⟨register, hname⟩ := hname
        exact .inl ⟨_, .register hname⟩
      · exact .inr ⟨_, .register fun register hregister => hname ⟨register, hregister⟩⟩
    | immediate8 | immediate32 | address | target => cases hwidth
  | some width =>
    by_cases hsymbol : StandsForSymbol kind word.chars
    · exact .inl ⟨_, .symbol hwidth hsymbol⟩
    · cases hvalue : Text.integer? word.chars with
      | none => exact .inr ⟨_, .number hwidth hsymbol hvalue⟩
      | some value =>
        by_cases hhigh : 2 ^ width.bits - 1 < value
        · exact .inr ⟨_, .high hwidth hvalue hhigh⟩
        · by_cases hlow : value < -2 ^ (width.bits - 1)
          · exact .inr ⟨_, .low hwidth hvalue hlow⟩
          · exact .inl ⟨_, .literal hwidth hvalue (Int.not_lt.mp hlow) (Int.not_lt.mp hhigh)⟩

end

end Assembly

end RegisterMachine
