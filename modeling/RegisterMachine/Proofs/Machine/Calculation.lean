import RegisterMachine.Proofs.Isa.Arithmetic
import RegisterMachine.Proofs.Machine.Endings
import RegisterMachine.Proofs.Machine.Fetching

/-!
# Calculating in registers

What an executed arithmetic instruction does, on any machine and whatever its registers are. The
instruction is a calculation on its destination (`Calculation`): an operation on it and a second
register, which may be the same one, or its complement. Both operands are read before the
destination is written, and what is written there is what the calculation denotes in exact
arithmetic (`Calculation.Denotes`). Nothing else changes but the instruction pointer, and as it is
moved last, a result that is meant for it is lost.

Only a division can fail, and it does so exactly when the divisor is zero (`Calculation.Fails`); the
machine is then as it was.
-/

namespace RegisterMachine

/-- What is calculated of the word in a destination. -/
inductive Calculation where
  /-- An operation on it and the word in a second register. -/
  | binary (op : Alu) (src : Register)
  /-- Its complement. -/
  | complement

namespace Calculation

/-- The instruction that puts a calculation into its destination. -/
def instruction (dst : Register) : Calculation → Instruction
  | binary op src => .alu op dst.id src.id
  | complement => .not dst.id

/-- A division by a register that holds zero. -/
def Fails (registers : Register → UInt32) : Calculation → Prop
  | binary op src => op = .div ∧ registers src = 0
  | complement => False

/-- A number is what a calculation makes of the words in the registers. -/
def Denotes (registers : Register → UInt32) (dst : Register) : Calculation → Nat → Prop
  | binary op src => op.Denotes (registers dst).toNat (registers src).toNat
  | complement => Inverts (registers dst).toNat

end Calculation

namespace Machine

variable {σ : Type} {machine : Machine σ} {calculation : Calculation} {dst : Register}
  {next : UInt32}

/-- A machine has put the result of a calculation into its destination and has gone on at an
address. Nothing else has changed. -/
structure Calculated (machine : Machine σ) (calculation : Calculation) (dst : Register)
    (next : UInt32) (final : Machine σ) : Prop where
  value : dst ≠ .ip → calculation.Denotes machine.register dst (final.register dst).toNat
  ip : final.register .ip = next
  others : ∀ r, r ≠ dst → r ≠ .ip → final.register r = machine.register r
  frame : final = { machine with registers := final.registers }

/-- A calculation is complete when its result and then the instruction pointer are set. -/
theorem calculated_setRegister {value : UInt32}
    (h : calculation.Denotes machine.register dst value.toNat) :
    Calculated machine calculation dst next
      ((machine.setRegister dst value).setRegister .ip next) := by
  refine ⟨fun hdst => ?_, register_setRegister_self .., fun r hr hip => ?_, rfl⟩
  · rw [register_setRegister, if_neg hdst, register_setRegister_self]
    exact h
  · rw [register_setRegister, if_neg hip, register_setRegister, if_neg hr]

/-- A step that divides by zero. -/
theorem step_run_of_fails (h : machine.Executes (calculation.instruction dst) next)
    (hfails : calculation.Fails machine.register) (programSize : UInt16) :
    (step programSize).run machine = .error .divisionByZero machine := by
  cases calculation with
  | binary op src =>
    have hnone : op.eval? (machine.register dst) (machine.register src) = none :=
      Alu.eval?_eq_none_iff.mpr hfails
    have hpermits : machine.permits programSize (.alu op dst.id src.id) =
        .error .divisionByZero := by
      change (if (op.eval? (machine.register dst) (machine.register src)).isSome then _ else _) = _
      rw [hnone]
      rfl
    rw [h.step_run (Register.forall_mem_map_id_lt [dst, src])]
    change machine.resume (machine.permits programSize (.alu op dst.id src.id)) _ = _
    rw [hpermits, resume_error]
  | complement => exact hfails.elim

/-- A step of any other calculation. -/
theorem exists_step_run_of_not_fails (h : machine.Executes (calculation.instruction dst) next)
    (hfails : ¬ calculation.Fails machine.register) (programSize : UInt16) :
    ∃ final, (step programSize).run machine = .ok .next final ∧
      Calculated machine calculation dst next final := by
  cases calculation with
  | binary op src =>
    -- It does not fail, so there is a result.
    obtain ⟨value, hvalue⟩ : ∃ value,
        op.eval? (machine.register dst) (machine.register src) = some value := by
      rw [← Option.ne_none_iff_exists']
      exact fun hnone => hfails (Alu.eval?_eq_none_iff.mp hnone)
    refine ⟨_, ?_, calculated_setRegister (Alu.denotes_of_eval? hvalue)⟩
    have hpermits : machine.permits programSize (.alu op dst.id src.id) = .ok () := by
      change (if (op.eval? (machine.register dst) (machine.register src)).isSome then _ else _) = _
      rw [hvalue]
      rfl
    have hchanged : machine.changed next (.alu op dst.id src.id) =
        machine.setRegister dst value := by
      change machine.setRegister dst
        ((op.eval? (machine.register dst) (machine.register src)).getD 0) = _
      rw [hvalue, Option.getD_some]
    rw [h.step_run (Register.forall_mem_map_id_lt [dst, src])]
    change machine.resume (machine.permits programSize (.alu op dst.id src.id)) (fun _ =>
      .ok _ ((machine.changed next (.alu op dst.id src.id)).setRegister .ip next)) = _
    rw [hpermits, resume_ok, hchanged]
    rfl
  | complement =>
    refine ⟨_, ?_, calculated_setRegister (Alu.inverts_complement (machine.register dst))⟩
    rw [h.step_run (Register.forall_mem_map_id_lt [dst])]
    rfl

/-- An executed arithmetic instruction is exact arithmetic on the words that its registers had, on
any machine and for every pair of registers. It fails just when it divides by zero, which leaves the
machine as it was. Otherwise its destination, unless that is the instruction pointer, holds what the
calculation denotes, and an arithmetic shift by 31 or more leaves 32 copies of the sign there.
Besides the destination and the instruction pointer everything is as before. -/
theorem arithmetic_is_exact (h : machine.Executes (calculation.instruction dst) next)
    (programSize : UInt16) :
    ((∃ fault stepped, (step programSize).run machine = .error fault stepped) ↔
        calculation.Fails machine.register) ∧
      (calculation.Fails machine.register →
        (step programSize).run machine = .error .divisionByZero machine) ∧
      (¬ calculation.Fails machine.register →
        ∃ final, (step programSize).run machine = .ok .next final ∧
          Calculated machine calculation dst next final ∧
          ∀ src, calculation = .binary .ishr src → dst ≠ .ip →
            31 ≤ (machine.register src).toNat →
            final.register dst = if (machine.register dst).toNat < 2 ^ 31 then 0 else 0xFFFFFFFF) := by
  have hcompletes (hfails : ¬ calculation.Fails machine.register) :=
    exists_step_run_of_not_fails h hfails programSize
  refine ⟨⟨fun ⟨fault, stepped, hstep⟩ => ?_, fun hfails => ?_⟩,
    fun hfails => step_run_of_fails h hfails programSize, fun hfails => ?_⟩
  · -- A step that does not fail completes.
    refine Classical.byContradiction fun hfails => ?_
    obtain ⟨final, hfinal, -⟩ := hcompletes hfails
    cases hstep.symm.trans hfinal
  · exact ⟨_, _, step_run_of_fails h hfails programSize⟩
  · obtain ⟨final, hfinal, hcalculated⟩ := hcompletes hfails
    refine ⟨final, hfinal, hcalculated, ?_⟩
    -- A shift by 31 or more leaves the sign alone.
    rintro src rfl hdst hshift
    have hvalue := (hcalculated.value hdst).saturates (UInt32.toNat_lt _) hshift
    apply UInt32.toNat_inj.mp
    rw [hvalue]
    split <;> rfl

/-- A machine at one instruction, with the words `2 ^ 31` and `2 ^ 32 - 1` in its first two
registers and zero in the third one. -/
def calculating (instruction : Array UInt8) (hsize : 0 + instruction.size ≤ addressSpace) :
    Machine Unit :=
  ((bare ⟨0, instruction, hsize⟩).setRegister .r0 0x80000000).setRegister .r1 0xFFFFFFFF

/-- A negative number is shifted by a count with its top bit set, a product overflows in a register
that is both of its operands, a word is inverted, and a division by zero is refused. -/
theorem arithmetic_is_exact_calculating :
    (∃ final, (step 0).run (calculating #[17, 0, 1] (by decide)) = .ok .next final ∧
      final.register .r0 = 0xFFFFFFFF) ∧
    (∃ final, (step 0).run (calculating #[13, 1, 1] (by decide)) = .ok .next final ∧
      (final.register .r1).toNat = 0xFFFFFFFF * 0xFFFFFFFF % 2 ^ 32) ∧
    (∃ final, (step 0).run (calculating #[21, 0] (by decide)) = .ok .next final ∧
      Inverts 0x80000000 (final.register .r0).toNat) ∧
    (step 0).run (calculating #[14, 0, 2] (by decide)) =
      .error .divisionByZero (calculating #[14, 0, 2] (by decide)) := by
  have hshift : (calculating #[17, 0, 1] (by decide)).Executes
      (Calculation.instruction .r0 (.binary .ishr .r1)) 3 := ⟨rfl, rfl⟩
  have hproduct : (calculating #[13, 1, 1] (by decide)).Executes
      (Calculation.instruction .r1 (.binary .mul .r1)) 3 := ⟨rfl, rfl⟩
  have hcomplement : (calculating #[21, 0] (by decide)).Executes
      (Calculation.instruction .r0 .complement) 2 := ⟨rfl, rfl⟩
  have hdivision : (calculating #[14, 0, 2] (by decide)).Executes
      (Calculation.instruction .r0 (.binary .div .r2)) 3 := ⟨rfl, rfl⟩
  obtain ⟨-, -, hshifted⟩ := arithmetic_is_exact hshift 0
  obtain ⟨shifted, hshifted, -, hsign⟩ := hshifted fun hfails => nomatch hfails.1
  obtain ⟨-, -, hmultiplied⟩ := arithmetic_is_exact hproduct 0
  obtain ⟨multiplied, hmultiplied, hvalue, -⟩ := hmultiplied fun hfails => nomatch hfails.1
  obtain ⟨-, -, hinverted⟩ := arithmetic_is_exact hcomplement 0
  obtain ⟨inverted, hinverted, hbits, -⟩ := hinverted id
  obtain ⟨-, hdivided, -⟩ := arithmetic_is_exact hdivision 0
  exact ⟨⟨shifted, hshifted, hsign .r1 rfl (by decide) (by decide)⟩,
    ⟨multiplied, hmultiplied, hvalue.value (by decide)⟩,
    ⟨inverted, hinverted, hbits.value (by decide)⟩, hdivided ⟨rfl, rfl⟩⟩

end Machine

end RegisterMachine
