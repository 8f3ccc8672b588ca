import RegisterMachine.Proofs.Machine.Confinement
import RegisterMachine.Proofs.Machine.Lockstep

/-!
# Zeros after ROM

An unchecked machine takes the bytes that its ROM does not have for zero. So it does not tell its
ROM from one that goes on with zeros: every guard is granted, every byte is the same
(`romByte_onRom`), and nothing else of a step looks at ROM. From the same state, runs on the two
ROMs come to the same (`unchecked_rom_ends_in_zeros`).

What it makes of the zeros is stated beside it. An instruction that the end of ROM cuts off has
zeros for its missing operands, past the end every instruction is a `nop` (`fetched_past_end`), and
a jump goes where it says. Where the address after an instruction wraps around, the instruction is
such a `nop`, so that no address of an operand does (`toNat_operandAddress`).
-/

namespace RegisterMachine.Machine

variable {σ : Type} {machine : Machine σ} {rom : Region} {k : Nat} {programSize : UInt16}
  {instruction : Instruction} {next : UInt32}

/-- The machine with another ROM. -/
def onRom (rom : Region) (machine : Machine σ) : Machine σ :=
  { machine with rom }

/-! ## Steps without guards -/

/-- An unchecked machine grants every guard. -/
theorem guard_of_unchecked (hpolicy : machine.policy = .unchecked) (condition : Bool)
    (fault : Fault) : machine.guard condition fault = .ok () := by
  unfold guard
  rw [hpolicy]
  rfl

/-- An unchecked machine demands nothing of register ids. -/
theorem knowsRegisters_of_unchecked (hpolicy : machine.policy = .unchecked) (ids : List UInt8) :
    machine.knowsRegisters ids = .ok () := by
  induction ids with
  | nil => rfl
  | cons id ids ih =>
    unfold knowsRegisters
    rw [guard_of_unchecked hpolicy, ih]
    rfl

/-- A fetch of an unchecked machine fails for its opcode alone. -/
theorem fetched_of_unchecked (hpolicy : machine.policy = .unchecked) :
    machine.fetched =
      (Opcode.ofByte (machine.romByte (machine.register .ip).toNat)).map fun opcode =>
        (machine.instructionOf opcode, machine.addressAfter opcode) := by
  unfold fetched
  simp only [guard_of_unchecked hpolicy]
  cases Opcode.ofByte (machine.romByte (machine.register .ip).toNat) <;> rfl

/-- The byte past the end of ROM is the opcode of a `nop`. -/
theorem romByte_past_end {offset : Nat} (h : machine.rom.size ≤ offset) :
    machine.romByte offset = Opcode.nop.byte := by
  unfold romByte Region.byte?
  rw [Array.getElem?_eq_none h]
  rfl

/-- Past the end of ROM an unchecked machine fetches a `nop`. -/
theorem fetched_past_end (hpolicy : machine.policy = .unchecked)
    (h : machine.rom.size ≤ (machine.register .ip).toNat) :
    machine.fetched = .ok (.nop, machine.register .ip + 1) := by
  have hafter : machine.addressAfter .nop = machine.register .ip + 1 := UInt32.add_zero _
  rw [fetched_of_unchecked hpolicy, romByte_past_end h, Opcode.ofByte_byte]
  change Except.ok (_, machine.addressAfter .nop) = _
  rw [hafter]
  rfl

/-- A jump of an unchecked machine is permitted, and so is a `ret`, wherever it goes. -/
theorem verdict_of_jumps (hpolicy : machine.policy = .unchecked)
    (hskip : machine.skipPending = false) (hfetched : machine.fetched = .ok (instruction, next))
    (h : instruction.jumps = true ∨ instruction = .ret) :
    machine.verdict programSize = .ok (instruction, next) := by
  have hpermits : machine.permits programSize instruction = .ok () := by
    rcases h with hjumps | rfl
    · rw [permits_of_jumps hjumps next]
      exact guard_of_unchecked hpolicy _ _
    · rfl
  rw [verdict_of_fetched hfetched, hskip, if_neg Bool.false_ne_true,
    knowsRegisters_of_unchecked hpolicy, hpermits]
  rfl

/-- The addresses of the operands follow the instruction pointer without wrapping around, since an
instruction that has operands starts inside ROM. -/
theorem toNat_operandAddress {opcode : Opcode}
    (h : Opcode.ofByte (machine.romByte (machine.register .ip).toNat) = .ok opcode) {i : Nat}
    (hi : i < opcode.operandBytes) :
    (machine.register .ip + 1 + UInt32.ofNat i).toNat = (machine.register .ip).toNat + 1 + i := by
  have hip : (machine.register .ip).toNat < machine.rom.size := by
    refine Nat.lt_of_not_le fun hend => ?_
    -- Past the end stands a `nop`, which has none.
    rw [romByte_past_end hend, Opcode.ofByte_byte] at h
    cases h
    exact absurd hi (Nat.not_lt_zero i)
  have hsize := machine.rom.size_le
  have hoperands := opcode.operandBytes_le
  unfold addressSpace at hsize
  unfold Opcode.maxOperandBytes at hoperands
  rw [UInt32.toNat_add, UInt32.toNat_add, UInt32.toNat_ofNat', UInt32.toNat_one]
  omega

/-- The operand bytes that an unchecked machine fetches at a known opcode: as many as ROM has, and
zeros. -/
theorem fetched_of_drop (hpolicy : machine.policy = .unchecked) {opcode : Opcode}
    {bytes : List UInt8}
    (h : machine.rom.bytes.toList.drop (machine.register .ip).toNat = opcode.byte :: bytes) :
    machine.fetched = .ok (opcode.decode
      ((bytes ++ List.replicate opcode.operandBytes 0).take opcode.operandBytes),
      machine.addressAfter opcode) := by
  have hopcode : machine.romByte (machine.register .ip).toNat = opcode.byte := by
    rw [romByte_eq, ← Nat.add_zero (machine.register .ip).toNat, ← List.getElem?_drop, h]
    rfl
  have hoperands : ((List.range opcode.operandBytes).map fun i =>
      machine.romByte ((machine.register .ip).toNat + 1 + i)) =
        (bytes ++ List.replicate opcode.operandBytes 0).take opcode.operandBytes := by
    apply List.ext_getElem?
    intro i
    rw [List.getElem?_map, List.getElem?_take]
    by_cases hi : i < opcode.operandBytes
    · have hbyte : machine.rom.bytes.toList[(machine.register .ip).toNat + 1 + i]? = bytes[i]? := by
        rw [Nat.add_assoc, ← List.getElem?_drop, h, Nat.add_comm 1, List.getElem?_cons_succ]
      rw [List.getElem?_range hi, Option.map_some, if_pos hi, romByte_eq, hbyte,
        List.getElem?_append]
      split
      · -- The byte is in ROM.
        rename_i hin
        rw [List.getElem?_eq_getElem hin, Option.getD_some]
      · -- It is missing, and it is read as zero.
        rename_i hout
        rw [List.getElem?_eq_none (Nat.le_of_not_lt hout),
          List.getElem?_replicate_of_lt (by omega), Option.getD_none]
    · -- There are no operands any more.
      rw [List.getElem?_eq_none (by rw [List.length_range]; omega), Option.map_none, if_neg hi]
  rw [fetched_of_unchecked hpolicy, hopcode, Opcode.ofByte_byte]
  unfold instructionOf
  rw [← hoperands]
  rfl

/-! ## Steps on the longer ROM -/

/-- Zeros after ROM are what an unchecked machine takes the missing bytes for. -/
theorem romByte_onRom (hbytes : rom.bytes = machine.rom.bytes ++ Array.replicate k 0)
    (offset : Nat) : (machine.onRom rom).romByte offset = machine.romByte offset := by
  unfold romByte Region.byte? onRom
  dsimp only
  rw [hbytes, Array.getElem?_append]
  split
  · rfl
  · rename_i hend
    rw [Array.getElem?_eq_none (Nat.le_of_not_lt hend), Array.getElem?_replicate]
    split <;> rfl

/-- Zeros behind ROM are what an unchecked machine reads there anyway. -/
theorem fetched_onRom (hpolicy : machine.policy = .unchecked)
    (hbytes : rom.bytes = machine.rom.bytes ++ Array.replicate k 0) :
    (machine.onRom rom).fetched = machine.fetched := by
  have hpolicy' : (machine.onRom rom).policy = .unchecked := hpolicy
  rw [fetched_of_unchecked hpolicy, fetched_of_unchecked hpolicy']
  unfold instructionOf
  simp only [romByte_onRom hbytes]
  rfl

/-- Zeros behind ROM change no verdict of an unchecked machine. -/
theorem verdict_onRom (hpolicy : machine.policy = .unchecked)
    (hbytes : rom.bytes = machine.rom.bytes ++ Array.replicate k 0) :
    (machine.onRom rom).verdict programSize = machine.verdict programSize := by
  have hpolicy' : (machine.onRom rom).policy = .unchecked := hpolicy
  have hpermits (instruction : Instruction) :
      (machine.onRom rom).permits programSize instruction =
        machine.permits programSize instruction := by
    cases instruction with
    | call target | jmp target | jr src =>
      exact (guard_of_unchecked hpolicy' _ _).trans (guard_of_unchecked hpolicy _ _).symm
    | _ => rfl
  unfold verdict
  simp only [fetched_onRom hpolicy hbytes, hpermits, knowsRegisters_of_unchecked hpolicy,
    knowsRegisters_of_unchecked hpolicy']
  rfl

/-- What a step does to the machine does not depend on its ROM. -/
theorem after_onRom (machine : Machine σ) (rom : Region) (next : UInt32)
    (instruction : Instruction) :
    (machine.onRom rom).after next instruction = (machine.after next instruction).onRom rom := by
  change (machine.refitted machine.policy rom).after next instruction =
    (machine.after next instruction).refitted (machine.after next instruction).policy rom
  rw [after_refitted, policy_after]

/-- ROM does not tell whether a run goes on. -/
theorem signal_onRom (machine : Machine σ) (rom : Region) (instruction : Instruction) :
    (machine.onRom rom).signal instruction = machine.signal instruction :=
  signal_refitted machine machine.policy rom instruction

/-! ## Runs on the longer ROM -/

/-- A bounded run on the longer ROM is the run on the shorter one. -/
theorem runSteps_onRom (hpolicy : machine.policy = .unchecked)
    (hbytes : rom.bytes = machine.rom.bytes ++ Array.replicate k 0) (programSize : UInt16)
    (budget : Nat) :
    (runSteps programSize budget).run (machine.onRom rom) =
      mapEnding (·.onRom rom) ((runSteps programSize budget).run machine) := by
  induction budget generalizing machine with
  | zero => rfl
  | succ budget ih =>
    rw [runSteps_succ_run, runSteps_succ_run, verdict_onRom hpolicy hbytes]
    cases machine.verdict programSize with
    | error fault => rfl
    | ok taken =>
      obtain ⟨instruction, next⟩ := taken
      simp only [resume_ok, after_onRom, signal_onRom]
      cases machine.signal instruction with
      | halt => rfl
      | stop => rfl
      | next =>
        -- The machine that the step leaves is unchecked as well and has the same ROM.
        have hpolicy' : (machine.after next instruction).counted.policy = .unchecked :=
          (policy_after machine next instruction).trans hpolicy
        have hrom' : (machine.after next instruction).counted.rom = machine.rom :=
          rom_after machine next instruction
        rw [← hrom'] at hbytes
        exact ih hpolicy' hbytes

/-- A step past the end of ROM moves on by one byte, whether it is skipped or not. -/
theorem advances_past_end (hpolicy : machine.policy = .unchecked)
    (h : machine.rom.size ≤ (machine.register .ip).toNat) (programSize : UInt16) :
    Advances programSize machine (machine.skippedTo (machine.register .ip + 1)).counted := by
  refine ⟨_, step_eq_ok_iff.mpr ⟨.nop, machine.register .ip + 1, ?_, ?_, ?_⟩, rfl⟩
  · rw [verdict_of_fetched (fetched_past_end hpolicy h)]
    cases machine.skipPending with
    | true => rfl
    | false =>
      rw [if_neg Bool.false_ne_true, knowsRegisters_of_unchecked hpolicy]
      rfl
  · unfold signal
    split <;> rfl
  · unfold after
    split
    · rfl
    · rename_i hskip
      have hsame : { machine with skipPending := false } = machine := by
        rw [← Bool.eq_false_iff.mpr hskip]
      unfold skippedTo
      rw [hsame]
      rfl

/-- The machine that has executed a number of instructions of one byte which do nothing. -/
def idled (n : Nat) (machine : Machine σ) : Machine σ :=
  { machine.setRegister .ip (machine.register .ip + UInt32.ofNat n) with
    executed := machine.executed + UInt64.ofNat n }

/-- A skipped instruction leaves the instruction pointer behind it. -/
theorem register_ip_counted_skippedTo (machine : Machine σ) (next : UInt32) :
    (machine.skippedTo next).counted.register .ip = next :=
  register_setRegister_self _ _ _

/-- To idle is to idle once and then for the rest. -/
theorem idled_counted_skippedTo (hskip : machine.skipPending = false) (n : Nat) :
    (machine.skippedTo (machine.register .ip + 1)).counted.idled n = machine.idled (n + 1) := by
  have hip : machine.register .ip + 1 + UInt32.ofNat n =
      machine.register .ip + UInt32.ofNat (n + 1) := by
    rw [UInt32.add_assoc, UInt32.add_comm 1, UInt32.ofNat_add]
    rfl
  have hexecuted : machine.executed + 1 + UInt64.ofNat n =
      machine.executed + UInt64.ofNat (n + 1) := by
    rw [UInt64.add_assoc, UInt64.add_comm 1, UInt64.ofNat_add]
    rfl
  unfold idled
  rw [register_ip_counted_skippedTo, hip, ← hexecuted]
  unfold counted skippedTo setRegister
  simp only [Registers.set_set_self, hskip]

/-- While it is past the end of ROM an unchecked machine idles. -/
theorem reaches_past_end (hpolicy : machine.policy = .unchecked)
    (hskip : machine.skipPending = false) (programSize : UInt16) {n : Nat}
    (h : ∀ i < n, machine.rom.size ≤ (machine.register .ip + UInt32.ofNat i).toNat) :
    Reaches programSize n machine (machine.idled n) := by
  induction n generalizing machine with
  | zero =>
    have hidled : machine.idled 0 = machine := by
      have hip : machine.register .ip + UInt32.ofNat 0 = machine.register .ip := UInt32.add_zero _
      have hexecuted : machine.executed + UInt64.ofNat 0 = machine.executed := UInt64.add_zero _
      unfold idled setRegister
      rw [hip, hexecuted]
      unfold register
      rw [Registers.set_get_self]
    rw [hidled]
    exact .refl machine
  | succ n ih =>
    have hend := h 0 (Nat.succ_pos n)
    rw [show UInt32.ofNat 0 = 0 from rfl, UInt32.add_zero] at hend
    rw [← idled_counted_skippedTo hskip]
    refine .step (advances_past_end hpolicy hend programSize) (ih hpolicy rfl fun i hi => ?_)
    -- The addresses that are left are those after the first.
    have hnext := h (i + 1) (Nat.succ_lt_succ hi)
    rw [UInt32.ofNat_add, UInt32.add_comm (UInt32.ofNat i), ← UInt32.add_assoc] at hnext
    rw [register_ip_counted_skippedTo]
    exact hnext

/-- What an unchecked machine has in common with itself on a ROM that goes on with zeros, and what
it makes of the zeros on either. -/
structure TakesEndForZeros (rom : Region) (machine : Machine σ) : Prop where
  /-- A run comes to the same answer or fault, and to the same machine but for its ROM. -/
  run : ∀ fuel programSize budget,
    (run fuel programSize budget).run (machine.onRom rom) =
      mapEnding (·.onRom rom) ((run fuel programSize budget).run machine)
  /-- The run makes the same calls of the interrupt handler. -/
  recorded : ∀ fuel programSize budget,
    (Machine.run fuel programSize budget).run (machine.onRom rom).recording =
      mapEnding (·.onRom rom) ((Machine.run fuel programSize budget).run machine.recording)
  /-- So do a step and a fetch. -/
  step : ∀ programSize, (step programSize).run (machine.onRom rom) =
    mapEnding (·.onRom rom) ((step programSize).run machine)
  fetch : Exec.fetch.run (machine.onRom rom) =
    mapEnding (·.onRom rom) (Exec.fetch.run machine)
  /-- An instruction has zeros for the operand bytes that ROM does not have. -/
  cutOff : ∀ opcode bytes,
    machine.rom.bytes.toList.drop (machine.register .ip).toNat = Opcode.byte opcode :: bytes →
    Exec.fetch.run machine = .ok (opcode.decode
      ((bytes ++ List.replicate opcode.operandBytes 0).take opcode.operandBytes),
      machine.register .ip + 1 + UInt32.ofNat opcode.operandBytes) machine
  /-- The addresses of its operands do not wrap around. -/
  operands : ∀ opcode, Opcode.ofByte (machine.romByte (machine.register .ip).toNat) = .ok opcode →
    ∀ i < opcode.operandBytes, (machine.register .ip + 1 + UInt32.ofNat i).toNat =
      (machine.register .ip).toNat + 1 + i
  /-- Past the end of ROM a step moves on by one byte and ends a pending skip. The address may wrap
  around. -/
  pastEnd : machine.rom.size ≤ (machine.register .ip).toNat → ∀ programSize,
    Advances programSize machine (machine.skippedTo (machine.register .ip + 1)).counted
  /-- So do as many steps as there are bytes past the end. -/
  idles : machine.skipPending = false → ∀ programSize n,
    (∀ i < n, machine.rom.size ≤ (machine.register .ip + UInt32.ofNat i).toNat) →
    Reaches programSize n machine (machine.idled n)
  /-- A jump, a call and a return go where they say, past the end as well. -/
  jumps : ∀ programSize instruction next, machine.skipPending = false →
    Exec.fetch.run machine = .ok (instruction, next) machine →
    Instruction.jumps instruction = true ∨ instruction = .ret →
    ∃ landed, (Machine.step programSize).run machine = .ok .next landed ∧
      landed.register .ip = machine.destination next instruction

/-- An unchecked machine sees its ROM as followed by zeros. From any state, what it does on a ROM is
what it does on a ROM with the same bytes and any number of zeros after them. -/
theorem unchecked_rom_ends_in_zeros (hpolicy : machine.policy = .unchecked)
    (hbytes : rom.bytes = machine.rom.bytes ++ Array.replicate k 0) :
    TakesEndForZeros rom machine where
  run fuel programSize budget := run_run_eq_mapEnding (runSteps_onRom hpolicy hbytes _ _)
  recorded fuel programSize budget := by
    have hpolicy' : machine.recording.policy = .unchecked := hpolicy
    have hbytes' : rom.bytes = machine.recording.rom.bytes ++ Array.replicate k 0 := hbytes
    exact run_run_eq_mapEnding (runSteps_onRom hpolicy' hbytes' _ _)
  step programSize := by
    rw [step_run, step_run, verdict_onRom hpolicy hbytes]
    cases machine.verdict programSize with
    | error fault => rfl
    | ok taken =>
      simp only [resume_ok, after_onRom, signal_onRom]
      rfl
  fetch := by
    rw [fetch_run, fetch_run, fetched_onRom hpolicy hbytes]
    cases machine.fetched <;> rfl
  cutOff opcode bytes h := by
    rw [fetch_run, fetched_of_drop hpolicy h]
    rfl
  operands opcode h i hi := toNat_operandAddress h hi
  pastEnd h programSize := advances_past_end hpolicy h programSize
  idles hskip programSize n h := reaches_past_end hpolicy hskip programSize h
  jumps programSize instruction next hskip hfetch hjumps := by
    -- No guard keeps a jump from its target.
    obtain ⟨hfetched, -⟩ := fetch_eq_ok_iff.mp hfetch
    refine ⟨machine.after next instruction, step_eq_ok_iff.mpr ⟨instruction, next,
      verdict_of_jumps hpolicy hskip hfetched hjumps, ?_, rfl⟩, ?_⟩
    · unfold signal
      rw [hskip, if_neg Bool.false_ne_true]
      rcases hjumps with hjumps | rfl
      · cases instruction with
        | call target | jmp target | jr src => rfl
        | _ => cases hjumps
      · rfl
    · rw [register_ip_after, hskip, if_neg Bool.false_ne_true]

/-- An unchecked machine past the end of its ROM, at the last address of 32 bits, with a `lcons` in
ROM that lacks three bytes. -/
def wrapping : Machine Unit :=
  ((bare ⟨0, #[3, 5, 7], by decide⟩).under .unchecked).setRegister .ip 0xFFFFFFFF

/-- An unchecked machine at the last address wraps around to its three bytes of ROM, takes the
operand bytes that are missing for zeros and goes on behind them, as it does with the zeros in ROM.
-/
theorem unchecked_rom_ends_in_zeros_wrapping :
    ∃ final, (run 0 0 3).run wrapping = .ok (some .paused) final ∧
      final.register .r5 = 7 ∧ final.register .ip = 7 ∧ final.executed = 3 ∧
      let lengthened : Region := ⟨0, #[3, 5, 7, 0, 0, 0, 0, 0], by decide⟩
      (run 0 0 3).run (wrapping.onRom lengthened) =
        .ok (some .paused) (final.onRom lengthened) := by
  obtain ⟨final, hrun, hr5, hip, hexecuted⟩ : ∃ final,
      (run 0 0 3).run wrapping = .ok (some .paused) final ∧ final.register .r5 = 7 ∧
        final.register .ip = 7 ∧ final.executed = 3 := ⟨_, rfl, rfl, rfl, rfl⟩
  refine ⟨final, hrun, hr5, hip, hexecuted, ?_⟩
  intro lengthened
  have hbytes : lengthened.bytes = wrapping.rom.bytes ++ Array.replicate 5 0 := rfl
  have hsame := (unchecked_rom_ends_in_zeros rfl hbytes).run 0 0 3
  rw [hrun] at hsame
  exact hsame

end RegisterMachine.Machine
