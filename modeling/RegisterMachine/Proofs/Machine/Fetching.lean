import RegisterMachine.Proofs.Isa.LinearDecoding
import RegisterMachine.Proofs.Machine.Transition

/-!
# Fetching from an image

What a fetch finds when the bytes of ROM from the instruction pointer on are known. Where they start
with the encoding of an instruction, the fetch gives that instruction and the address after it,
whatever the policy (`fetched_of_encode`), and what is fetched is encoded there, if the bytes that
ROM does not have are taken for zero (`encode_of_fetched`). Where no encoding stands, a checked
machine refuses the fetch (`exists_fetched_eq_error`). So a checked machine splits ROM as linear
decoding does (`fetched_eq_ok_iff`).

ROM ends inside an address space of 16 bits and addresses are computed with 32, so no address that
is met here wraps around.
-/

namespace RegisterMachine

/-- The ids of registers are known. -/
theorem Register.forall_mem_map_id_lt (registers : List Register) :
    ∀ id ∈ registers.map Register.id, id.toNat < count := by
  intro id hid
  obtain ⟨register, -, rfl⟩ := List.mem_map.mp hid
  exact register.id_lt

namespace Machine

variable {σ : Type} {machine : Machine σ}

/-- A fetch by itself. -/
theorem fetch_run (machine : Machine σ) :
    Exec.fetch.run machine = machine.resume machine.fetched fun value => .ok value machine := by
  have h := fetch_bind_run machine pure
  rw [bind_pure] at h
  exact h

/-- A fetch that is not refused gives what the machine fetches, and leaves the machine as it is. -/
theorem fetch_eq_ok_iff {taken : Instruction × UInt32} {fetched : Machine σ} :
    Exec.fetch.run machine = .ok taken fetched ↔ machine.fetched = .ok taken ∧ fetched = machine := by
  rw [fetch_run]
  cases machine.fetched <;> simp [eq_comm]

/-- A fetch that is refused leaves the machine as it was. -/
theorem fetch_eq_error_iff {fault : Fault} {fetched : Machine σ} :
    Exec.fetch.run machine = .error fault fetched ↔
      machine.fetched = .error fault ∧ fetched = machine := by
  rw [fetch_run]
  cases machine.fetched <;> simp [eq_comm]

/-- A guard that holds is granted. -/
theorem guard_of_true {condition : Bool} (h : condition = true) (machine : Machine σ)
    (fault : Fault) : machine.guard condition fault = .ok () := by
  unfold guard
  rw [h, Bool.not_true, Bool.and_false]
  rfl

/-- A checked machine refuses a guard that does not hold. -/
theorem guard_of_checked (hpolicy : machine.policy = .checked) {condition : Bool}
    (h : condition = false) (fault : Fault) : machine.guard condition fault = .error fault := by
  unfold guard
  rw [hpolicy, h]
  rfl

/-- A guard that a checked machine grants holds. -/
theorem of_guard_eq_ok (hpolicy : machine.policy = .checked) {condition : Bool} {fault : Fault}
    (h : machine.guard condition fault = .ok ()) : condition = true := by
  cases condition with
  | true => rfl
  | false =>
    rw [guard_of_checked hpolicy rfl] at h
    cases h

/-- Ids that belong to registers are granted. -/
theorem knowsRegisters_of_forall_lt {ids : List UInt8} (machine : Machine σ)
    (h : ∀ id ∈ ids, id.toNat < Register.count) : machine.knowsRegisters ids = .ok () := by
  induction ids with
  | nil => rfl
  | cons id ids ih =>
    rw [List.forall_mem_cons] at h
    unfold knowsRegisters
    rw [guard_of_true (decide_eq_true h.1)]
    exact ih h.2

/-- An instruction that starts inside ROM ends before addresses run out. -/
theorem toNat_addressAfter (h : (machine.register .ip).toNat < machine.rom.size) (opcode : Opcode) :
    (machine.addressAfter opcode).toNat =
      (machine.register .ip).toNat + opcode.encodedLength := by
  have hsize := machine.rom.size_le
  have hoperands := opcode.operandBytes_le
  unfold addressSpace at hsize
  unfold Opcode.maxOperandBytes at hoperands
  unfold addressAfter Opcode.encodedLength
  rw [UInt32.toNat_add, UInt32.toNat_add, UInt32.toNat_ofNat', UInt32.toNat_one]
  omega

/-- The bytes of ROM are those of its list, with zeros behind them. -/
theorem romByte_eq (machine : Machine σ) (offset : Nat) :
    machine.romByte offset = (machine.rom.bytes.toList[offset]?).getD 0 := by
  unfold romByte Region.byte?
  rw [Array.getElem?_toList]

/-- Bytes of ROM read one after the other. -/
theorem map_romByte {start n : Nat} (h : start + n ≤ machine.rom.size) :
    ((List.range n).map fun i => machine.romByte (start + i)) =
      (machine.rom.bytes.toList.drop start).take n := by
  have hsize : machine.rom.size = machine.rom.bytes.toList.length := rfl
  apply List.ext_getElem?
  intro i
  rw [List.getElem?_map, List.getElem?_take, List.getElem?_drop]
  by_cases hi : i < n
  · rw [List.getElem?_range hi, Option.map_some, if_pos hi, romByte_eq,
      List.getElem?_eq_getElem (by omega), Option.getD_some]
  · rw [List.getElem?_eq_none (by rw [List.length_range]; omega), Option.map_none, if_neg hi]

/-- Where an instruction stands at the instruction pointer, a fetch finds it and the address after
it. -/
theorem fetched_of_encode {instruction : Instruction} {rest : List UInt8}
    (h : machine.rom.bytes.toList.drop (machine.register .ip).toNat = instruction.encode ++ rest) :
    ∃ next, machine.fetched = .ok (instruction, next) ∧
      next.toNat = (machine.register .ip).toNat + instruction.encode.length := by
  have hsize : machine.rom.size = machine.rom.bytes.toList.length := rfl
  have hlength := congrArg List.length h
  rw [List.length_drop, List.length_append, ← hsize, Instruction.length_encode,
    Opcode.encodedLength] at hlength
  -- The first byte is the opcode, and what follows it are the operands.
  have hoperands : machine.rom.bytes.toList.drop ((machine.register .ip).toNat + 1) =
      instruction.operandBytes ++ rest := by
    rw [← List.drop_drop, h]
    rfl
  have hnext := toNat_addressAfter (show (machine.register .ip).toNat < machine.rom.size by omega)
    instruction.opcode
  have hopcode : machine.romByte (machine.register .ip).toNat = instruction.opcode.byte := by
    rw [romByte_eq, ← Nat.add_zero (machine.register .ip).toNat, ← List.getElem?_drop, h]
    rfl
  have hinstruction : machine.instructionOf instruction.opcode = instruction := by
    unfold instructionOf
    rw [map_romByte (by omega), hoperands, ← Instruction.length_operandBytes, List.take_left,
      Instruction.decode_operandBytes]
  refine ⟨machine.addressAfter instruction.opcode, ?_, ?_⟩
  · unfold Opcode.encodedLength at hnext
    unfold fetched
    dsimp only
    rw [guard_of_true (decide_eq_true (by omega)), hopcode, Opcode.ofByte_byte]
    change machine.guard _ _ >>= _ = _
    rw [guard_of_true (decide_eq_true (by omega)), hinstruction]
    rfl
  · rw [hnext, Instruction.length_encode]

/-- A fetched instruction is the one at the instruction pointer, given its opcode. -/
theorem exists_opcode_of_fetched {instruction : Instruction} {next : UInt32}
    (h : machine.fetched = .ok (instruction, next)) :
    ∃ opcode, Opcode.ofByte (machine.romByte (machine.register .ip).toNat) = .ok opcode ∧
      instruction = machine.instructionOf opcode ∧ next = machine.addressAfter opcode := by
  unfold fetched at h
  dsimp only at h
  rcases hstart : machine.guard (decide ((machine.register .ip).toNat < machine.rom.size))
    (.invalidAddress (machine.register .ip)) with fault | granted
  · -- The opcode byte is not in ROM.
    rw [hstart] at h
    cases h
  · rcases hopcode : Opcode.ofByte (machine.romByte (machine.register .ip).toNat) with
      fault | opcode
    · -- It is no opcode.
      rw [hstart, hopcode] at h
      cases h
    · rw [hstart, hopcode] at h
      change machine.guard _ _ >>= _ = _ at h
      rcases hend : machine.guard (decide ((machine.addressAfter opcode).toNat ≤ machine.rom.size))
        (.invalidAddress (machine.addressAfter opcode - 1)) with fault | granted
      · -- The operands are not all in ROM.
        rw [hend] at h
        cases h
      · rw [hend] at h
        cases h
        exact ⟨opcode, rfl, rfl, rfl⟩

/-- Whatever the policy, the bytes of ROM from the instruction pointer on are those of the
instruction that is fetched, and the address after it is behind them. -/
theorem encode_of_fetched {instruction : Instruction} {next : UInt32}
    (h : machine.fetched = .ok (instruction, next)) :
    ((List.range instruction.encode.length).map fun i =>
        machine.romByte ((machine.register .ip).toNat + i)) = instruction.encode ∧
      next = machine.register .ip + UInt32.ofNat instruction.encode.length := by
  obtain ⟨opcode, hopcode, rfl, rfl⟩ := exists_opcode_of_fetched h
  have hbyte : machine.romByte (machine.register .ip).toNat = opcode.byte := by
    unfold Opcode.ofByte at hopcode
    split at hopcode
    · rename_i hsome
      cases hopcode
      exact (Opcode.ofByte?_eq_some_iff.mp hsome).symm
    · cases hopcode
  have hlength : (machine.instructionOf opcode).encode.length = opcode.operandBytes + 1 := by
    rw [Instruction.length_encode, instructionOf, Opcode.opcode_decode, Opcode.encodedLength,
      Nat.add_comm]
  have hoperands : (machine.instructionOf opcode).operandBytes =
      (List.range opcode.operandBytes).map fun i =>
        machine.romByte ((machine.register .ip).toNat + 1 + i) :=
    Opcode.operandBytes_decode (by rw [List.length_map, List.length_range])
  constructor
  · rw [hlength, List.range_succ_eq_map, List.map_cons, List.map_map, Instruction.encode,
      hoperands, Nat.add_zero, hbyte, instructionOf, Opcode.opcode_decode]
    congr 1
    apply List.map_congr_left
    intro i _
    rw [Function.comp_apply, Nat.succ_eq_add_one, Nat.add_assoc, Nat.add_comm 1]
  · rw [hlength, addressAfter, UInt32.add_assoc, Nat.add_comm, UInt32.ofNat_add]
    rfl

/-- A checked machine fetches nothing past the end of ROM. -/
theorem fetched_at_end (hpolicy : machine.policy = .checked)
    (h : machine.rom.size ≤ (machine.register .ip).toNat) :
    machine.fetched = .error (.invalidAddress (machine.register .ip)) := by
  unfold fetched
  dsimp only
  rw [guard_of_checked hpolicy (decide_eq_false (by omega))]
  rfl

/-- A checked machine refuses the fetch where no instruction stands with all its operands. -/
theorem exists_fetched_eq_error (hpolicy : machine.policy = .checked)
    (h : Instruction.decodeFirst
      (machine.rom.bytes.toList.drop (machine.register .ip).toNat) = none) :
    ∃ fault, machine.fetched = .error fault := by
  by_cases hip : (machine.register .ip).toNat < machine.rom.size
  · have hbytes : machine.rom.bytes.toList.drop (machine.register .ip).toNat =
        machine.romByte (machine.register .ip).toNat ::
          machine.rom.bytes.toList.drop ((machine.register .ip).toNat + 1) := by
      rw [List.drop_eq_getElem_cons hip, romByte_eq, List.getElem?_eq_getElem hip,
        Option.getD_some]
    rw [hbytes] at h
    unfold Instruction.decodeFirst at h
    dsimp only at h
    unfold fetched
    dsimp only
    rw [guard_of_true (decide_eq_true hip)]
    change ∃ fault, (Opcode.ofByte _ >>= _) = _
    unfold Opcode.ofByte
    rcases hopcode : Opcode.ofByte? (machine.romByte (machine.register .ip).toNat) with _ | opcode
    · exact ⟨_, rfl⟩
    · rw [hopcode] at h
      dsimp only at h
      -- The opcode is known, so it is the operands that are cut off.
      have hcut : ¬ (machine.addressAfter opcode).toNat ≤ machine.rom.size := by
        intro hnext
        rw [toNat_addressAfter hip] at hnext
        unfold Opcode.encodedLength Region.size at hnext
        rw [if_pos (by rw [List.length_drop, Array.length_toList]; omega)] at h
        cases h
      change ∃ fault, (machine.guard _ _ >>= _) = _
      rw [guard_of_checked hpolicy (decide_eq_false hcut)]
      exact ⟨_, rfl⟩
  · exact ⟨_, fetched_at_end hpolicy (Nat.le_of_not_lt hip)⟩

/-- What a checked machine fetches is what linear decoding finds at the instruction pointer. -/
theorem fetched_eq_ok_iff (hpolicy : machine.policy = .checked) {instruction : Instruction}
    {next : UInt32} :
    machine.fetched = .ok (instruction, next) ↔
      ∃ rest, Instruction.decodeFirst
          (machine.rom.bytes.toList.drop (machine.register .ip).toNat) = some (instruction, rest) ∧
        next.toNat = (machine.register .ip).toNat + instruction.encode.length := by
  constructor
  · intro h
    rcases hfirst : Instruction.decodeFirst
      (machine.rom.bytes.toList.drop (machine.register .ip).toNat) with _ | ⟨instruction', rest⟩
    · -- Where nothing is decoded nothing is fetched.
      obtain ⟨fault, hfault⟩ := exists_fetched_eq_error hpolicy hfirst
      rw [hfault] at h
      cases h
    · obtain ⟨next', hfetched, hnext⟩ :=
        fetched_of_encode (Instruction.decodeFirst_eq_some_iff.mp hfirst)
      rw [hfetched] at h
      cases h
      exact ⟨rest, rfl, hnext⟩
  · rintro ⟨rest, hfirst, hnext⟩
    obtain ⟨next', hfetched, hnext'⟩ :=
      fetched_of_encode (Instruction.decodeFirst_eq_some_iff.mp hfirst)
    rw [hfetched, UInt32.toNat_inj.mp (hnext.trans hnext'.symm)]

/-! ## Executing what has been fetched -/

/-- The next step executes an instruction, which it fetches together with the address after it. -/
structure Executes (machine : Machine σ) (instruction : Instruction) (next : UInt32) : Prop where
  skipPending : machine.skipPending = false
  fetch : Exec.fetch.run machine = .ok (instruction, next) machine

/-- A step of an instruction whose registers exist: its own conditions, and then its effect. -/
theorem Executes.step_run {instruction : Instruction} {next : UInt32}
    (h : machine.Executes instruction next)
    (hids : ∀ id ∈ instruction.registerIds, id.toNat < Register.count) (programSize : UInt16) :
    (step programSize).run machine =
      machine.resume (machine.permits programSize instruction) fun _ =>
        .ok (machine.flow instruction) (machine.executedTo next instruction) := by
  obtain ⟨hfetched, -⟩ := fetch_eq_ok_iff.mp h.fetch
  rw [Machine.step_run, verdict_of_fetched hfetched, h.skipPending, if_neg Bool.false_ne_true,
    knowsRegisters_of_forall_lt machine hids, resume_bind, resume_ok, resume_bind]
  simp only [signal, after, h.skipPending, Bool.false_eq_true, if_false, resume_pure]

end Machine

end RegisterMachine
