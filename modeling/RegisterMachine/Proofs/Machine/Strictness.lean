import RegisterMachine.Machine.Host
import RegisterMachine.Proofs.Machine.Fetching
import RegisterMachine.Proofs.Memory.Words

/-!
# Fallbacks are not taken

The machine reads zero where there is no byte, no word and no register, drops what is written there,
and lets sums wrap around. `Strict` is the machine without any of that: where a byte, a word, a
register or an operand is missing, or where the address after an instruction or after a pop does not
fit into a word, a strict computation fails for that reason alone (`Failure.lapse`). For the rest it
is the machine, guard by guard, and fails with the faults of the machine (`Failure.fault`).

A checked machine never needs a fallback: whatever its registers, its memory and its handler, a
strict step, run, push or pop comes to just what the plain one comes to
(`Machine.checked_never_lapses`).

The proof follows the two computations side by side (`Agrees`). A guard that a checked machine has
passed holds for what comes after it (`agrees_require_bind`), and each access needs no more than the
guards before it have said.
-/

namespace RegisterMachine

/-! ## The strict machine -/

/-- Why a strict computation fails. -/
inductive Failure where
  /-- With a fault of the machine. -/
  | fault (fault : Fault)
  /-- Because the machine would go on with a fallback. -/
  | lapse
  deriving DecidableEq, Repr

/-- Computations on a machine that fail where the machine would take a fallback. -/
abbrev Strict (σ : Type) : Type → Type := EStateM Failure (Machine σ)

/-- The result of an operation, with shifts as products and quotients of unbounded numbers. So the
zero that a shift of 32 or more leaves is a result like any other, and no fallback. -/
def Alu.evalUnbounded? : Alu → UInt32 → UInt32 → Option UInt32
  | shl, x, y => some (UInt32.ofNat (x.toNat <<< y.toNat))
  | shr, x, y => some (UInt32.ofNat (x.toNat >>> y.toNat))
  | op, x, y => op.eval? x y

/-- The instruction with a given opcode and operand bytes, if none of the bytes is missing. -/
def Opcode.decode? (opcode : Opcode) (bytes : List UInt8) : Option Instruction :=
  let byte (i : Nat) : Option UInt8 := bytes[i]?
  let half (i : Nat) : Option UInt16 := do
    return UInt16.ofNat (LittleEndian.ofBytes [← byte i, ← byte (i + 1)])
  let word (i : Nat) : Option UInt32 := do
    return UInt32.ofNat
      (LittleEndian.ofBytes [← byte i, ← byte (i + 1), ← byte (i + 2), ← byte (i + 3)])
  match opcode with
  | .nop => return .nop
  | .halt => return .halt
  | .syscall => return .syscall (← byte 0)
  | .lcons => return .lcons (← byte 0) (← word 1)
  | .mov => return .mov (← byte 0) (← byte 1)
  | .push => return .push (← byte 0)
  | .pop => return .pop (← byte 0)
  | .call => return .call (← half 0)
  | .ret => return .ret
  | .store => return .store (← half 0) (← byte 2)
  | .load => return .load (← byte 0) (← half 1)
  | .add => return .alu .add (← byte 0) (← byte 1)
  | .sub => return .alu .sub (← byte 0) (← byte 1)
  | .mul => return .alu .mul (← byte 0) (← byte 1)
  | .div => return .alu .div (← byte 0) (← byte 1)
  | .shl => return .alu .shl (← byte 0) (← byte 1)
  | .shr => return .alu .shr (← byte 0) (← byte 1)
  | .ishr => return .alu .ishr (← byte 0) (← byte 1)
  | .and => return .alu .and (← byte 0) (← byte 1)
  | .or => return .alu .or (← byte 0) (← byte 1)
  | .xor => return .alu .xor (← byte 0) (← byte 1)
  | .not => return .not (← byte 0)
  | .jmp => return .jmp (← half 0)
  | .jr => return .jr (← byte 0)
  | .skipz => return .skipz (← byte 0)
  | .skipnz => return .skipnz (← byte 0)

namespace Strict

variable {σ α : Type}

/-- A computation of the machine as a strict one: it fails with the same faults. -/
def ofExec (computation : Exec σ α) : Strict σ α :=
  computation.adaptExcept .fault

/-- A guard of the machine. -/
def require (condition : Bool) (fault : Fault) : Strict σ Unit :=
  ofExec (Exec.require condition fault)

/-- What must be there. -/
def orLapse (value? : Option α) : Strict σ α :=
  match value? with
  | some value => return value
  | none => throw .lapse

/-- The byte of ROM at an offset, which must be there. -/
def romByte (offset : Nat) : Strict σ UInt8 := do
  orLapse ((← get).rom.byte? offset)

/-- Reads a word of RAM, all of which must be there. -/
def readWord (offset : UInt32) : Strict σ UInt32 := do
  orLapse ((← get).ram.word? offset.toNat)

/-- Writes a word of RAM, all of which must be there. -/
def writeWord (offset value : UInt32) : Strict σ Unit := do
  let ram ← orLapse ((← get).ram.writeWord? offset.toNat value)
  modify fun machine => { machine with ram }

/-- Reads the register with an id, which must exist. -/
def readId (id : UInt8) : Strict σ UInt32 := do
  orLapse (← get).registers.values[id.toNat]?

/-- Puts a word into the register with an id, which must exist. -/
def writeId (id : UInt8) (value : UInt32) : Strict σ Unit := do
  let _ ← readId id
  modify fun machine => { machine with registers := machine.registers.write id value }

/-- The sum of two words, which must be a word. -/
def add (a b : UInt32) : Strict σ UInt32 :=
  orLapse (if a.toNat + b.toNat < UInt32.size then some (a + b) else none)

/-- Reads a register. -/
def getRegister (register : Register) : Strict σ UInt32 :=
  readId register.id

/-- Puts a word into a register. -/
def setRegister (register : Register) (value : UInt32) : Strict σ Unit :=
  writeId register.id value

/-- The instruction at the instruction pointer and the address after it. -/
def fetch : Strict σ (Instruction × UInt32) := do
  let ip ← getRegister .ip
  require (← ofExec (Exec.romHolds ip)) (.invalidAddress ip)
  let byte ← romByte ip.toNat
  let opcode ← ofExec (MonadExcept.ofExcept (Opcode.ofByte byte))
  let first ← add ip 1
  let next ← add first (UInt32.ofNat opcode.operandBytes)
  require (next.toNat ≤ (← get).rom.size) (.invalidAddress (next - 1))
  let bytes ← (List.range opcode.operandBytes).mapM fun i => romByte (first.toNat + i)
  return (← orLapse (opcode.decode? bytes), next)

/-- Goes on at an address. -/
def goOn (target : UInt32) : Strict σ Flow := do
  setRegister .ip target
  return .next

/-- Goes on at an address that must lie in ROM. -/
def jump (target : UInt32) : Strict σ Flow := do
  require (← ofExec (Exec.romHolds target)) (.invalidAddress target)
  goOn target

/-- Pushes a register onto the stack. -/
def push (src : UInt8) : Strict σ Unit := do
  let sp ← getRegister .sp
  require (4 ≤ sp) .stackOverflow
  let top := sp - 4
  require (← ofExec (Exec.ramHoldsWord top)) (.invalidAddress top)
  writeWord top (← readId src)
  setRegister .sp top

/-- Pops the top of the stack into a register. -/
def pop (programSize : UInt16) (dst : UInt8) : Strict σ Unit := do
  let sp ← getRegister .sp
  require (← ofExec (Exec.ramHoldsWord sp)) .stackUnderflow
  require (programSize.toUInt32 ≤ sp) .stackOverflow
  writeId dst (← readWord sp)
  setRegister .sp (← add sp 4)

/-- Applies a binary operation to two registers and puts the result into the first. -/
def binary (op : Alu) (dst src : UInt8) : Strict σ Unit := do
  match op.evalUnbounded? (← readId dst) (← readId src) with
  | some value => writeId dst value
  | none => throw (.fault .divisionByZero)

/-- Executes an instruction, where `next` is the address after it. -/
def execute (programSize : UInt16) (next : UInt32) : Instruction → Strict σ Flow
  | .nop => goOn next
  | .halt => return .halt
  | .syscall code => do
    let proceed ← ofExec (Exec.interrupt code)
    setRegister .ip next
    return if proceed then .next else .stop
  | .lcons dst value => do
    writeId dst value
    goOn next
  | .mov dst src => do
    writeId dst (← readId src)
    goOn next
  | .push src => do
    push src
    goOn next
  | .pop dst => do
    pop programSize dst
    goOn next
  | .call target => do
    require (← ofExec (Exec.romHolds target.toUInt32)) (.invalidAddress target.toUInt32)
    setRegister .ra next
    goOn target.toUInt32
  | .ret => do
    goOn (← getRegister .ra)
  | .store address src => do
    require (← ofExec (Exec.ramHoldsWord address.toUInt32)) (.invalidAddress address.toUInt32)
    writeWord address.toUInt32 (← readId src)
    goOn next
  | .load dst address => do
    require (← ofExec (Exec.ramHoldsWord address.toUInt32)) (.invalidAddress address.toUInt32)
    writeId dst (← readWord address.toUInt32)
    goOn next
  | .alu op dst src => do
    binary op dst src
    goOn next
  | .not dst => do
    writeId dst (~~~(← readId dst))
    goOn next
  | .jmp target => jump target.toUInt32
  | .jr src => do
    jump ((← readId src) &&& 0xFFFF)
  | .skipz id => do
    modify fun machine => { machine with skipPending := id == 0 }
    goOn next
  | .skipnz id => do
    modify fun machine => { machine with skipPending := id != 0 }
    goOn next

/-- Passes over an instruction, which ends the pending skip. -/
def skip (next : UInt32) : Strict σ Flow := do
  modify fun machine => { machine with skipPending := false }
  goOn next

end Strict

namespace Machine

open Strict

variable {σ : Type}

/-- Fetches one instruction, and skips or executes it. -/
def strictStep (programSize : UInt16) : Strict σ Flow := do
  let (instruction, next) ← fetch
  if (← get).skipPending then
    skip next
  else
    ofExec (Exec.requireRegisters instruction.registerIds)
    execute programSize next instruction

/-- Runs for at most the given number of steps. -/
def strictRunSteps (programSize : UInt16) : Nat → Strict σ Outcome
  | 0 => return .paused
  | budget + 1 => do
    match ← strictStep programSize with
    | .halt => return .finished
    | .stop =>
      ofExec countExecuted
      return .finished
    | .next =>
      ofExec countExecuted
      strictRunSteps programSize budget

/-- Runs for at most `budget` steps, or without limit if it is zero. -/
def strictRun (fuel : Nat) (programSize : UInt16) (budget : UInt32) :
    Strict σ (Option Outcome) := do
  if budget = 0 then
    match ← strictRunSteps programSize fuel with
    | .finished => return some .finished
    | .paused => return none
  else
    return some (← strictRunSteps programSize budget.toNat)

/-- Pushes a word onto the stack for the host. -/
def strictHostPush (value : UInt32) : Strict σ Unit := do
  let top := (← Strict.getRegister .sp) - 4
  require (← ofExec (Exec.ramHoldsWord top)) (.invalidAddress top)
  Strict.writeWord top value
  Strict.setRegister .sp top

/-- Pops a word off the stack for the host. -/
def strictHostPop : Strict σ UInt32 := do
  let sp ← Strict.getRegister .sp
  require (← ofExec (Exec.ramHoldsWord sp)) (.invalidAddress sp)
  let value ← Strict.readWord sp
  Strict.setRegister .sp (← add sp 4)
  return value

end Machine

/-- A shift by 32 or more leaves no bit of a word. -/
theorem Alu.evalUnbounded?_eq (op : Alu) (x y : UInt32) : op.evalUnbounded? x y = op.eval? x y := by
  have hnear (h : y < 32) : y.toNat < 32 := UInt32.lt_iff_toNat_lt.mp h
  have hfar (h : ¬ y < 32) : 32 ≤ y.toNat :=
    Nat.le_of_not_lt fun hlt => h (UInt32.lt_iff_toNat_lt.mpr hlt)
  cases op with
  | shl =>
    refine congrArg some (UInt32.toNat_inj.mp ?_)
    split
    · rename_i h
      rw [UInt32.toNat_ofNat', UInt32.toNat_shiftLeft, Nat.mod_eq_of_lt (hnear h)]
    · -- All bits are shifted out, and the product is a multiple of the modulus.
      rename_i h
      rw [UInt32.toNat_ofNat', Nat.shiftLeft_eq]
      exact Nat.mod_eq_zero_of_dvd
        (Nat.dvd_trans (Nat.pow_dvd_pow 2 (hfar h)) (Nat.dvd_mul_left ..))
  | shr =>
    refine congrArg some (UInt32.toNat_inj.mp ?_)
    rw [UInt32.toNat_ofNat', Nat.shiftRight_eq_div_pow,
      Nat.mod_eq_of_lt (Nat.lt_of_le_of_lt (Nat.div_le_self ..) x.toNat_lt)]
    split
    · rename_i h
      rw [UInt32.toNat_shiftRight, Nat.mod_eq_of_lt (hnear h), Nat.shiftRight_eq_div_pow]
    · -- The divisor is greater than any word.
      rename_i h
      exact Nat.div_eq_of_lt
        (Nat.lt_of_lt_of_le x.toNat_lt (Nat.pow_le_pow_right (by decide) (hfar h)))
  | _ => rfl

/-- Operands of the length that the opcode says are all there. -/
theorem Opcode.decode?_eq_some {opcode : Opcode} {bytes : List UInt8}
    (h : bytes.length = opcode.operandBytes) :
    opcode.decode? bytes = some (opcode.decode bytes) := by
  cases opcode <;>
    simp only [operandBytes, operands, List.foldr_cons, List.foldr_nil,
      OperandKind.width] at h <;>
    rcases bytes with _ | ⟨a, _ | ⟨b, _ | ⟨c, _ | ⟨d, _ | ⟨e, _ | ⟨f, rest⟩⟩⟩⟩⟩⟩ <;>
    simp at h <;>
    rfl

namespace Strict

variable {σ α : Type}

/-! ## Accesses

What a strict access comes to, and where it is a lapse. -/

section

variable (machine : Machine σ)

/-- What must be there is handed on where it is, and its absence is a lapse. -/
theorem orLapse_run {value? : Option α} {inside : Prop} [Decidable inside]
    (h : value?.isSome ↔ inside) (fallback : α) :
    (orLapse value?).run machine =
      if inside then .ok (value?.getD fallback) machine else .error .lapse machine := by
  cases value? with
  | none =>
    rw [if_neg fun hinside => Bool.false_ne_true (h.mpr hinside)]
    rfl
  | some value =>
    rw [if_pos (h.mp rfl)]
    rfl

/-- To read by an id past the last register is a lapse. -/
theorem readId_run (id : UInt8) :
    (readId id).run machine =
      if id.toNat < Register.count then .ok (machine.registers.read id) machine
      else .error .lapse machine := by
  refine orLapse_run machine ?_ 0
  simp

/-- To write by an id past the last register is a lapse. -/
theorem writeId_run (id : UInt8) (value : UInt32) :
    (writeId id value).run machine =
      if id.toNat < Register.count then .ok () (machine.writeId id value)
      else .error .lapse machine := by
  unfold writeId
  rw [EStateM.run_bind, readId_run]
  by_cases h : id.toNat < Register.count
  · rw [if_pos h, if_pos h]
    rfl
  · rw [if_neg h, if_neg h]

/-- To read a word of RAM that is not all there is a lapse. -/
theorem readWord_run (offset : UInt32) :
    (readWord offset).run machine =
      if machine.ram.holdsWord offset.toNat then .ok (machine.readWord offset) machine
      else .error .lapse machine :=
  orLapse_run machine Region.word?_isSome_iff 0

/-- To write a word of RAM that is not all there is a lapse. -/
theorem writeWord_run (offset value : UInt32) :
    (writeWord offset value).run machine =
      if machine.ram.holdsWord offset.toNat then .ok () (machine.writeWord offset value)
      else .error .lapse machine := by
  show (orLapse (machine.ram.writeWord? offset.toNat value) >>= fun ram =>
    modify fun machine => { machine with ram }).run machine = _
  unfold Region.writeWord?
  split <;> rfl

/-- To read a byte past the end of ROM is a lapse. -/
theorem romByte_run (offset : Nat) :
    (romByte offset).run machine =
      if offset < machine.rom.size then .ok (machine.romByte offset) machine
      else .error .lapse machine :=
  orLapse_run machine Region.byte?_isSome_iff 0

/-- A sum that is no word is a lapse. -/
theorem add_run (a b : UInt32) :
    (add a b).run machine =
      if a.toNat + b.toNat < UInt32.size then .ok (a + b) machine else .error .lapse machine := by
  unfold add
  split <;> rfl

/-- A register is always there to be read. -/
theorem getRegister_run (register : Register) :
    (getRegister register).run machine = .ok (machine.register register) machine :=
  (readId_run machine register.id).trans (if_pos register.id_lt)

/-- A register is always there to be written. -/
theorem setRegister_run (register : Register) (value : UInt32) :
    (setRegister register value).run machine = .ok () (machine.setRegister register value) :=
  (writeId_run machine register.id value).trans (if_pos register.id_lt)

variable {machine}

/-- Bytes that are all inside ROM are all read. -/
theorem mapM_romByte_run {start : Nat} {indices : List Nat}
    (h : ∀ i ∈ indices, start + i < machine.rom.size) :
    (indices.mapM fun i => romByte (start + i)).run machine =
      .ok (indices.map fun i => machine.romByte (start + i)) machine := by
  induction indices with
  | nil => rfl
  | cons i rest ih =>
    rw [List.forall_mem_cons] at h
    rw [List.mapM_cons, EStateM.run_bind, romByte_run, if_pos h.1]
    dsimp only
    rw [EStateM.run_bind, ih h.2]
    rfl

end

/-! ## Side by side -/

section

variable {β : Type} {machine next : Machine σ} {value : α} {strict : Strict σ α} {plain : Exec σ α}
  {strictly : α → Strict σ β} {plainly : α → Exec σ β}

/-- A strict computation comes to what a plain one does: the same result or the same fault, and the
same machine. So it does not lapse (`Agrees.ne_lapse`). -/
def Agrees (machine : Machine σ) (strict : Strict σ α) (plain : Exec σ α) : Prop :=
  strict.run machine = (ofExec plain).run machine

/-- A computation of the machine ends as a strict one where it ends, and with the same fault if it
fails. -/
theorem ofExec_run (plain : Exec σ α) (machine : Machine σ) :
    (ofExec plain).run machine = match plain.run machine with
      | .ok value next => .ok value next
      | .error fault next => .error (.fault fault) next := by
  unfold ofExec
  rw [EStateM.run_adaptExcept]
  cases plain.run machine <;> rfl

/-- A computation of the machine agrees with itself. -/
theorem Agrees.refl (machine : Machine σ) (plain : Exec σ α) :
    Agrees machine (ofExec plain) plain :=
  Eq.refl _

/-- Two computations that end with the same result in the same machine agree. -/
theorem Agrees.of_ok (hstrict : strict.run machine = .ok value next)
    (hplain : plain.run machine = .ok value next) : Agrees machine strict plain := by
  unfold Agrees
  rw [hstrict, ofExec_run, hplain]

/-- A computation that agrees with one of the machine never needs a fallback. -/
theorem Agrees.ne_lapse (h : Agrees machine strict plain) :
    strict.run machine ≠ .error .lapse next := by
  rw [h, ofExec_run]
  cases plain.run machine with
  | ok value next => exact nofun
  | error fault next => exact nofun

/-- A strict computation comes to what the plain one does, and it does not lapse. -/
structure Tracks (machine : Machine σ) (strict : Strict σ α) (plain : Exec σ α) : Prop where
  /-- The result, or the fault, and the machine that is left are those of the plain one. -/
  agrees : Agrees machine strict plain
  /-- No fallback is needed on the way. -/
  ne_lapse : ∀ next, strict.run machine ≠ .error .lapse next

/-- A strict computation that agrees with the plain one does not lapse, since that one cannot. -/
theorem Agrees.tracks (h : Agrees machine strict plain) : Tracks machine strict plain :=
  ⟨h, fun _ => h.ne_lapse⟩

/-- Where two computations agree, what follows them need only agree on what they come to. -/
theorem Agrees.bind (h : Agrees machine strict plain)
    (hrest : ∀ value next, plain.run machine = .ok value next →
      Agrees next (strictly value) (plainly value)) :
    Agrees machine (strict >>= strictly) (plain >>= plainly) := by
  unfold Agrees at h ⊢
  rw [EStateM.run_bind, h, ofExec_run, ofExec_run, EStateM.run_bind]
  rcases hrun : plain.run machine with ⟨value, next⟩ | ⟨fault, next⟩
  · exact (hrest value next hrun).trans (ofExec_run ..)
  · rfl

/-- What follows two such computations need only agree on that result. -/
theorem Agrees.bind_of_ok (hstrict : strict.run machine = .ok value next)
    (hplain : plain.run machine = .ok value next)
    (hrest : Agrees next (strictly value) (plainly value)) :
    Agrees machine (strict >>= strictly) (plain >>= plainly) := by
  refine (Agrees.of_ok hstrict hplain).bind fun value' next' h => ?_
  rw [hplain] at h
  cases h
  exact hrest

/-- An access that the plain computation makes in passing. -/
theorem Agrees.access {rest : Exec σ β} (hstrict : strict.run machine = .ok value machine)
    (hrest : Agrees machine (strictly value) rest) :
    Agrees machine (strict >>= strictly) rest := by
  unfold Agrees at hrest ⊢
  rw [EStateM.run_bind, hstrict]
  exact hrest

/-- To look at the machine is no access. -/
theorem Agrees.get {strict : Strict σ β} {plainly : Machine σ → Exec σ β}
    (hrest : Agrees machine strict (plainly machine)) : Agrees machine strict (get >>= plainly) :=
  hrest

/-- A guard that a checked machine has passed holds for what comes after it. -/
theorem agrees_require_bind (hpolicy : machine.policy = .checked) {condition : Bool} {fault : Fault}
    {strictly : Unit → Strict σ β} {plainly : Unit → Exec σ β}
    (hrest : condition = true → Agrees machine (strictly ()) (plainly ())) :
    Agrees machine (require condition fault >>= strictly)
      (Exec.require condition fault >>= plainly) := by
  refine (Agrees.refl machine _).bind fun _ next h => ?_
  have hguard := Machine.require_bind_run machine condition fault pure
  rw [bind_pure, h] at hguard
  cases condition with
  | true =>
    rw [Machine.guard_of_true rfl] at hguard
    cases hguard
    exact hrest rfl
  | false =>
    rw [Machine.guard_of_checked hpolicy rfl] at hguard
    cases hguard

end

/-! ## Accesses side by side -/

section

variable {β : Type} {machine : Machine σ}

/-- To read a register needs no fallback. -/
theorem agrees_getRegister_bind {register : Register} {strictly : UInt32 → Strict σ β}
    {plainly : UInt32 → Exec σ β}
    (hrest : Agrees machine (strictly (machine.register register))
      (plainly (machine.register register))) :
    Agrees machine (getRegister register >>= strictly) (Exec.getRegister register >>= plainly) :=
  .bind_of_ok (getRegister_run machine register) rfl hrest

/-- To write a register needs no fallback. -/
theorem agrees_setRegister (register : Register) (value : UInt32) :
    Agrees machine (setRegister register value) (Exec.setRegister register value) :=
  .of_ok (setRegister_run machine register value) rfl

/-- To read by the id of a register needs no fallback. -/
theorem agrees_readId_bind {id : UInt8} (h : id.toNat < Register.count)
    {strictly : UInt32 → Strict σ β} {plainly : UInt32 → Exec σ β}
    (hrest : Agrees machine (strictly (machine.registers.read id))
      (plainly (machine.registers.read id))) :
    Agrees machine (readId id >>= strictly) (Exec.readId id >>= plainly) :=
  .bind_of_ok ((readId_run machine id).trans (if_pos h)) rfl hrest

/-- To write by the id of a register needs no fallback. -/
theorem agrees_writeId {id : UInt8} (h : id.toNat < Register.count) (value : UInt32) :
    Agrees machine (writeId id value) (Exec.writeId id value) :=
  .of_ok ((writeId_run machine id value).trans (if_pos h)) rfl

/-- To read a word that is inside RAM needs no fallback. -/
theorem agrees_readWord_bind {offset : UInt32} (h : machine.ram.holdsWord offset.toNat = true)
    {strictly : UInt32 → Strict σ β} {plainly : UInt32 → Exec σ β}
    (hrest : Agrees machine (strictly (machine.readWord offset))
      (plainly (machine.readWord offset))) :
    Agrees machine (readWord offset >>= strictly) (Exec.readWord offset >>= plainly) :=
  .bind_of_ok ((readWord_run machine offset).trans (if_pos h)) rfl hrest

/-- The guard on words of RAM says that the word is there. -/
theorem agrees_ramHoldsWord_bind {offset : UInt32} {strictly : Bool → Strict σ β}
    {plainly : Bool → Exec σ β}
    (hrest : Agrees machine (strictly (machine.ram.holdsWord offset.toNat))
      (plainly (machine.ram.holdsWord offset.toNat))) :
    Agrees machine (ofExec (Exec.ramHoldsWord offset) >>= strictly)
      (Exec.ramHoldsWord offset >>= plainly) := by
  rw [← Region.fitsWord_eq_holdsWord] at hrest
  exact .bind_of_ok rfl rfl hrest

/-- To write a word that is inside RAM needs no fallback. -/
theorem agrees_writeWord {offset : UInt32} (h : machine.ram.holdsWord offset.toNat = true)
    (value : UInt32) : Agrees machine (writeWord offset value) (Exec.writeWord offset value) :=
  .of_ok ((writeWord_run machine offset value).trans (if_pos h)) rfl

end

/-! ## Instructions -/

section

variable {machine : Machine σ}

/-- To go on somewhere needs no fallback. -/
theorem agrees_goOn (target : UInt32) : Agrees machine (goOn target) (Exec.goOn target) :=
  (agrees_setRegister .ip target).bind fun _ _ _ => rfl

/-- A jump needs no fallback, wherever it goes. -/
theorem agrees_jump (target : UInt32) : Agrees machine (jump target) (Exec.jump target) := by
  refine (Agrees.refl machine _).bind fun _ next _ => ?_
  exact (Agrees.refl next _).bind fun _ _ _ => agrees_goOn target

variable {programSize : UInt16} {dst src : UInt8}

/-- A push needs no fallback: its guard says that the word below the stack pointer is inside RAM. -/
theorem agrees_push (hpolicy : machine.policy = .checked) (hsrc : src.toNat < Register.count) :
    Agrees machine (push src) (Exec.push src) := by
  refine agrees_getRegister_bind (agrees_require_bind hpolicy fun _ => ?_)
  refine agrees_ramHoldsWord_bind (agrees_require_bind hpolicy fun hword => ?_)
  refine agrees_readId_bind hsrc ?_
  exact (agrees_writeWord hword _).bind fun _ _ _ => agrees_setRegister ..

/-- Where a word of RAM ends is a word. -/
theorem add_four_lt {offset : UInt32} (h : machine.ram.holdsWord offset.toNat = true) :
    offset.toNat + (4 : UInt32).toNat < UInt32.size := by
  have hend := (offset + 4).toNat_lt
  rw [Region.toNat_add_four h] at hend
  exact hend

/-- The stack pointer can move past a word of RAM. -/
theorem agrees_add_four_bind {β : Type} {next : Machine σ} {offset : UInt32}
    (h : machine.ram.holdsWord offset.toNat = true) {strictly : UInt32 → Strict σ β}
    {rest : Exec σ β} (hrest : Agrees next (strictly (offset + 4)) rest) :
    Agrees next (add offset 4 >>= strictly) rest :=
  .access ((add_run next offset 4).trans (if_pos (add_four_lt h))) hrest

/-- A pop needs no fallback: its guard says that the word at the stack pointer is inside RAM. -/
theorem agrees_pop (hpolicy : machine.policy = .checked) (hdst : dst.toNat < Register.count) :
    Agrees machine (pop programSize dst) (Exec.pop programSize dst) := by
  refine agrees_getRegister_bind (agrees_ramHoldsWord_bind ?_)
  refine agrees_require_bind hpolicy fun hword => agrees_require_bind hpolicy fun _ => ?_
  refine agrees_readWord_bind hword ?_
  -- The stack pointer is moved from where it was, even if that is the register that is popped into.
  refine (agrees_writeId hdst _).bind fun _ _ _ => ?_
  exact agrees_add_four_bind hword (agrees_setRegister ..)

/-- An operation needs no fallback, and a shift by 32 or more is none. -/
theorem agrees_binary (op : Alu) (hdst : dst.toNat < Register.count)
    (hsrc : src.toNat < Register.count) :
    Agrees machine (binary op dst src) (Exec.binary op dst src) := by
  refine agrees_readId_bind hdst (agrees_readId_bind hsrc ?_)
  rw [Alu.evalUnbounded?_eq]
  cases op.eval? (machine.registers.read dst) (machine.registers.read src) with
  | none => rfl
  | some value => exact agrees_writeId hdst value

/-- An instruction whose registers exist needs no fallback. -/
theorem agrees_execute (hpolicy : machine.policy = .checked) (next : UInt32)
    {instruction : Instruction}
    (hids : ∀ id ∈ instruction.registerIds, id.toNat < Register.count) :
    Agrees machine (execute programSize next instruction)
      (Exec.execute programSize next instruction) := by
  -- The registers that are named exist, and where a guard has passed the word is there.
  cases instruction with
  | nop => exact agrees_goOn next
  | halt => rfl
  | syscall code =>
    refine (Agrees.refl machine _).bind fun proceed answered _ => ?_
    exact (agrees_setRegister .ip next).bind fun _ _ _ => rfl
  | lcons dst value =>
    exact (agrees_writeId (hids dst (.head _)) value).bind fun _ _ _ => agrees_goOn next
  | mov dst src =>
    refine agrees_readId_bind (hids src (.tail _ (.head _))) ?_
    exact (agrees_writeId (hids dst (.head _)) _).bind fun _ _ _ => agrees_goOn next
  | push src =>
    exact (agrees_push hpolicy (hids src (.head _))).bind fun _ _ _ => agrees_goOn next
  | pop dst =>
    exact (agrees_pop hpolicy (hids dst (.head _))).bind fun _ _ _ => agrees_goOn next
  | call target =>
    refine (Agrees.refl machine _).bind fun _ guarded _ => ?_
    refine (Agrees.refl guarded _).bind fun _ _ _ => ?_
    exact (agrees_setRegister .ra next).bind fun _ _ _ => agrees_goOn _
  | ret => exact agrees_getRegister_bind (agrees_goOn _)
  | store address src =>
    refine agrees_ramHoldsWord_bind (agrees_require_bind hpolicy fun hword => ?_)
    refine agrees_readId_bind (hids src (.head _)) ?_
    exact (agrees_writeWord hword _).bind fun _ _ _ => agrees_goOn next
  | load dst address =>
    refine agrees_ramHoldsWord_bind (agrees_require_bind hpolicy fun hword => ?_)
    refine agrees_readWord_bind hword ?_
    exact (agrees_writeId (hids dst (.head _)) _).bind fun _ _ _ => agrees_goOn next
  | alu op dst src =>
    exact (agrees_binary op (hids dst (.head _)) (hids src (.tail _ (.head _)))).bind
      fun _ _ _ => agrees_goOn next
  | not dst =>
    refine agrees_readId_bind (hids dst (.head _)) ?_
    exact (agrees_writeId (hids dst (.head _)) _).bind fun _ _ _ => agrees_goOn next
  | jmp target => exact agrees_jump _
  | jr src => exact agrees_readId_bind (hids src (.head _)) (agrees_jump _)
  | skipz id | skipnz id => exact .bind_of_ok rfl rfl (agrees_goOn next)

/-! ## Steps -/

/-- All bytes of an instruction that a checked machine fetches are in ROM, and so far below the
greatest word that no sum on the way wraps around. -/
theorem agrees_fetch (hpolicy : machine.policy = .checked) : Agrees machine fetch Exec.fetch := by
  refine agrees_getRegister_bind (.bind_of_ok rfl rfl ?_)
  refine agrees_require_bind hpolicy fun hip => ?_
  have hip : (machine.register .ip).toNat < machine.rom.size := of_decide_eq_true hip
  have hsize := machine.rom.size_le
  unfold addressSpace at hsize
  refine .access ((romByte_run machine _).trans (if_pos hip)) (.get ?_)
  refine (Agrees.refl machine _).bind fun opcode fetched hopcode => ?_
  -- The opcode byte is in ROM, so that what follows it starts at an address of at most 0x10000 and
  -- ends a few bytes after that.
  obtain ⟨-, rfl⟩ := ofExcept_run_eq_ok_iff.mp hopcode
  have hoperands := opcode.operandBytes_le
  unfold Opcode.maxOperandBytes at hoperands
  have hwords : UInt32.size = 0x100000000 := rfl
  have hfirst : (fetched.register .ip + 1).toNat = (fetched.register .ip).toNat + 1 := by
    rw [UInt32.toNat_add, UInt32.toNat_one]
    omega
  have hwidth : (UInt32.ofNat opcode.operandBytes).toNat = opcode.operandBytes := by
    rw [UInt32.toNat_ofNat']
    omega
  have hnext : (fetched.addressAfter opcode).toNat = _ := Machine.toNat_addressAfter hip opcode
  unfold Machine.addressAfter Opcode.encodedLength at hnext
  refine .access ((add_run fetched _ 1).trans (if_pos (by rw [UInt32.toNat_one]; omega))) ?_
  refine .access ((add_run fetched _ _).trans (if_pos (by rw [hfirst, hwidth]; omega))) ?_
  refine .access rfl ?_
  -- The guard is on where the operands end, and each of them stands before that.
  refine agrees_require_bind hpolicy fun hstop => ?_
  have hstop : (fetched.register .ip + 1 + UInt32.ofNat opcode.operandBytes).toNat ≤
      fetched.rom.size := of_decide_eq_true hstop
  refine .access (mapM_romByte_run fun i hi => ?_) ?_
  · have hi := List.mem_range.mp hi
    omega
  · rw [hfirst, Opcode.decode?_eq_some (by rw [List.length_map, List.length_range])]
    rfl

/-- On a checked machine the demand on the register ids says that they all belong to registers. -/
theorem forall_lt_of_knowsRegisters (hpolicy : machine.policy = .checked) {ids : List UInt8}
    (h : machine.knowsRegisters ids = .ok ()) : ∀ id ∈ ids, id.toNat < Register.count := by
  induction ids with
  | nil => exact fun _ hid => absurd hid List.not_mem_nil
  | cons id ids ih =>
    obtain ⟨⟨⟩, hguard, hrest⟩ := bind_eq_ok_iff.mp h
    exact List.forall_mem_cons.mpr
      ⟨of_decide_eq_true (Machine.of_guard_eq_ok hpolicy hguard), ih hrest⟩

/-- A computation that succeeds after a verdict has been granted it. -/
theorem exists_of_resume_eq_ok {β : Type} {verdict : Except Fault α}
    {rest : α → EStateM.Result Fault (Machine σ) β} {value : β} {next : Machine σ}
    (h : machine.resume verdict rest = .ok value next) :
    ∃ granted, verdict = .ok granted ∧ rest granted = .ok value next := by
  cases verdict with
  | error fault => cases h
  | ok granted => exact ⟨granted, rfl, h⟩

/-- A step of a checked machine needs no fallback. -/
theorem agrees_step (hpolicy : machine.policy = .checked) (programSize : UInt16) :
    Agrees machine (Machine.strictStep programSize) (Machine.step programSize) := by
  refine (agrees_fetch hpolicy).bind fun ⟨instruction, next⟩ fetched hfetch => ?_
  rw [Machine.fetch_run] at hfetch
  obtain ⟨_, -, ⟨⟩⟩ := exists_of_resume_eq_ok hfetch
  refine .get (.access rfl ?_)
  split
  · exact .bind_of_ok rfl rfl (agrees_goOn next)
  · refine (Agrees.refl machine _).bind fun _ known hknown => ?_
    have hrun := Machine.requireRegisters_bind_run machine instruction.registerIds pure
    rw [bind_pure, hknown] at hrun
    obtain ⟨_, hids, ⟨⟩⟩ := exists_of_resume_eq_ok hrun.symm
    exact agrees_execute hpolicy next (forall_lt_of_knowsRegisters hpolicy hids)

/-- A run of a checked machine needs no fallback, since the machine stays checked. -/
theorem agrees_runSteps (hpolicy : machine.policy = .checked) (programSize : UInt16)
    (budget : Nat) :
    Agrees machine (Machine.strictRunSteps programSize budget)
      (Machine.runSteps programSize budget) := by
  induction budget generalizing machine with
  | zero => rfl
  | succ budget ih =>
    refine (agrees_step hpolicy programSize).bind fun flow stepped hstep => ?_
    obtain ⟨instruction, next, -, -, rfl⟩ := Machine.step_eq_ok_iff.mp hstep
    cases flow with
    | halt => rfl
    | stop => rfl
    | next =>
      refine .bind_of_ok rfl rfl (ih ?_)
      exact (machine.policy_after next instruction).trans hpolicy

/-- A run of a checked machine needs no fallback, with a budget or without one. -/
theorem agrees_run (hpolicy : machine.policy = .checked) (fuel : Nat) (programSize : UInt16)
    (budget : UInt32) :
    Agrees machine (Machine.strictRun fuel programSize budget)
      (Machine.run fuel programSize budget) := by
  unfold Machine.strictRun Machine.run
  split
  · refine (agrees_runSteps hpolicy programSize fuel).bind fun outcome next _ => ?_
    cases outcome <;> rfl
  · exact (agrees_runSteps hpolicy programSize budget.toNat).bind fun _ _ _ => rfl

/-- A push of the host needs no fallback. -/
theorem agrees_hostPush (hpolicy : machine.policy = .checked) (value : UInt32) :
    Agrees machine (Machine.strictHostPush value) (Machine.hostPush value) := by
  refine agrees_getRegister_bind (agrees_ramHoldsWord_bind ?_)
  refine agrees_require_bind hpolicy fun hword => ?_
  exact (agrees_writeWord hword value).bind fun _ _ _ => agrees_setRegister ..

/-- A pop of the host needs no fallback. -/
theorem agrees_hostPop (hpolicy : machine.policy = .checked) :
    Agrees machine Machine.strictHostPop Machine.hostPop := by
  refine agrees_getRegister_bind (agrees_ramHoldsWord_bind ?_)
  refine agrees_require_bind hpolicy fun hword => ?_
  refine agrees_readWord_bind hword (agrees_add_four_bind hword ?_)
  exact (agrees_setRegister ..).bind fun _ _ _ => rfl

end

end Strict

namespace Machine

open Strict (Tracks)

variable {σ : Type}

/-- Whatever a machine is asked to do, it never takes a fallback: each computation comes to the same
when every fallback is a failure, and that failure does not arise. -/
structure NeverLapses (machine : Machine σ) : Prop where
  step : ∀ programSize, Tracks machine (strictStep programSize) (step programSize)
  run : ∀ fuel programSize budget,
    Tracks machine (strictRun fuel programSize budget) (run fuel programSize budget)
  hostPush : ∀ value, Tracks machine (strictHostPush value) (hostPush value)
  hostPop : Tracks machine strictHostPop hostPop

/-- A checked machine reads no byte of ROM, no word of RAM, no register and no operand that is not
there, writes no word and no register that is not there, and computes no address after an
instruction or after a pop that is not a word. -/
theorem checked_never_lapses {machine : Machine σ} (h : machine.policy = .checked) :
    machine.NeverLapses where
  step programSize := (Strict.agrees_step h programSize).tracks
  run fuel programSize budget := (Strict.agrees_run h fuel programSize budget).tracks
  hostPush value := (Strict.agrees_hostPush h value).tracks
  hostPop := (Strict.agrees_hostPop h).tracks

/-- A machine whose RAM is a single word, which a program pushes and pops. -/
def filling : Machine Unit :=
  create .checked ⟨0, #[3, 0, 7, 0, 0, 0, 5, 0, 6, 1, 1], by decide⟩
    ⟨0x8000, .replicate 4 0, by decide⟩ 0

/-- The machine with one word of RAM pushes and pops it, and halts without a lapse. -/
theorem checked_never_lapses_filling :
    ∃ final, (strictRun 0 0 9).run filling = .ok (some .finished) final ∧
      final.register .r1 = 7 ∧ final.NeverLapses := by
  obtain ⟨final, hrun, hr1, hpolicy⟩ : ∃ final,
      (run 0 0 9).run filling = .ok (some .finished) final ∧ final.register .r1 = 7 ∧
        final.policy = .checked := ⟨_, rfl, rfl, rfl⟩
  have htracks := (checked_never_lapses (rfl : filling.policy = .checked)).run 0 0 9
  refine ⟨final, htracks.agrees.trans ?_, hr1, checked_never_lapses hpolicy⟩
  rw [Strict.ofExec_run, hrun]

/-- Without its checks and without ROM the same machine lapses at once. -/
example : ∃ next, (strictStep 0).run
    { filling with policy := .unchecked, rom := ⟨0, #[], by decide⟩ } = .error .lapse next :=
  ⟨_, rfl⟩

end Machine

end RegisterMachine
