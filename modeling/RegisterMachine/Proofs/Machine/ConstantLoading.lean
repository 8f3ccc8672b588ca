import Mathlib.Algebra.Ring.Int.Defs
import RegisterMachine.Proofs.Assembly.Rendering
import RegisterMachine.Proofs.Machine.Fetching
import RegisterMachine.Proofs.Machine.Persistence

/-!
# Loading constants

A program that loads constants into registers and halts, from its source to the registers that it
leaves. The source has a line `lcons r, v` for each constant, with any literal whose integer fits 32
bits, signed or not and in any base (`Assignment`). It assembles to six bytes for each line
(`exists_image`), and each step of a run loads one constant (`advances_lcons`). So a run comes to
the halt after as many steps as there are lines, and each register has the constant that was loaded
into it last (`reaches_of_encodeAll`).

Two registers are special: the instruction pointer is moved last in every step, so what is loaded
into it is lost, and the stack pointer is the only register that does not start at zero.
-/

namespace RegisterMachine

open Assembly

/-- A register, and a literal with the integer to load into it. -/
structure Assignment where
  register : Register
  text : List Char
  value : Int
  reads : Text.integer? text = some value
  /-- The literal is short enough to be stored. -/
  short : Text.utf8Length text ≤ Name.capacity
  low : -2 ^ 31 ≤ value
  high : value ≤ 2 ^ 32 - 1

namespace Assignment

/-- The line of source. -/
def line (assignment : Assignment) : List Char :=
  "lcons ".toList ++ assignment.register.name.toList ++ ", ".toList ++ assignment.text

/-- A source that loads constants one after the other and then halts. -/
def source (assignments : List Assignment) : String :=
  String.ofList
    ((assignments.flatMap fun assignment => assignment.line ++ ['\n']) ++ "halt\n".toList)

/-- The word that is loaded. -/
def word (assignment : Assignment) : UInt32 :=
  UInt32.ofNat (assignment.value % 2 ^ 32).toNat

/-- The instruction that loads it. -/
def instruction (assignment : Assignment) : Instruction :=
  .lcons assignment.register.id assignment.word

/-- The instructions of a source. -/
def program (assignments : List Assignment) : List Instruction :=
  assignments.map instruction ++ [.halt]

/-- The constant that is loaded last into a register, if there is one. -/
def last? (register : Register) (assignments : List Assignment) : Option Assignment :=
  (assignments.filter fun assignment => assignment.register = register).getLast?

/-- The word of an assignment is its value modulo `2 ^ 32`. -/
theorem toNat_word (assignment : Assignment) :
    assignment.word.toNat = (assignment.value % 2 ^ 32).toNat := by
  unfold word
  rw [UInt32.toNat_ofNat']
  omega

/-- The line of an assignment words its instruction. -/
def wording (assignment : Assignment) : Wording where
  instruction := assignment.instruction
  operands := [.register assignment.register.id,
    .literal .immediate32 assignment.text assignment.value]
  kinds := rfl
  bytes := by
    change [assignment.register.id] ++ (LittleEndian.toBytes 4 _ ++ []) =
      assignment.register.id :: LittleEndian.toBytes 4 assignment.word.toNat
    rw [toNat_word, List.append_nil]
    rfl
  isField := by
    refine List.forall_mem_cons.mpr ⟨Spelling.isField_register assignment.register.id_lt,
      List.forall_mem_singleton.mpr ?_⟩
    exact Spelling.isField_literal rfl assignment.reads assignment.short assignment.low
      assignment.high

/-- The wording of an assignment renders as its line. -/
theorem render_wording (assignment : Assignment) : assignment.wording.render = assignment.line := by
  have hname : (Spelling.register assignment.register.id).word =
      assignment.register.name.toList := by
    unfold Spelling.register
    rw [Register.ofId?_id]
    rfl
  change "lcons".toList ++ ' ' :: Text.listed
    [(Spelling.register assignment.register.id).word, assignment.text] = _
  rw [hname, Text.listed_cons_cons, Text.listed_singleton]
  unfold line
  simp

/-- The wordings of the lines of a source. -/
def wordings (assignments : List Assignment) : List Wording :=
  assignments.map wording ++ [.canonical .halt fun _ hid => nomatch hid]

/-- The source of the wordings is that of the assignments. -/
theorem source_wordings (assignments : List Assignment) :
    Wording.source (wordings assignments) = source assignments := by
  have hlines : (assignments.map wording).flatMap (fun wording => wording.render ++ ['\n']) =
      assignments.flatMap fun assignment => assignment.line ++ ['\n'] := by
    rw [List.flatMap_map]
    simp only [render_wording]
  unfold Wording.source wordings source
  rw [List.flatMap_append, hlines]
  rfl

/-- The wordings say the instructions of the program. -/
theorem instruction_wordings (assignments : List Assignment) :
    (wordings assignments).map Wording.instruction = program assignments := by
  unfold wordings program
  rw [List.map_append, List.map_map]
  rfl

/-- Each assignment takes six bytes, and the `halt` at the end one. -/
theorem length_program (assignments : List Assignment) :
    (Instruction.encodeAll (program assignments)).length = 6 * assignments.length + 1 := by
  induction assignments with
  | nil => rfl
  | cons assignment rest ih =>
    have hcons : program (assignment :: rest) = assignment.instruction :: program rest := rfl
    have hlength : assignment.instruction.encode.length = 6 := Instruction.length_encode _
    rw [hcons, Instruction.encodeAll_cons, List.length_append, ih, hlength, List.length_cons]
    omega

/-- The source assembles to the program. -/
theorem exists_image (assignments : List Assignment) (assembler : Assembler)
    (buffer : Array UInt8) (hroom : Room assembler.capacities buffer.size (assignments.length + 1)
      (6 * assignments.length + 1)) :
    ∃ program final, (Assembler.assemble (source assignments) buffer).run assembler =
        .ok program final ∧
      program.image = Instruction.encodeAll (Assignment.program assignments) := by
  have hassembles := assemble_wordings (wordings assignments) buffer assembler
  have hcount : (wordings assignments).length = assignments.length + 1 := by
    unfold wordings
    rw [List.length_append, List.length_map]
    rfl
  rw [instruction_wordings, source_wordings, length_program, hcount] at hassembles
  exact hassembles hroom

end Assignment

namespace Machine

open Assignment

variable {σ : Type} {machine machine' final : Machine σ} {assignment : Assignment}
  {assignments : List Assignment}

/-! ## Running the program -/

/-- Constants have been loaded, and nothing else has happened. -/
structure Loaded (assignments : List Assignment) (machine final : Machine σ) : Prop where
  rom : final.rom = machine.rom
  ram : final.ram = machine.ram
  skipPending : final.skipPending = false
  executed : final.executed = machine.executed + UInt64.ofNat assignments.length
  ip : (final.register .ip).toNat = (machine.register .ip).toNat + 6 * assignments.length
  registers : ∀ r ≠ .ip, final.register r =
    ((last? r assignments).map word).getD (machine.register r)

/-- The last constant of a register, by the first of all. -/
theorem getD_last?_cons (assignment : Assignment) (assignments : List Assignment)
    (r : Register) (initial : UInt32) :
    ((last? r (assignment :: assignments)).map word).getD initial =
      ((last? r assignments).map word).getD
        (if r = assignment.register then assignment.word else initial) := by
  unfold last?
  by_cases h : assignment.register = r
  · rw [List.filter_cons, if_pos (decide_eq_true h), List.getLast?_cons, if_pos h.symm]
    cases (assignments.filter fun assignment => assignment.register = r).getLast? <;> rfl
  · rw [List.filter_cons, if_neg (by simpa using h), if_neg (Ne.symm h)]

/-- One assignment loaded and then the others are all of them loaded. -/
theorem Loaded.cons (h : Loaded [assignment] machine machine')
    (h' : Loaded assignments machine' final) : Loaded (assignment :: assignments) machine final where
  rom := h'.rom.trans h.rom
  ram := h'.ram.trans h.ram
  skipPending := h'.skipPending
  executed := by
    rw [h'.executed, h.executed, UInt64.add_assoc, ← UInt64.ofNat_add, Nat.add_comm]
    rfl
  ip := by
    rw [h'.ip, h.ip, List.length_singleton, List.length_cons]
    omega
  registers r hip := by
    have hsingle := getD_last?_cons assignment [] r (machine.register r)
    rw [h'.registers r hip, h.registers r hip, hsingle, getD_last?_cons]
    rfl

/-- A step loads a constant. -/
theorem advances_lcons {rest : List UInt8} (hskip : machine.skipPending = false)
    (hrom : machine.rom.bytes.toList.drop (machine.register .ip).toNat =
      assignment.instruction.encode ++ rest) (programSize : UInt16) :
    ∃ machine', Advances programSize machine machine' ∧ Loaded [assignment] machine machine' := by
  obtain ⟨next, hfetched, hnext⟩ := fetched_of_encode hrom
  have hexecutes : machine.Executes assignment.instruction next :=
    ⟨hskip, fetch_eq_ok_iff.mpr ⟨hfetched, rfl⟩⟩
  have hstep := hexecutes.step_run (Register.forall_mem_map_id_lt [assignment.register]) programSize
  let loaded := (machine.setRegister assignment.register assignment.word).setRegister .ip next
  refine ⟨loaded.counted, ⟨loaded, hstep, rfl⟩, ⟨rfl, rfl, hskip, rfl, ?_, fun r hip => ?_⟩⟩
  · have hip : loaded.register .ip = next := register_setRegister_self ..
    change (loaded.register .ip).toNat = _
    rw [hip, hnext]
    rfl
  · change loaded.register r = _
    rw [getD_last?_cons, register_setRegister, if_neg hip, register_setRegister]
    rfl

/-- The steps up to the halt load the constants one after the other. -/
theorem reaches_of_encodeAll {rest : List UInt8} (hskip : machine.skipPending = false)
    (hrom : machine.rom.bytes.toList.drop (machine.register .ip).toNat =
      Instruction.encodeAll (assignments.map instruction) ++ rest) (programSize : UInt16) :
    ∃ final, Reaches programSize assignments.length machine final ∧
      Loaded assignments machine final ∧
      final.rom.bytes.toList.drop (final.register .ip).toNat = rest := by
  induction assignments generalizing machine with
  | nil =>
    exact ⟨machine, .refl machine, ⟨rfl, rfl, hskip, (UInt64.add_zero _).symm, rfl,
      fun _ _ => rfl⟩, hrom⟩
  | cons assignment assignments ih =>
    rw [List.map_cons, Instruction.encodeAll_cons, List.append_assoc] at hrom
    obtain ⟨machine', hadvances, hfirst⟩ := advances_lcons hskip hrom programSize
    have hrom' : machine'.rom.bytes.toList.drop (machine'.register .ip).toNat =
        Instruction.encodeAll (assignments.map instruction) ++ rest := by
      have hlength : assignment.instruction.encode.length = 6 := Instruction.length_encode _
      rw [hfirst.rom, hfirst.ip, List.length_singleton, ← List.drop_drop, hrom, ← hlength,
        Nat.mul_one, List.drop_left]
    obtain ⟨final, hreaches, hloaded, hrest⟩ := ih hfirst.skipPending hrom'
    exact ⟨final, .step hadvances hreaches, hfirst.cons hloaded, hrest⟩

/-- A machine that has the program in its ROM comes to the halt with the constants loaded. -/
theorem ends_of_program (hskip : machine.skipPending = false) (hip : machine.register .ip = 0)
    (hrom : machine.rom.bytes.toList = Instruction.encodeAll (program assignments))
    (programSize : UInt16) :
    ∃ final, Ends programSize assignments.length machine .halt final ∧
      Loaded assignments machine final := by
  have hdrop : machine.rom.bytes.toList.drop (machine.register .ip).toNat =
      Instruction.encodeAll (assignments.map instruction) ++ (Instruction.halt.encode ++ []) := by
    rw [hip, hrom]
    unfold program Instruction.encodeAll
    rw [List.flatMap_append]
    rfl
  obtain ⟨final, hreaches, hloaded, hrest⟩ := reaches_of_encodeAll hskip hdrop programSize
  obtain ⟨next, hfetched, -⟩ := fetched_of_encode hrest
  have hhalts : (step programSize).run final = .ok .halt final :=
    step_eq_halt_iff.mpr ⟨hloaded.skipPending, ⟨next, hfetched⟩, rfl⟩
  exact ⟨final, ⟨final, hreaches, .halt hhalts⟩, hloaded⟩

/-- What a fresh machine has come to when it has loaded constants. -/
structure HoldsLast (assignments : List Assignment) (ramSize : Nat) (final : Machine σ) : Prop where
  executed : final.executed.toNat = assignments.length
  ip : (final.register .ip).toNat = 6 * assignments.length
  ram : final.ram.bytes = Array.replicate ramSize 0
  /-- A register has the constant that was loaded into it last. -/
  loaded : ∀ r ≠ .ip, ∀ assignment, last? r assignments = some assignment →
    ((final.register r).toNat : Int) = assignment.value % 2 ^ 32
  /-- Where none was loaded it is as it was at first. -/
  initial : ∀ r ≠ .ip, last? r assignments = none →
    (final.register r).toNat = if r = .sp then ramSize else 0

/-- The registers of a fresh machine. -/
theorem toNat_register_create (policy : Policy) (rom ram : Region) (stackSize : UInt16)
    (r : Register) :
    ((create policy rom ram stackSize : Machine σ).register r).toNat =
      if r = .sp then ram.size else 0 := by
  split
  · rename_i hsp
    subst hsp
    have hregister : (create policy rom ram stackSize : Machine σ).register .sp = ram.sizeWord :=
      Registers.get_set_self ..
    rw [hregister, Region.toNat_sizeWord]
  · rename_i hsp
    have hregister : (create policy rom ram stackSize : Machine σ).register r = 0 :=
      register_reset_of_ne _ (Ne.symm hsp)
    rw [hregister]
    rfl

/-- On a fresh machine that has loaded constants every register holds the last of its own, or what
it held at first. -/
theorem Loaded.holdsLast {rom ram : Region} {stackSize : UInt16}
    (h : Loaded assignments (create .checked rom ram stackSize) final)
    (hlength : assignments.length ≤ addressSpace) : HoldsLast assignments ram.size final where
  executed := by
    have hexecuted : final.executed = 0 + UInt64.ofNat assignments.length := h.executed
    unfold addressSpace at hlength
    rw [hexecuted, UInt64.zero_add, UInt64.toNat_ofNat']
    omega
  ip := by
    rw [h.ip, toNat_register_create, if_neg (by decide), Nat.zero_add]
  ram := congrArg Region.bytes h.ram
  loaded r hip assignment hlast := by
    rw [h.registers r hip, hlast, Option.map_some, Option.getD_some, toNat_word]
    omega
  initial r hip hnone := by
    rw [h.registers r hip, hnone, Option.map_none, Option.getD_none, toNat_register_create]

/-- Constants are loaded as their source says. Whatever the registers and the literals are, the
source assembles, if there is room for it. A fresh checked machine that runs the image without limit
finishes at the halt, after one instruction for each line. Its RAM is zero, and each register but
the instruction pointer has the last of its constants, or its first value if it has none. -/
theorem constants_are_loaded (σ : Type) (assignments : List Assignment) (assembler : Assembler)
    (buffer : Array UInt8) (hroom : Room assembler.capacities buffer.size (assignments.length + 1)
      (6 * assignments.length + 1)) :
    ∃ program assembled, (Assembler.assemble (source assignments) buffer).run assembler =
        .ok program assembled ∧
      (∃ rom : Region, rom.bytes.toList = program.image) ∧
      ∀ (rom ram : Region) (stackSize programSize : UInt16), rom.bytes.toList = program.image →
        ∃ final : Machine σ,
          Returns programSize 0 (create .checked rom ram stackSize) (.ok .finished) final ∧
          HoldsLast assignments ram.size final := by
  obtain ⟨program, assembled, hrun, himage⟩ := exists_image assignments assembler buffer hroom
  have haddresses := hroom.addresses
  have hlength : program.image.length ≤ addressSpace := by
    rw [himage, length_program]
    exact haddresses
  refine ⟨program, assembled, hrun, ⟨⟨0, program.image.toArray, ?_⟩, rfl⟩,
    fun rom ram stackSize programSize hrom => ?_⟩
  · -- The image is short enough for a region.
    rw [List.size_toArray]
    exact (Nat.zero_add _).symm ▸ hlength
  · -- The machine loads one constant after the other and halts.
    let start : Machine σ := create .checked rom ram stackSize
    have hstart : start.rom.bytes.toList = _ := hrom.trans himage
    obtain ⟨final, hends, hloaded⟩ := ends_of_program rfl rfl hstart programSize
    exact ⟨final, returns_zero_iff.mpr ⟨_, .halt, hends, rfl⟩, hloaded.holdsLast (by omega)⟩

/-- A hexadecimal, a decimal and an octal literal, for a register that is assigned twice and for the
special ones. -/
def mixed : List Assignment :=
  [⟨.r0, "0x10".toList, 16, by decide, by decide, by decide, by decide⟩,
    ⟨.ip, "5".toList, 5, by decide, by decide, by decide, by decide⟩,
    ⟨.sp, "-1".toList, -1, by decide, by decide, by decide, by decide⟩,
    ⟨.r0, "+017".toList, 15, by decide, by decide, by decide, by decide⟩]

/-- Four assignments in three bases, of which one is to the instruction pointer, one to the stack
pointer and one to a register that has been loaded before. -/
theorem constants_are_loaded_mixed :
    source mixed = "lcons r0, 0x10\nlcons ip, 5\nlcons sp, -1\nlcons r0, +017\nhalt\n" ∧
      ∃ program assembled,
        (Assembler.assemble (source mixed) (.replicate 25 9)).run (.empty ⟨some 5, some 0, some 0⟩) =
          .ok program assembled ∧
        ∃ rom : Region, rom.bytes.toList = program.image ∧
          ∃ final : Machine Unit,
            Returns 0 0 (create .checked rom ⟨0x8000, .replicate 8 7, by decide⟩ 0) (.ok .finished)
              final ∧
            (final.register .r0).toNat = 15 ∧ (final.register .sp).toNat = 0xFFFFFFFF ∧
            (final.register .r1).toNat = 0 ∧ (final.register .ip).toNat = 24 := by
  refine ⟨by decide, ?_⟩
  obtain ⟨program, assembled, hrun, ⟨rom, hrom⟩, hfinal⟩ :=
    constants_are_loaded Unit mixed (.empty ⟨some 5, some 0, some 0⟩) (.replicate 25 9)
      ⟨by decide, by decide, by decide⟩
  obtain ⟨final, hreturns, hholds⟩ := hfinal rom ⟨0x8000, .replicate 8 7, by decide⟩ 0 0 hrom
  have hr0 := hholds.loaded .r0 (by decide) _ rfl
  have hsp := hholds.loaded .sp (by decide) _ rfl
  exact ⟨program, assembled, hrun, rom, hrom, final, hreturns, Int.ofNat_inj.mp hr0,
    Int.ofNat_inj.mp hsp, hholds.initial .r1 (by decide) rfl, hholds.ip⟩

end Machine

end RegisterMachine
