import RegisterMachine.Proofs.Machine.Fetching
import RegisterMachine.Proofs.Machine.Sessions
import RegisterMachine.Proofs.Memory.Ranges

/-!
# Two views of memory

The host reaches memory by absolute address, the program by offset into RAM. Translating an address
is to tell in which of the two intervals it lies, where ROM comes first (`Machine.Translates`). Both
views are of one list of bytes: what the host lays over RAM is what the program reads afterwards
(`Machine.PatchesShow`), and a word that the program writes is what the host sees at its address,
unless ROM covers it (`Machine.WritesShow`).

Offsets have 32 bits and addresses 16, and a region may end where addresses do. A word that lies in
RAM has an address all the same, since each of its bytes has one.
-/

namespace RegisterMachine.Machine

variable {σ : Type} {machine : Machine σ} {address offset : UInt16}

/-! ## Translation of addresses -/

/-- How the host finds its way in memory: by the intervals of addresses that the regions cover. -/
structure Translates (machine : Machine σ) : Prop where
  /-- An address that ROM covers leads to ROM, whatever RAM covers. -/
  rom : ∀ address, machine.rom.Covers address →
    ∃ offset, machine.locate address = .rom offset ∧
      offset.toNat = address.toNat - machine.rom.base.toNat ∧
      machine.bytesFrom address = .ok (machine.rom.bytes.toList.drop offset.toNat)
  ram : ∀ address, ¬ machine.rom.Covers address → machine.ram.Covers address →
    ∃ offset, machine.locate address = .ram offset ∧
      offset.toNat = address.toNat - machine.ram.base.toNat ∧
      machine.bytesFrom address = .ok (machine.ram.bytes.toList.drop offset.toNat)
  unmapped : ∀ address, ¬ machine.rom.Covers address → ¬ machine.ram.Covers address →
    machine.locate address = .unmapped ∧
      machine.bytesFrom address = .error (.invalidAddress address.toUInt32)
  /-- Where the regions are disjoint, the bytes from a later address are the rest of those from an
  earlier one. -/
  later : (∀ address, ¬ (machine.rom.Covers address ∧ machine.ram.Covers address)) →
    ∀ address bytes i, machine.bytesFrom address = .ok bytes → i < bytes.length →
      ∃ shifted : UInt16, shifted.toNat = address.toNat + i ∧
        machine.bytesFrom shifted = .ok (bytes.drop i)

/-- An address leads to ROM exactly if ROM covers it. -/
theorem locate_eq_rom_iff :
    machine.locate address = .rom offset ↔
      machine.rom.Covers address ∧ offset.toNat = address.toNat - machine.rom.base.toNat := by
  rw [← Region.offset?_eq_some_iff]
  unfold locate
  cases machine.rom.offset? address with
  | some found => simp
  | none => cases machine.ram.offset? address <;> simp

/-- An address leads to RAM exactly if RAM covers it and ROM does not. -/
theorem locate_eq_ram_iff :
    machine.locate address = .ram offset ↔
      ¬ machine.rom.Covers address ∧ machine.ram.Covers address ∧
        offset.toNat = address.toNat - machine.ram.base.toNat := by
  rw [← Region.offset?_eq_some_iff, ← Region.offset?_eq_none_iff]
  unfold locate
  cases machine.rom.offset? address with
  | some found => simp
  | none => cases machine.ram.offset? address <;> simp

/-- An address leads nowhere exactly if neither covers it. -/
theorem locate_eq_unmapped_iff :
    machine.locate address = .unmapped ↔
      ¬ machine.rom.Covers address ∧ ¬ machine.ram.Covers address := by
  rw [← Region.offset?_eq_none_iff, ← Region.offset?_eq_none_iff]
  unfold locate
  cases machine.rom.offset? address with
  | some found => simp
  | none => cases machine.ram.offset? address <;> simp

/-- ROM is seen from an address that it covers to its end. -/
theorem bytesFrom_of_rom (h : machine.rom.Covers address) :
    machine.bytesFrom address =
      .ok (machine.rom.bytes.toList.drop (address.toNat - machine.rom.base.toNat)) := by
  have hlocate : machine.locate address = .rom (address - machine.rom.base) :=
    locate_eq_rom_iff.mpr ⟨h, h.toNat_sub⟩
  unfold bytesFrom
  rw [hlocate]
  dsimp only
  rw [Region.drop_eq, h.toNat_sub]

/-- RAM is seen from an address that only it covers to its end. -/
theorem bytesFrom_of_ram (hrom : ¬ machine.rom.Covers address) (h : machine.ram.Covers address) :
    machine.bytesFrom address =
      .ok (machine.ram.bytes.toList.drop (address.toNat - machine.ram.base.toNat)) := by
  have hlocate : machine.locate address = .ram (address - machine.ram.base) :=
    locate_eq_ram_iff.mpr ⟨hrom, h, h.toNat_sub⟩
  unfold bytesFrom
  rw [hlocate]
  dsimp only
  rw [Region.drop_eq, h.toNat_sub]

/-- Where no region covers the address, there are no bytes to look at. -/
theorem bytesFrom_of_unmapped (hrom : ¬ machine.rom.Covers address)
    (hram : ¬ machine.ram.Covers address) :
    machine.bytesFrom address = .error (.invalidAddress address.toUInt32) := by
  unfold bytesFrom
  rw [locate_eq_unmapped_iff.mpr ⟨hrom, hram⟩]

/-- A byte behind an address that a region covers has an address there too. -/
theorem exists_shifted {region : Region} (h : region.Covers address) {i : Nat}
    (hi : i < (region.bytes.toList.drop (address.toNat - region.base.toNat)).length) :
    ∃ shifted : UInt16, shifted.toNat = address.toNat + i ∧ region.Covers shifted ∧
      region.bytes.toList.drop (shifted.toNat - region.base.toNat) =
        (region.bytes.toList.drop (address.toNat - region.base.toNat)).drop i := by
  have hle := h.1
  rw [List.length_drop, Array.length_toList] at hi
  obtain ⟨shifted, hshifted, hcovers⟩ :=
    region.exists_covers (show address.toNat - region.base.toNat + i < region.size by
      unfold Region.size; omega)
  refine ⟨shifted, by omega, hcovers, ?_⟩
  rw [List.drop_drop, hshifted, Nat.add_sub_cancel_left]

/-- Addresses are translated by the intervals of the two regions. -/
theorem translates (machine : Machine σ) : machine.Translates where
  rom address h :=
    ⟨address - machine.rom.base, locate_eq_rom_iff.mpr ⟨h, h.toNat_sub⟩, h.toNat_sub,
      h.toNat_sub ▸ bytesFrom_of_rom h⟩
  ram address hrom h :=
    ⟨address - machine.ram.base, locate_eq_ram_iff.mpr ⟨hrom, h, h.toNat_sub⟩, h.toNat_sub,
      h.toNat_sub ▸ bytesFrom_of_ram hrom h⟩
  unmapped address hrom hram :=
    ⟨locate_eq_unmapped_iff.mpr ⟨hrom, hram⟩, bytesFrom_of_unmapped hrom hram⟩
  later hdisjoint address bytes i hbytes hi := by
    by_cases hrom : machine.rom.Covers address
    · rw [bytesFrom_of_rom hrom] at hbytes
      cases hbytes
      obtain ⟨shifted, hshifted, hcovers, hdrop⟩ := exists_shifted hrom hi
      exact ⟨shifted, hshifted, hdrop ▸ bytesFrom_of_rom hcovers⟩
    · by_cases hram : machine.ram.Covers address
      · rw [bytesFrom_of_ram hrom hram] at hbytes
        cases hbytes
        obtain ⟨shifted, hshifted, hcovers, hdrop⟩ := exists_shifted hram hi
        -- ROM does not begin behind the address, since the regions are disjoint.
        have hnot : ¬ machine.rom.Covers shifted := fun h => hdisjoint shifted ⟨h, hcovers⟩
        exact ⟨shifted, hshifted, hdrop ▸ bytesFrom_of_ram hnot hcovers⟩
      · rw [bytesFrom_of_unmapped hrom hram] at hbytes
        cases hbytes

/-! ## What the host writes -/

/-- The bytes of RAM are seen by whoever looks at them: the program that loads a word, and the host
that pops one or looks at an address. -/
structure ShowsRam (machine : Machine σ) (bytes : List UInt8) : Prop where
  load : ∀ programSize dst address next, machine.Executes (.load (Register.id dst) address) next →
    address.toNat + wordBytes ≤ bytes.length →
    ∃ loaded, (step programSize).run machine = .ok .next loaded ∧
      ∀ register, loaded.register register =
        if register = .ip then next
        else if register = dst then Bytes.wordAt bytes address.toNat
        else machine.register register
  pop : (machine.register .sp).toNat + wordBytes ≤ bytes.length →
    ∃ popped, hostPop.run machine =
      .ok (Bytes.wordAt bytes (machine.register .sp).toNat) popped
  bytesFrom : ∀ address offset, machine.locate address = .ram offset →
    machine.bytesFrom address = .ok (bytes.drop offset.toNat)

/-- A word that is all inside RAM is the word of its bytes. -/
theorem readWord_of_le {offset : UInt32}
    (h : offset.toNat + wordBytes ≤ machine.ram.bytes.toList.length) :
    machine.readWord offset = Bytes.wordAt machine.ram.bytes.toList offset.toNat := by
  unfold readWord
  rw [Region.word?_eq_some h, Option.getD_some]

/-- A word that is all inside RAM passes the guard. -/
theorem spans_of_le {offset : UInt32} (h : offset.toNat + wordBytes ≤ machine.ram.size) :
    machine.spans offset = .ok () :=
  guard_of_true (Region.holdsWord_eq_true_iff.mpr h) ..

/-- Everybody sees the bytes that RAM has. -/
theorem showsRam (machine : Machine σ) : machine.ShowsRam machine.ram.bytes.toList where
  load programSize dst address next hexecutes h := by
    have hoffset : address.toUInt32.toNat + wordBytes ≤ machine.ram.bytes.toList.length := by
      rwa [UInt16.toNat_toUInt32]
    refine ⟨machine.executedTo next (.load dst.id address), ?_, fun register => ?_⟩
    · rw [hexecutes.step_run (Register.forall_mem_map_id_lt [dst]), permits, spans_of_le hoffset]
      rfl
    · change ((machine.setRegister dst (machine.readWord address.toUInt32)).setRegister .ip
        next).register register = _
      rw [register_setRegister, register_setRegister, readWord_of_le hoffset,
        UInt16.toNat_toUInt32]
  pop h := by
    rw [hostPop_run, spans_of_le h, readWord_of_le h]
    exact ⟨_, rfl⟩
  bytesFrom address offset h := by
    unfold Machine.bytesFrom
    rw [h]
    dsimp only
    rw [Region.drop_eq]

/-- What the host writes by address. -/
structure PatchesShow (machine : Machine σ) : Prop where
  /-- At an address that leads to RAM the bytes are laid over RAM, and nothing else changes. Every
  machine with the RAM that comes out shows the new bytes. -/
  ram : ∀ address offset bytes, machine.locate address = .ram offset →
    ∃ patched,
      (patch address bytes).run machine = .ok (machine.ram.size - offset.toNat) patched ∧
      patched = { machine with ram := patched.ram } ∧ patched.ram.base = machine.ram.base ∧
      (∀ i, patched.ram.byte? i =
        if offset.toNat ≤ i ∧ i < offset.toNat + bytes.length ∧ i < machine.ram.size then
          bytes[i - offset.toNat]?
        else machine.ram.byte? i) ∧
      ∀ later : Machine σ, later.ram = patched.ram →
        later.ShowsRam (Bytes.laidOver machine.ram.bytes.toList offset.toNat bytes)
  refused : ∀ address bytes, (∀ offset, machine.locate address ≠ .ram offset) →
    (patch address bytes).run machine = .error (.invalidAddress address.toUInt32) machine

/-- What the host lays over RAM is seen there by the host and by the program. -/
theorem patchesShow (machine : Machine σ) : machine.PatchesShow where
  ram address offset bytes h := by
    have hle : offset.toNat ≤ machine.ram.size := by
      obtain ⟨-, ⟨hle, hlt⟩, hoffset⟩ := locate_eq_ram_iff.mp h
      omega
    refine ⟨{ machine with ram := machine.ram.overwrite offset.toNat bytes }, ?_, rfl, rfl,
      fun i => ?_, fun later hlater => ?_⟩
    · rw [patch_run, h]
    · exact Bytes.getElem?_overwrite ..
    · have hram : later.ram = machine.ram.overwrite offset.toNat bytes := hlater
      rw [← Region.toList_overwrite hle, ← hram]
      exact later.showsRam
  refused address bytes h := by
    rw [patch_run]
    cases hlocate : machine.locate address with
    | ram offset => exact absurd hlocate (h offset)
    | rom offset => rfl
    | unmapped => rfl

/-! ## What the program writes -/

/-- The host sees a word of RAM that has been written: its bytes stand at the address that is as far
from the base of RAM as the word, and the bytes behind them are as before. Where ROM covers the
address, the host sees ROM, as before. -/
def ShowsWord (before after : Machine σ) (offset : Nat) (value : UInt32) : Prop :=
  ∃ address : UInt16, address.toNat = before.ram.base.toNat + offset ∧
    after.locate address = before.locate address ∧
    after.bytesFrom address =
      if before.rom.Covers address then before.bytesFrom address
      else .ok (LittleEndian.toBytes wordBytes value.toNat ++
        before.ram.bytes.toList.drop (offset + wordBytes))

/-- What is written by offset. -/
structure WritesShow (machine : Machine σ) : Prop where
  store : ∀ programSize address src next, machine.Executes (.store address (Register.id src)) next →
    address.toNat + wordBytes ≤ machine.ram.size →
    ∃ stored, (step programSize).run machine = .ok .next stored ∧
      machine.ShowsWord stored address.toNat (machine.register src)
  push : ∀ programSize src next, machine.Executes (.push (Register.id src)) next →
    (machine.register .sp - 4).toNat + wordBytes ≤ machine.ram.size →
    ∃ pushed, (step programSize).run machine = .ok .next pushed ∧
      machine.ShowsWord pushed (machine.register .sp - 4).toNat (machine.register src)
  hostPush : ∀ value, (machine.register .sp - 4).toNat + wordBytes ≤ machine.ram.size →
    ∃ pushed, (Machine.hostPush value).run machine = .ok () pushed ∧
      machine.ShowsWord pushed (machine.register .sp - 4).toNat value

/-- A machine that has a word written shows it, whatever else has changed but ROM and RAM. -/
theorem showsWord_of_writeWord {after : Machine σ} {offset : Nat} {value : UInt32}
    (h : offset + wordBytes ≤ machine.ram.size) (hrom : after.rom = machine.rom)
    (hram : after.ram = machine.ram.writeWord offset value) :
    machine.ShowsWord after offset value := by
  obtain ⟨address, haddress, hcovers⟩ :=
    machine.ram.exists_covers (show offset < machine.ram.size by unfold wordBytes at h; omega)
  have hbase : after.ram.base = machine.ram.base := by
    rw [hram, Region.base_writeWord]
  have hafter : after.ram.Covers address := by
    rw [hram, Region.covers_writeWord]
    exact hcovers
  refine ⟨address, haddress, ?_, ?_⟩
  · unfold locate Region.offset?
    rw [hrom, hbase, hram, Region.size_writeWord]
  · -- Where ROM shadows RAM the host sees ROM, and otherwise the bytes of the word.
    by_cases hshadow : machine.rom.Covers address
    · rw [if_pos hshadow, bytesFrom_of_rom hshadow,
        bytesFrom_of_rom (show after.rom.Covers address by rwa [hrom]), hrom]
    · rw [if_neg hshadow, bytesFrom_of_ram (by rwa [hrom]) hafter, hbase, haddress,
        Nat.add_sub_cancel_left, hram, Region.toList_writeWord h, Bytes.drop_laidOver]
      · rw [LittleEndian.length_toBytes]
      · rw [LittleEndian.length_toBytes]
        exact h

/-- Room for a word below the stack pointer means that the stack pointer does not wrap around. -/
theorem four_le_sp (h : (machine.register .sp - 4).toNat + wordBytes ≤ machine.ram.size) :
    4 ≤ machine.register .sp := by
  have hsize : machine.ram.size ≤ 0x10000 := machine.ram.size_le
  rw [UInt32.toNat_sub] at h
  change (2 ^ 32 - 4 + _) % 2 ^ 32 + 4 ≤ _ at h
  rw [UInt32.le_iff_toNat_le]
  change 4 ≤ _
  omega

/-- What a program writes is seen there by the host and by the program. -/
theorem writesShow (machine : Machine σ) : machine.WritesShow where
  store programSize address src next hexecutes h := by
    have hoffset : address.toUInt32.toNat + wordBytes ≤ machine.ram.size := by
      rwa [UInt16.toNat_toUInt32]
    refine ⟨machine.executedTo next (.store address src.id), ?_,
      showsWord_of_writeWord h rfl ?_⟩
    · rw [hexecutes.step_run (Register.forall_mem_map_id_lt [src]), permits, spans_of_le hoffset]
      rfl
    · rw [← UInt16.toNat_toUInt32]
      rfl
  push programSize src next hexecutes h := by
    refine ⟨machine.executedTo next (.push src.id), ?_, showsWord_of_writeWord h rfl rfl⟩
    rw [hexecutes.step_run (Register.forall_mem_map_id_lt [src]), permits,
      guard_of_true (decide_eq_true (four_le_sp h)), spans_of_le h]
    rfl
  hostPush value h := by
    refine ⟨(machine.writeWord (machine.register .sp - 4) value).setRegister .sp
      (machine.register .sp - 4), ?_, showsWord_of_writeWord h rfl rfl⟩
    rw [hostPush_run, spans_of_le h]
    rfl

/-- The host's view of memory and the program's agree. An address leads to the region whose interval
of addresses it is in, with ROM before RAM. What the host writes to RAM is there for the program,
and what the program writes is there for the host, unless ROM covers it. -/
theorem host_and_program_see_one_memory (machine : Machine σ) :
    machine.Translates ∧ machine.PatchesShow ∧ machine.WritesShow :=
  ⟨machine.translates, machine.patchesShow, machine.writesShow⟩

/-- ROM at the very end of the address space hides the last bytes of RAM there. -/
example :
    let machine : Machine Unit :=
      create .checked ⟨0xFFFE, #[1, 2], by decide⟩ ⟨0xFFFC, .replicate 4 0, by decide⟩ 0
    machine.locate 0xFFFD = .ram 1 ∧ machine.locate 0xFFFF = .rom 1 :=
  ⟨rfl, rfl⟩

end RegisterMachine.Machine
