import RegisterMachine.Isa.Register

/-!
# The register file

`Registers` holds one 32-bit word for each register. Instructions reach it by register id: an id
past the last register reads as zero and its writes go nowhere, which a checked machine never
relies on. Host code reaches it by register.
-/

namespace RegisterMachine

/-- The words held by the registers, in the order of their ids. -/
structure Registers where
  values : Vector UInt32 Register.count
  deriving DecidableEq

namespace Registers

/-- All registers hold zero. -/
def zero : Registers := ⟨Vector.replicate Register.count 0⟩

/-- The word under a register id, zero for an id past the last register. -/
def read (registers : Registers) (id : UInt8) : UInt32 :=
  registers.values[id.toNat]?.getD 0

/-- Puts a word under a register id; an id past the last register keeps nothing. -/
def write (registers : Registers) (id : UInt8) (value : UInt32) : Registers :=
  ⟨registers.values.setIfInBounds id.toNat value⟩

/-- The word a register holds. -/
def get (registers : Registers) (register : Register) : UInt32 :=
  registers.read register.id

/-- Puts a word into a register. -/
def set (registers : Registers) (register : Register) (value : UInt32) : Registers :=
  registers.write register.id value

/-- A write shows under its own id only, and only if a register has that id. -/
theorem read_write (registers : Registers) (i j : UInt8) (value : UInt32) :
    (registers.write i value).read j =
      if i = j ∧ i.toNat < Register.count then value else registers.read j := by
  simp only [read, write, Vector.getElem?_setIfInBounds, UInt8.toNat_inj]
  by_cases hij : i = j
  · subst hij
    by_cases h : i.toNat < Register.count <;> simp [h]
  · simp [hij]

/-- What has been put into a register is read from it. -/
@[simp] theorem get_set_self (registers : Registers) (register : Register) (value : UInt32) :
    (registers.set register value).get register = value := by
  simp [get, set, read_write, register.id_lt]

/-- Putting a word into a register changes no other one. -/
theorem get_set_of_ne (registers : Registers) {r s : Register} (h : r ≠ s) (value : UInt32) :
    (registers.set r value).get s = registers.get s := by
  have hid : r.id ≠ s.id := fun e => h (Register.id_injective e)
  simp [get, set, read_write, hid]

/-- Putting back the word that a register holds changes nothing. -/
@[simp] theorem set_get_self (registers : Registers) (register : Register) :
    registers.set register (registers.get register) = registers := by
  obtain ⟨values⟩ := registers
  simp only [set, get, read, write, mk.injEq]
  apply Vector.ext
  intro i hi
  rw [Vector.getElem_setIfInBounds]
  split
  · rename_i h
    subst h
    rw [Vector.getElem?_eq_getElem hi, Option.getD_some]
  · rfl

/-- Of two words put into a register one after the other, the second one stays. -/
@[simp] theorem set_set_self (registers : Registers) (register : Register) (first second : UInt32) :
    (registers.set register first).set register second = registers.set register second := by
  simp only [set, write, Vector.setIfInBounds_setIfInBounds]

/-- Every register of the zero file is zero, and so is what is read by an id past the last one. -/
@[simp] theorem read_zero (id : UInt8) : zero.read id = 0 := by
  simp only [read, zero, Vector.getElem?_replicate]
  split <;> rfl

/-- Two register files are equal when every register holds the same word in both. -/
theorem ext_get {a b : Registers} (h : ∀ register, a.get register = b.get register) : a = b := by
  obtain ⟨va⟩ := a
  obtain ⟨vb⟩ := b
  congr 1
  apply Vector.ext
  intro i hi
  have hid : ∃ register : Register, register.id.toNat = i := by
    have : ∀ i < Register.count, ∃ register ∈ Register.all, register.id.toNat = i := by decide
    obtain ⟨register, _, hr⟩ := this i hi
    exact ⟨register, hr⟩
  obtain ⟨register, rfl⟩ := hid
  simpa [get, read, Vector.getElem?_eq_getElem hi] using h register

end Registers

end RegisterMachine
