import RegisterMachine.Fault

/-!
# Registers

The machine has 21 registers of 32 bits. An instruction names a register by its id, source text by
its name.

| names   | ids    | use                             | preserved by calls |
|---------|--------|---------------------------------|--------------------|
| r0 – r5 | 0 – 5  | general purpose                 | yes                |
| t0 – t9 | 6 – 15 | general purpose, arguments      | no                 |
| ip      | 16     | address of the next instruction | yes                |
| bp      | 17     | base pointer                    | yes                |
| sp      | 18     | top of the stack                | yes                |
| ra      | 19     | return address                  | no                 |
| ov      | 20     | overflow                        | yes                |

`Register.all` lists them by id; `ofId` and `ofName?` read the two encodings back (`ofId_id`,
`ofName?_name`).
-/

namespace RegisterMachine

/-- The registers of the machine. -/
inductive Register where
  | r0 | r1 | r2 | r3 | r4 | r5
  | t0 | t1 | t2 | t3 | t4 | t5 | t6 | t7 | t8 | t9
  | ip | bp | sp | ra | ov
  deriving DecidableEq, Repr

namespace Register

/-- The registers in the order of their ids. -/
def all : List Register :=
  [r0, r1, r2, r3, r4, r5, t0, t1, t2, t3, t4, t5, t6, t7, t8, t9, ip, bp, sp, ra, ov]

/-- The number of registers. -/
def count : Nat := 21

/-- The byte that names a register in an instruction. -/
def id : Register → UInt8
  | r0 => 0 | r1 => 1 | r2 => 2 | r3 => 3 | r4 => 4 | r5 => 5
  | t0 => 6 | t1 => 7 | t2 => 8 | t3 => 9 | t4 => 10
  | t5 => 11 | t6 => 12 | t7 => 13 | t8 => 14 | t9 => 15
  | ip => 16 | bp => 17 | sp => 18 | ra => 19 | ov => 20

/-- The name of a register in source text. -/
def name : Register → String
  | r0 => "r0" | r1 => "r1" | r2 => "r2" | r3 => "r3" | r4 => "r4" | r5 => "r5"
  | t0 => "t0" | t1 => "t1" | t2 => "t2" | t3 => "t3" | t4 => "t4"
  | t5 => "t5" | t6 => "t6" | t7 => "t7" | t8 => "t8" | t9 => "t9"
  | ip => "ip" | bp => "bp" | sp => "sp" | ra => "ra" | ov => "ov"

/-- A routine leaves these registers as it found them. -/
def isPreserved : Register → Bool
  | t0 | t1 | t2 | t3 | t4 | t5 | t6 | t7 | t8 | t9 | ra => false
  | r0 | r1 | r2 | r3 | r4 | r5 | ip | bp | sp | ov => true

/-- The register with a given id, if there is one. -/
def ofId? (id : UInt8) : Option Register :=
  all[id.toNat]?

/-- The register with a given id; an id past the last one is a fault. -/
def ofId (id : UInt8) : Except Fault Register :=
  match ofId? id with
  | some register => .ok register
  | none => .error (.invalidRegister id)

/-- The register with a given name, whatever the case of its ASCII letters. -/
def ofName? (name : List Char) : Option Register :=
  let folded := name.map Char.toLower
  all.find? fun register => register.name.toList == folded

/-- The list has all the registers. -/
theorem length_all : all.length = count := rfl

/-- Ids are numbers below the number of registers. -/
theorem id_lt (register : Register) : register.id.toNat < count := by
  cases register <;> decide

/-- The id of a register stands for it. -/
@[simp] theorem ofId?_id (register : Register) : ofId? register.id = some register := by
  cases register <;> rfl

/-- The id of a register is never a fault. -/
@[simp] theorem ofId_id (register : Register) : ofId register.id = .ok register := by
  simp [ofId]

/-- Exactly the ids past the last register are no registers. -/
theorem ofId?_eq_none_iff {id : UInt8} : ofId? id = none ↔ count ≤ id.toNat := by
  simp [ofId?, ← length_all]

/-- An id belongs to the register that has it. -/
theorem ofId?_eq_some_iff {id : UInt8} {register : Register} :
    ofId? id = some register ↔ register.id = id := by
  constructor
  · intro h
    have hnumbered : ∀ i < count, all[i]?.map (fun register => register.id.toNat) = some i := by
      decide
    have hlt : id.toNat < count := by
      rw [← Nat.not_le, ← ofId?_eq_none_iff, h]
      exact Option.some_ne_none register
    have hid := hnumbered id.toNat hlt
    unfold ofId? at h
    rw [h, Option.map_some, Option.some.injEq] at hid
    exact UInt8.toNat_inj.mp hid
  · rintro rfl
    exact ofId?_id register

/-- Different registers have different ids. -/
theorem id_injective {r s : Register} (h : r.id = s.id) : r = s := by
  have : ofId? r.id = ofId? s.id := by rw [h]
  simpa using this

/-- A register is called by its name. -/
@[simp] theorem ofName?_name (register : Register) :
    ofName? register.name.toList = some register := by
  cases register <;> decide

end Register

end RegisterMachine
