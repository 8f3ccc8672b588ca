/-!
# Little-endian bytes

Numbers are stored least significant byte first. `n` bytes hold the numbers below `modulus n`.
`toBytes n k` is the `n`-byte form of `k`, with the higher bits dropped, and `ofBytes` reads bytes
back. The two undo each other: reading what was written gives `k` modulo `modulus n`
(`ofBytes_toBytes`), and writing what was read, at the same length, gives the bytes
(`toBytes_ofBytes`).
-/

namespace RegisterMachine.LittleEndian

/-- How many numbers `n` bytes hold: 256 to the power `n`. -/
def modulus : Nat → Nat
  | 0 => 1
  | n + 1 => 256 * modulus n

/-- The `n` low bytes of `k`, least significant first. -/
def toBytes : Nat → Nat → List UInt8
  | 0, _ => []
  | n + 1, k => UInt8.ofNat k :: toBytes n (k / 256)

/-- The number with the given bytes, least significant first. -/
def ofBytes : List UInt8 → Nat
  | [] => 0
  | b :: bs => b.toNat + 256 * ofBytes bs

/-- A number is written with as many bytes as are asked for. -/
@[simp] theorem length_toBytes (n k : Nat) : (toBytes n k).length = n := by
  induction n generalizing k with
  | zero => rfl
  | succ n ih => simp [toBytes, ih]

/-- Each byte holds eight bits of the number. -/
theorem getElem?_toBytes {n i : Nat} (h : i < n) (k : Nat) :
    (toBytes n k)[i]? = some (UInt8.ofNat (k >>> (8 * i))) := by
  induction n generalizing i k with
  | zero => exact absurd h (Nat.not_lt_zero i)
  | succ n ih =>
    cases i with
    | zero => rfl
    | succ i =>
      have hshift : k >>> (8 * (i + 1)) = (k / 256) >>> (8 * i) := by
        rw [Nat.mul_succ, Nat.add_comm, Nat.shiftRight_add, Nat.shiftRight_eq_div_pow k 8]
      rw [toBytes, List.getElem?_cons_succ, ih (Nat.lt_of_succ_lt_succ h), hshift]

/-- The number with four bytes. -/
theorem ofBytes_four (b0 b1 b2 b3 : UInt8) :
    ofBytes [b0, b1, b2, b3] =
      b0.toNat + 0x100 * b1.toNat + 0x10000 * b2.toNat + 0x1000000 * b3.toNat := by
  simp only [ofBytes]
  omega

/-- Reading back `n` written bytes keeps the number modulo `modulus n`. -/
theorem ofBytes_toBytes (n k : Nat) : ofBytes (toBytes n k) = k % modulus n := by
  induction n generalizing k with
  | zero => simp [toBytes, ofBytes, modulus, Nat.mod_one]
  | succ n ih =>
    rw [toBytes, ofBytes, ih, modulus, Nat.mod_mul, UInt8.toNat_ofNat']

/-- `n` bytes hold a number below `modulus n`. -/
theorem ofBytes_lt (bs : List UInt8) : ofBytes bs < modulus bs.length := by
  induction bs with
  | nil => simp [ofBytes, modulus]
  | cons b bs ih =>
    have hb : b.toNat < 256 := b.toNat_lt
    rw [ofBytes, List.length_cons, modulus]
    omega

/-- Every byte sequence is the written form of the number it reads as. -/
theorem toBytes_ofBytes (bs : List UInt8) : toBytes bs.length (ofBytes bs) = bs := by
  induction bs with
  | nil => rfl
  | cons b bs ih =>
    have hb : b.toNat < 256 := b.toNat_lt
    rw [List.length_cons, toBytes, ofBytes, Nat.add_mul_div_left _ _ (by decide),
      Nat.div_eq_of_lt hb, Nat.zero_add, ih]
    congr 1
    apply UInt8.toNat_inj.mp
    rw [UInt8.toNat_ofNat']
    omega

end RegisterMachine.LittleEndian
