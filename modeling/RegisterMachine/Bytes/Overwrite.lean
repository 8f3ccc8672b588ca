/-!
# Overwriting part of a byte array

`overwrite` lays a run of bytes over an array from a given index on. It keeps the size, shows the
new bytes inside the run and the old ones outside (`getElem?_overwrite`). `write?` is the variant
that refuses a run that would pass the end, and so drops nothing.
-/

namespace RegisterMachine.Bytes

/-- Replaces the elements from index `start` on by `bytes`; what would pass the end is dropped. -/
def overwrite (target : Array UInt8) (start : Nat) : List UInt8 → Array UInt8
  | [] => target
  | b :: bs => overwrite (target.setIfInBounds start b) (start + 1) bs

/-- Replaces the elements from index `start` on by `bytes`, if all of them fit. -/
def write? (target : Array UInt8) (start : Nat) (bytes : List UInt8) : Option (Array UInt8) :=
  if start + bytes.length ≤ target.size then some (overwrite target start bytes) else none

/-- Laying bytes over an array keeps its size, also where they pass its end. -/
@[simp] theorem size_overwrite (target : Array UInt8) (start : Nat) (bytes : List UInt8) :
    (overwrite target start bytes).size = target.size := by
  induction bytes generalizing target start with
  | nil => rfl
  | cons b bs ih => simp [overwrite, ih]

/-- Inside the run the new bytes stand, outside it the old ones. -/
theorem getElem?_overwrite (target : Array UInt8) (start : Nat) (bytes : List UInt8) (i : Nat) :
    (overwrite target start bytes)[i]? =
      if start ≤ i ∧ i < start + bytes.length ∧ i < target.size then bytes[i - start]?
      else target[i]? := by
  induction bytes generalizing target start with
  | nil => simp [overwrite]; omega
  | cons b bs ih =>
    rw [overwrite, ih, Array.size_setIfInBounds, Array.getElem?_setIfInBounds, List.length_cons]
    by_cases h : start = i
    · subst h
      simp [show ¬ start + 1 ≤ start by omega]
      split <;> simp_all
    · by_cases hlt : start + 1 ≤ i
      · have hsub : i - start = (i - (start + 1)) + 1 := by omega
        simp only [h, hsub, List.getElem?_cons_succ, if_false]
        congr 1
        simp only [eq_iff_iff]
        omega
      · simp [h, show ¬ start ≤ i by omega, hlt]

/-- A run that does not pass the end replaces as many elements as it has. -/
theorem toList_overwrite {target : Array UInt8} {start : Nat} {bytes : List UInt8}
    (h : start + bytes.length ≤ target.size) :
    (overwrite target start bytes).toList =
      target.toList.take start ++ bytes ++ target.toList.drop (start + bytes.length) := by
  induction bytes generalizing target start with
  | nil => simp [overwrite]
  | cons b bs ih =>
    rw [List.length_cons] at h
    have hstart : start < target.toList.length := by
      rw [Array.length_toList]
      omega
    have htake : (target.toList.set start b).take (start + 1) =
        target.toList.take start ++ [b] := by
      rw [List.take_succ_eq_append_getElem (by rwa [List.length_set]), List.getElem_set_self,
        List.take_set_of_le (Nat.le_refl start)]
    have hdrop : (target.toList.set start b).drop (start + 1 + bs.length) =
        target.toList.drop (start + (b :: bs).length) := by
      rw [List.drop_set_of_lt (by omega), List.length_cons, Nat.add_assoc, Nat.add_comm 1]
    rw [overwrite, ih (by rw [Array.size_setIfInBounds]; omega), Array.toList_setIfInBounds, htake,
      hdrop, List.append_assoc (target.toList.take start), List.singleton_append]

/-- A run over a stretch of the same length takes the place of that stretch. -/
theorem toList_overwrite_append {target : Array UInt8} {front old back bytes : List UInt8}
    (h : target.toList = front ++ old ++ back) (hlength : bytes.length = old.length) :
    (overwrite target front.length bytes).toList = front ++ bytes ++ back := by
  have hsize : target.size = front.length + old.length + back.length := by
    rw [← Array.length_toList, h, List.length_append, List.length_append]
  rw [toList_overwrite (by omega), h, hlength, List.append_assoc front, List.take_left,
    ← List.append_assoc, ← List.length_append, List.drop_left]

end RegisterMachine.Bytes
