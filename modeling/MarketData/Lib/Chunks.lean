import Mathlib.Data.List.Basic
import Mathlib.Data.Nat.Digits.Lemmas
import MarketData.Lib.WordBytes

/-! Sequences in chunks of one size, and byte strings as numbers. -/

namespace MarketData

variable {α : Type}

/-- The slices `xs[i * k : (i + 1) * k]`, of which only the last one can be shorter. -/
def chunks (k : Nat) (xs : List α) : List (List α) :=
  (List.range ((xs.length + (k - 1)) / k)).map fun i => (xs.drop (i * k)).take k

/-- Nothing has no chunks. -/
@[simp] theorem chunks_nil (k : Nat) : chunks k ([] : List α) = [] := by
  -- Less than one chunk is counted.
  simp only [chunks, List.length_nil, Nat.zero_add, List.map_eq_nil_iff, List.range_eq_nil,
    Nat.div_eq_zero_iff]
  omega

/-- So many elements come first, and the other chunks are those of the rest. -/
theorem chunks_cons {k : Nat} (positive : 0 < k) {xs : List α} (some : xs ≠ []) :
    chunks k xs = xs.take k :: chunks k (xs.drop k) := by
  -- There is one chunk more than in the rest.
  have length := List.length_pos_iff.mpr some
  have count : (xs.length + (k - 1)) / k = ((xs.drop k).length + (k - 1)) / k + 1 := by
    rw [List.length_drop]
    rcases Nat.lt_or_ge xs.length k with short | long
    · have none : xs.length - k = 0 := by omega
      have once : xs.length + (k - 1) = xs.length - 1 + k := by omega
      rw [none, once, Nat.add_div_right _ positive, Nat.div_eq_of_lt (by omega),
        Nat.div_eq_of_lt (by omega)]
    · have one : xs.length + (k - 1) = xs.length - k + (k - 1) + k := by omega
      rw [one, Nat.add_div_right _ positive]
  unfold chunks
  rw [count, List.range_succ_eq_map, List.map_cons, List.map_map, Nat.zero_mul, List.drop_zero]
  congr 1
  refine List.map_congr_left fun i _ => ?_
  have place : (i + 1) * k = k + i * k := by rw [Nat.succ_mul, Nat.add_comm]
  rw [Function.comp_apply, Nat.succ_eq_add_one, place, List.drop_drop]

/-- The chunks in order are the sequence again. -/
theorem flatten_chunks {k : Nat} (positive : 0 < k) (xs : List α) : (chunks k xs).flatten = xs := by
  -- Induction on the length; the first chunk is cut off.
  induction h : xs.length using Nat.strong_induction_on generalizing xs with
  | _ n ih =>
    rcases eq_or_ne xs [] with rfl | some
    · simp
    · have length := List.length_pos_iff.mpr some
      rw [chunks_cons positive some, List.flatten_cons,
        ih (xs.drop k).length (by rw [List.length_drop]; omega) _ rfl, List.take_append_drop]

/-- `int.from_bytes(bs, "little")`. -/
def intFromBytesLittle (bs : List Byte) : Nat :=
  Nat.ofDigits 256 (bs.map BitVec.toNat)

/-- `int.from_bytes(bs, "big")`. -/
def intFromBytesBig (bs : List Byte) : Nat :=
  intFromBytesLittle bs.reverse

/-- A byte of a number is found by dividing by a power of 256. -/
theorem intFromBytesLittle_div (bs : List Byte) (k : Nat) :
    intFromBytesLittle bs / 256 ^ k % 256 = (bs.getD k 0#8).toNat := by
  -- The bytes from `k` on are left, and the first of them is the remainder.
  have small : ∀ d ∈ bs.map BitVec.toNat, d < 256 := by
    intro d member
    obtain ⟨b, -, rfl⟩ := List.mem_map.mp member
    exact b.isLt
  rw [intFromBytesLittle, Nat.ofDigits_div_pow_eq_ofDigits_drop k (by decide) _ small,
    ← List.map_drop, List.getD_eq_getElem?_getD, ← List.head?_drop]
  cases bs.drop k with
  | nil => rfl
  | cons b rest =>
    rw [List.map_cons, Nat.ofDigits_cons, Nat.add_mul_mod_self_left, List.head?_cons,
      Option.getD_some]
    exact Nat.mod_eq_of_lt b.isLt

/-- A number of so many bytes fits into them. -/
theorem intFromBytesLittle_lt (bs : List Byte) : intFromBytesLittle bs < 256 ^ bs.length := by
  -- The bytes are digits to the base 256.
  have small : ∀ d ∈ bs.map BitVec.toNat, d < 256 := by
    intro d member
    obtain ⟨b, -, rfl⟩ := List.mem_map.mp member
    exact b.isLt
  have bound := Nat.ofDigits_lt_base_pow_length (by decide) small
  rwa [List.length_map] at bound

end MarketData
