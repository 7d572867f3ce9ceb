import Mathlib.Data.List.Basic
import Mathlib.Data.BitVec
import Mathlib.Logic.Function.Basic
import Mathlib.Tactic.Common

/-! Ring buffers whose pointers carry one bit more than the index, and the queues they hold. -/

namespace MarketData

/-- A memory of `2 ^ n` cells with a write and a read pointer. -/
structure Ring (n : Nat) (α : Type) where
  mem : BitVec n → α
  wp : BitVec (n + 1)
  rp : BitVec (n + 1)

/-- The cell that a pointer points to. -/
def Ring.cell {n : Nat} (p : BitVec (n + 1)) : BitVec n :=
  p.setWidth n

/-- The value is written and the write pointer advanced. -/
def Ring.push {n : Nat} {α : Type} (r : Ring n α) (x : α) : Ring n α :=
  { r with mem := Function.update r.mem (cell r.wp) x, wp := r.wp + 1 }

/-- The read pointer is advanced. -/
def Ring.pop {n : Nat} {α : Type} (r : Ring n α) : Ring n α :=
  { r with rp := r.rp + 1 }

/-- The queue is what lies between the read and the write pointer. -/
structure Ring.Holds {n : Nat} {α : Type} (r : Ring n α) (q : List α) : Prop where
  fits : q.length ≤ 2 ^ n
  count : r.wp = r.rp + BitVec.ofNat (n + 1) q.length
  cells : ∀ k (inside : k < q.length), r.mem (cell (r.rp + BitVec.ofNat (n + 1) k)) = q[k]

section Ring

variable {n : Nat} {α : Type} {r : Ring n α} {q : List α}

/-- The cell of a pointer moved on is the cell moved on. -/
theorem Ring.cell_add (p : BitVec (n + 1)) (k : Nat) :
    cell (p + BitVec.ofNat (n + 1) k) = cell p + BitVec.ofNat n k := by
  -- Dropping the top bit commutes with adding.
  rw [cell, cell, BitVec.setWidth_add _ _ (Nat.le_succ n), BitVec.setWidth_ofNat_of_le (Nat.le_succ n)]

/-- Offsets less than one revolution apart lead to different cells. -/
theorem Ring.cell_ne (p : BitVec (n + 1)) {j k : Nat} (below : j < 2 ^ n) (above : k < 2 ^ n)
    (differ : j ≠ k) :
    cell (p + BitVec.ofNat (n + 1) j) ≠ cell (p + BitVec.ofNat (n + 1) k) := by
  -- The cells are as far apart as the offsets.
  rw [Ring.cell_add, Ring.cell_add, Ne, BitVec.add_right_inj]
  intro same
  have numbers := congrArg BitVec.toNat same
  rw [BitVec.toNat_ofNat, BitVec.toNat_ofNat, Nat.mod_eq_of_lt below, Nat.mod_eq_of_lt above]
    at numbers
  exact differ numbers

/-- The distance of the pointers is the length of the queue. -/
theorem Ring.Holds.distance (holds : r.Holds q) : (r.wp - r.rp).toNat = q.length := by
  -- The length is less than the range of the pointers.
  have fits := holds.fits
  have positive := Nat.two_pow_pos n
  have small : q.length < 2 ^ (n + 1) := by
    rw [Nat.pow_succ]
    omega
  rw [holds.count, BitVec.add_comm, BitVec.add_sub_cancel, BitVec.toNat_ofNat,
    Nat.mod_eq_of_lt small]

/-- The pointers are equal exactly when the queue is empty. -/
theorem Ring.Holds.empty_iff (holds : r.Holds q) : r.wp = r.rp ↔ q = [] := by
  -- The distance is zero in both cases.
  rw [← List.length_eq_zero_iff, ← holds.distance]
  constructor
  · intro same
    rw [same]
    simp
  · intro none
    have zero : r.wp - r.rp = 0#(n + 1) := BitVec.eq_of_toNat_eq none
    simpa using BitVec.sub_eq_iff_eq_add.mp zero

/-- Different pointers lead to the same cell exactly when the queue is full. -/
theorem Ring.Holds.full_iff (holds : r.Holds q) :
    (cell r.wp = cell r.rp ∧ r.wp ≠ r.rp) ↔ q.length = 2 ^ n := by
  -- The cells agree when the length is a multiple of the capacity.
  have fits := holds.fits
  have positive := Nat.two_pow_pos n
  have cells : cell r.wp = cell r.rp ↔ q.length % 2 ^ n = 0 := by
    rw [holds.count, Ring.cell_add, BitVec.add_right_eq_self]
    constructor
    · intro zero
      simpa using congrArg BitVec.toNat zero
    · intro zero
      exact BitVec.eq_of_toNat_eq (by simpa using zero)
  rw [cells, Ne, holds.empty_iff, ← List.length_eq_zero_iff]
  constructor
  · rintro ⟨multiple, some⟩
    rcases Nat.lt_or_eq_of_le fits with less | all
    · rw [Nat.mod_eq_of_lt less] at multiple
      exact absurd multiple some
    · exact all
  · intro all
    rw [all]
    exact ⟨Nat.mod_self _, by omega⟩

/-- Equal pointers hold the empty queue. -/
theorem Ring.Holds.of_eq (same : r.wp = r.rp) : r.Holds [] where
  fits := Nat.zero_le _
  count := by simpa using same
  cells k inside := absurd inside (Nat.not_lt_zero k)

/-- The cell at the read pointer is the head of the queue. -/
theorem Ring.Holds.head {x : α} (holds : r.Holds (x :: q)) : r.mem (cell r.rp) = x := by
  -- The first cell is at offset zero.
  simpa using holds.cells 0 (Nat.succ_pos _)

/-- A value pushed on a queue that is not full is its last one. -/
theorem Ring.Holds.push (holds : r.Holds q) (space : q.length < 2 ^ n) (x : α) :
    (r.push x).Holds (q ++ [x]) := by
  -- The old cells are not overwritten, because the new one lies ahead of them.
  refine ⟨by simpa [Nat.succ_le_iff] using space, ?_, ?_⟩
  · simp only [Ring.push, holds.count, List.length_append, List.length_singleton, BitVec.add_assoc,
      BitVec.ofNat_add]
    rfl
  · intro k inside
    rw [List.length_append, List.length_singleton] at inside
    simp only [Ring.push, holds.count]
    rcases Nat.lt_or_eq_of_le (Nat.le_of_lt_succ inside) with old | new
    · rw [Function.update_of_ne (Ring.cell_ne r.rp (by omega) space (by omega)),
        List.getElem_append_left old]
      exact holds.cells k old
    · subst new
      simp

/-- Popping a queue removes its head. -/
theorem Ring.Holds.pop {x : α} (holds : r.Holds (x :: q)) : r.pop.Holds q := by
  -- Offsets from the next cell are one less.
  have move : ∀ k, r.rp + 1 + BitVec.ofNat (n + 1) k = r.rp + BitVec.ofNat (n + 1) (k + 1) := by
    intro k
    rw [BitVec.add_assoc, Nat.add_comm k 1, BitVec.ofNat_add]
    rfl
  have fits := holds.fits
  rw [List.length_cons] at fits
  refine ⟨by omega, ?_, ?_⟩
  · show r.wp = r.rp + 1 + _
    rw [move, holds.count, List.length_cons]
  · intro k inside
    show r.mem (cell (r.rp + 1 + _)) = _
    rw [move, holds.cells (k + 1) (by simpa using inside)]
    rfl

end Ring

end MarketData
