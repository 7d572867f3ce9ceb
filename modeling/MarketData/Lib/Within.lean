import Mathlib.Algebra.GroupWithZero.Nat
import Mathlib.Data.List.Basic
import Mathlib.Tactic.Common

/-! The leading items of a sequence that fit into a prefix of its concatenation. -/

namespace MarketData

variable {α β : Type}

/-- The items lying wholly inside the first `n` places, each taking `size` of them. -/
def takeWithin (size : α → Nat) : List α → Nat → List α
  | [], _ => []
  | a :: as, n => if size a ≤ n then a :: takeWithin size as (n - size a) else []

/-- A first item that does not fit hides everything behind it. -/
theorem takeWithin_none {size : α → Nat} {a : α} {as : List α} {n : Nat} (short : n < size a) :
    takeWithin size (a :: as) n = [] := by
  -- The first comparison fails, and nothing behind it is looked at.
  rw [takeWithin, if_neg (by omega)]

/-- A first item that fits is taken, and the rest is measured from its end. -/
theorem takeWithin_some {size : α → Nat} {a : α} {as : List α} {n : Nat} (fits : size a ≤ n) :
    takeWithin size (a :: as) n = a :: takeWithin size as (n - size a) := by
  -- The first comparison holds.
  rw [takeWithin, if_pos fits]

/-- Room for every item takes every item. -/
theorem takeWithin_all {size : α → Nat} {as : List α} {n : Nat}
    (room : (as.map size).sum ≤ n) : takeWithin size as n = as := by
  -- Induction on the items; the room left is enough for the rest.
  induction as generalizing n with
  | nil => rfl
  | cons a as ih =>
    simp only [List.map_cons, List.sum_cons] at room
    rw [takeWithin_some (by omega), ih (by omega)]

/-- A first part that has arrived whole can be cut off, and the rest follows it. -/
theorem first_arrived {as rest first tail : List α} (whole : as ++ rest = first ++ tail)
    (enough : first.length ≤ as.length) :
    as.take first.length = first ∧ as.drop first.length ++ rest = tail := by
  -- Both sides are cut at the end of the first part.
  have split : as.take first.length ++ (as.drop first.length ++ rest) = first ++ tail := by
    rw [← List.append_assoc, List.take_append_drop, whole]
  exact List.append_inj split (List.length_take_of_le enough)

end MarketData
