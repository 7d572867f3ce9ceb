import Mathlib.Algebra.GroupWithZero.Nat
import Mathlib.Tactic.Common

/-! Potentials over the runs of a machine: accounts that are kept, and waits that come to an end. -/

namespace MarketData

variable {σ ι : Type} (step : σ → ι → σ)

/-- The states behind each step of a run. -/
def visited : σ → List ι → List σ
  | _, [] => []
  | s, i :: is => step s i :: visited (step s i) is

variable {step}

/-- An invariant of the steps is one of the run. -/
theorem foldl_invariant {inv : σ → Prop} (kept : ∀ s i, inv s → inv (step s i)) {s : σ} (start : inv s)
    (is : List ι) : inv (is.foldl step s) := by
  induction is generalizing s with
  | nil => exact start
  | cons i is ih => exact ih (kept s i start)

/-- Steps that pay their cost from their gain and the balance keep the account of a whole run. -/
theorem amortized {inv : σ → Prop} {cost gain : σ → Nat} {balance : σ → Int}
    (kept : ∀ s i, inv s → inv (step s i))
    (pays : ∀ s i, inv s → cost (step s i) + balance (step s i) ≤ gain (step s i) + balance s)
    {s : σ} (start : inv s) (is : List ι) :
    (((visited step s is).map cost).sum : Int) + balance (is.foldl step s) ≤
      ((visited step s is).map gain).sum + balance s := by
  -- Step by step: the balance in between cancels.
  induction is generalizing s with
  | nil => simp [visited]
  | cons i is ih =>
    have here := pays s i start
    have later := ih (kept s i start)
    rw [visited, List.map_cons, List.map_cons, List.sum_cons, List.sum_cons, List.foldl_cons]
    omega

/-- A wait that each step shortens comes to an end, whatever the inputs are. -/
theorem wait_ends {inv : σ → Prop} {wait : σ → Nat}
    (shorter : ∀ s i, inv s → 0 < wait s → inv (step s i) ∧ wait (step s i) < wait s) {s : σ}
    (start : inv s) {is : List ι} (long : wait s ≤ is.length) :
    ∃ k ≤ wait s, inv ((is.take k).foldl step s) ∧ wait ((is.take k).foldl step s) = 0 := by
  -- Input by input: the wait is over, or it is shorter behind the next one.
  induction is generalizing s with
  | nil => exact ⟨0, Nat.zero_le _, start, Nat.le_zero.mp long⟩
  | cons i is ih =>
    rcases Nat.eq_zero_or_pos (wait s) with ended | waits
    · exact ⟨0, Nat.zero_le _, start, ended⟩
    · obtain ⟨kept, less⟩ := shorter s i start waits
      rw [List.length_cons] at long
      obtain ⟨k, bound, ends⟩ := ih kept (by omega)
      exact ⟨k + 1, by omega, ends⟩

end MarketData
