import Mathlib.Data.List.Nodup
import Mathlib.Data.List.Range
import Mathlib.Tactic.Common

/-! Generators that append records and number them one after another. -/

namespace MarketData

/-- From the last number in use: a result, the last number then, and the records appended. -/
def Emit (ρ α : Type) : Type :=
  Nat → Option (α × Nat × List ρ)

namespace Emit

variable {ρ α β γ : Type}

/-- Generators run one after another; what the second appends follows what the first did. -/
instance : Monad (Emit ρ) where
  pure a := fun last => some (a, last, [])
  bind m f := fun last =>
    (m last).bind fun (a, mid, front) =>
      (f a mid).map fun (b, final, rest) => (b, final, front ++ rest)

/-- Append one record under the next number. -/
def record (make : Nat → ρ) : Emit ρ Nat :=
  fun last => some (last + 1, last + 1, [make (last + 1)])

/-- A lookup that fails makes the generator fail. -/
def found (o : Option α) : Emit ρ α :=
  fun last => o.map fun a => (a, last, [])

variable (number : ρ → Nat)

/-- The generator succeeds from every number, numbers consecutively, and this holds afterwards. -/
def Emits (m : Emit ρ α) (Q : α → List ρ → Prop) : Prop :=
  ∀ last, ∃ a rs, m last = some (a, last + rs.length, rs) ∧
    rs.map number = List.range' (last + 1) rs.length ∧ Q a rs

variable {number}

/-- A result that needs no record. -/
theorem emits_pure {Q : α → List ρ → Prop} {a : α} (holds : Q a []) :
    Emits number (pure a) Q :=
  fun _ => ⟨a, [], rfl, rfl, holds⟩

/-- One record gets the next number. -/
theorem emits_record {Q : Nat → List ρ → Prop} {make : Nat → ρ}
    (numbered : ∀ u, number (make u) = u) (holds : ∀ u, Q u [make u]) :
    Emits number (record make) Q :=
  fun last => ⟨last + 1, [make (last + 1)], rfl, by simp [numbered], holds _⟩

/-- A lookup that succeeds. -/
theorem emits_found {Q : α → List ρ → Prop} {o : Option α} {a : α} (some : o = some a)
    (holds : Q a []) : Emits number (found o) Q :=
  fun last => ⟨a, [], by simp [found, some], rfl, holds⟩

/-- A generator does no less than a weaker postcondition says. -/
theorem Emits.mono {P Q : α → List ρ → Prop} {m : Emit ρ α} (emits : Emits number m P)
    (weaker : ∀ a rs, P a rs → Q a rs) : Emits number m Q := by
  intro last
  obtain ⟨a, rs, run, numbers, holds⟩ := emits last
  exact ⟨a, rs, run, numbers, weaker a rs holds⟩

/-- Two generators one after the other. -/
theorem Emits.bind {P : α → List ρ → Prop} {Q : β → List ρ → Prop} {m : Emit ρ α}
    {f : α → Emit ρ β} (first : Emits number m P)
    (second : ∀ a rs, P a rs → Emits number (f a) fun b rs' => Q b (rs ++ rs')) :
    Emits number (m >>= f) Q := by
  -- The second starts at the last number of the first.
  intro last
  obtain ⟨a, rs, run, numbers, holds⟩ := first last
  obtain ⟨b, rs', run', numbers', holds'⟩ := second a rs holds (last + rs.length)
  refine ⟨b, rs ++ rs', ?_, ?_, holds'⟩
  · show (m last).bind _ = _
    simp [run, run', Nat.add_assoc]
  · rw [List.map_append, numbers, numbers', List.length_append,
      show last + rs.length + 1 = last + 1 + 1 * rs.length by omega, List.range'_append]

/-- A loop keeps an invariant of what it has gone through, its state and the records so far. -/
theorem emits_foldlM {f : β → γ → Emit ρ β} (Inv : List γ → β → List ρ → Prop) (xs : List γ)
    (step : ∀ done x rest, xs = done ++ x :: rest → ∀ b rs, Inv done b rs →
      Emits number (f b x) fun b' rs' => Inv (done ++ [x]) b' (rs ++ rs'))
    {b : β} (start : Inv [] b []) : Emits number (xs.foldlM f b) (Inv xs) := by
  -- Induction on what is still to come, behind what is done.
  have from_here : ∀ todo done, xs = done ++ todo → ∀ b rs, Inv done b rs →
      Emits number (todo.foldlM f b) fun b' rs' => Inv xs b' (rs ++ rs') := by
    intro todo
    induction todo with
    | nil =>
      intro done whole b rs inv
      rw [List.append_nil] at whole
      exact emits_pure (by simpa [whole] using inv)
    | cons x todo ih =>
      intro done whole b rs inv
      rw [List.foldlM_cons]
      refine (step done x todo whole b rs inv).bind fun b' rs' inv' => ?_
      simpa only [List.append_assoc] using ih (done ++ [x]) (by simp [whole]) b' _ inv'
  simpa using from_here xs [] rfl b [] start

/-- The records of a generator have different numbers. -/
theorem Emits.nodup {Q : α → List ρ → Prop} {m : Emit ρ α} (emits : Emits number m Q)
    {last next : Nat} {a : α} {rs : List ρ} (run : m last = some (a, next, rs)) :
    (rs.map number).Nodup := by
  -- They are consecutive.
  obtain ⟨a', rs', run', numbers, -⟩ := emits last
  obtain ⟨-, -, rfl⟩ : a = a' ∧ next = last + rs'.length ∧ rs = rs' := by
    simpa [run] using run'
  exact numbers ▸ List.nodup_range'

end Emit

end MarketData
