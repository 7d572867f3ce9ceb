import Mathlib.Data.List.Chain
import Mathlib.Data.List.Forall2
import MarketData.Lib.Groups
import MarketData.Lib.Stage

/-! Streams whose groups come without a break, as framed streams. -/

namespace MarketData

variable {α γ : Type}

/-- Nothing stands between a valid element and the rest of its group. -/
def Steady (valid ends : α → Bool) (xs : List α) : Prop :=
  xs.IsChain fun x y => valid x = true → ends x = false → valid y = true

variable {valid ends : α → Bool} {carries : γ → List α → Prop} {idles xs : List α}

/-- A stream goes on steadily behind an element that is not valid. -/
theorem Steady.cons {x : α} (quiet : valid x = false) (steady : Steady valid ends xs) :
    Steady valid ends (x :: xs) := by
  -- An element that is not valid asks nothing of the next one.
  cases xs with
  | nil => exact List.isChain_singleton x
  | cons y ys =>
    refine List.isChain_cons_cons.mpr ⟨fun loud => ?_, steady⟩
    rw [quiet] at loud
    cases loud

/-- The valid elements of a steady stream are framed, group by group, by the other ones. -/
theorem Steady.framed_from (calm : ∀ q ∈ idles, valid q = false) :
    ∀ {ps : List γ} {front : List α}, Steady valid ends xs →
      (front ≠ [] → ∀ x ∈ xs.head?, valid x = true) →
      openAfter ends front (xs.filter valid) = [] →
      List.Forall₂ carries ps (groupsFrom ends front (xs.filter valid)) →
      Framed (fun x => valid x = false) carries 0 0 idles.length ps (front ++ xs ++ idles) := by
  -- Element by element; `front` is what has been seen of a group that is still open.
  induction xs with
  | nil =>
    intro ps front _ _ closed carried
    rw [List.filter_nil] at closed carried
    change front = [] at closed
    subst closed
    cases carried
    exact .done calm (Nat.le_refl _)
  | cons x xs ih =>
    intro ps front steady goes closed carried
    have later : Steady valid ends xs := List.IsChain.tail steady
    cases here : valid x with
    | false =>
      -- No group is open, so the element stands between two of them.
      have between : front = [] := by
        by_contra inside
        have loud := goes inside x rfl
        rw [here] at loud
        cases loud
      subst between
      rw [List.filter_cons, here, if_neg Bool.false_ne_true] at closed carried
      have single : ∀ q ∈ [x], valid q = false := List.forall_mem_singleton.mpr here
      have rest := ih later (fun some => (some rfl).elim) closed carried
      have framed := rest.prepend single
      exact framed
    | true =>
      rw [List.filter_cons, here, if_pos rfl] at closed carried
      rw [groupsFrom] at carried
      rw [openAfter] at closed
      rw [← List.singleton_append, ← List.append_assoc front]
      cases last : ends x with
      | true =>
        rw [last, if_pos rfl] at closed carried
        obtain ⟨p, ps, first, others, rfl⟩ := List.forall₂_cons_right_iff.mp carried
        have rest := ih later (fun some => (some rfl).elim) closed others
        have framed : Framed (fun x => valid x = false) carries 0 0 idles.length (p :: ps)
            ([] ++ (front ++ [x]) ++ [] ++ ([] ++ xs ++ idles)) :=
          .packet (fun q member => absurd member List.not_mem_nil) (Nat.le_refl 0) first
            (fun t member => absurd member List.not_mem_nil) rfl rest
        rw [List.append_nil] at framed
        simpa only [List.nil_append, List.append_assoc] using framed
      | false =>
        -- The group stays open, and the stream goes on with it.
        rw [last, if_neg Bool.false_ne_true] at closed carried
        refine ih later (fun _ y head => ?_) closed carried
        cases xs with
        | nil => cases head
        | cons z zs =>
          obtain rfl : z = y := Option.some.inj head
          exact (List.isChain_cons_cons.mp steady).1 here last

/-- A steady stream whose groups are all ended is framed. -/
theorem Steady.framed {ps : List γ} (steady : Steady valid ends xs)
    (closed : openAfter ends [] (xs.filter valid) = [])
    (carried : List.Forall₂ carries ps (groupsFrom ends [] (xs.filter valid)))
    (calm : ∀ q ∈ idles, valid q = false) :
    Framed (fun x => valid x = false) carries 0 0 idles.length ps (xs ++ idles) :=
  Steady.framed_from calm steady (fun some => (some rfl).elim) closed carried

end MarketData
