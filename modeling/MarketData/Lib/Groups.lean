import Mathlib.Data.List.Basic

/-! Sequences in groups: an element that ends a group is its last one. -/

namespace MarketData

variable {α : Type} (ends : α → Bool)

/-- The groups that are ended, the first one begun by the elements in front. -/
def groupsFrom : List α → List α → List (List α)
  | _, [] => []
  | front, x :: xs =>
    if ends x then (front ++ [x]) :: groupsFrom [] xs else groupsFrom (front ++ [x]) xs

/-- The group that is still open behind some elements. -/
def openAfter : List α → List α → List α
  | front, [] => front
  | front, x :: xs => if ends x then openAfter [] xs else openAfter (front ++ [x]) xs

variable {ends}

/-- More elements go on with the open group. -/
theorem groupsFrom_append (front xs ys : List α) :
    groupsFrom ends front (xs ++ ys) =
      groupsFrom ends front xs ++ groupsFrom ends (openAfter ends front xs) ys := by
  -- Element by element.
  induction xs generalizing front with
  | nil => rfl
  | cons x xs ih =>
    rw [List.cons_append, groupsFrom, groupsFrom, openAfter]
    split
    · rw [ih, List.cons_append]
    · exact ih _

/-- What is open behind more elements is open behind all of them. -/
theorem openAfter_append (front xs ys : List α) :
    openAfter ends front (xs ++ ys) = openAfter ends (openAfter ends front xs) ys := by
  -- Element by element.
  induction xs generalizing front with
  | nil => rfl
  | cons x xs ih =>
    rw [List.cons_append, openAfter, openAfter]
    split
    · exact ih _
    · exact ih _

/-- Elements that end no group stay open. -/
theorem openAfter_of_inner {xs : List α} (inner : ∀ x ∈ xs, ends x = false) (front : List α) :
    groupsFrom ends front xs = [] ∧ openAfter ends front xs = front ++ xs := by
  -- Element by element.
  induction xs generalizing front with
  | nil => exact ⟨rfl, (List.append_nil front).symm⟩
  | cons x xs ih =>
    obtain ⟨open', others⟩ := List.forall_mem_cons.mp inner
    obtain ⟨groups, rest⟩ := ih others (front ++ [x])
    rw [groupsFrom, openAfter, open', if_neg Bool.false_ne_true, if_neg Bool.false_ne_true, groups,
      rest, List.append_assoc, List.singleton_append]
    exact ⟨rfl, rfl⟩

/-- Behind them the element that ends a group closes it. -/
theorem groupsFrom_closed {xs : List α} (inner : ∀ x ∈ xs, ends x = false) {y : α}
    (last : ends y = true) (front : List α) :
    groupsFrom ends front (xs ++ [y]) = [front ++ xs ++ [y]] ∧
      openAfter ends front (xs ++ [y]) = [] := by
  obtain ⟨groups, rest⟩ := openAfter_of_inner inner front
  rw [groupsFrom_append, openAfter_append, groups, rest, groupsFrom, openAfter, last, if_pos rfl,
    if_pos rfl]
  exact ⟨rfl, rfl⟩

/-- The groups and what is still open are all elements, in order. -/
theorem flatten_groupsFrom (front xs : List α) :
    (groupsFrom ends front xs).flatten ++ openAfter ends front xs = front ++ xs := by
  -- Element by element.
  induction xs generalizing front with
  | nil => rw [groupsFrom, openAfter, List.flatten_nil, List.nil_append, List.append_nil]
  | cons x xs ih =>
    rw [groupsFrom, openAfter]
    split
    · rw [List.flatten_cons, List.append_assoc, ih, List.nil_append, List.append_assoc,
        List.singleton_append]
    · rw [ih, List.append_assoc, List.singleton_append]

end MarketData
