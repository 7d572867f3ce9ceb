import Mathlib.Data.Finset.Sort

/-! A set kept as its elements in ascending order, each of them once. -/

namespace MarketData

/-- A strictly ascending list. -/
structure SortedSet (α : Type) [LinearOrder α] where
  elems : List α
  sorted : elems.Pairwise (· < ·)

section

variable {α : Type} [LinearOrder α]

/-- An element is put in front of the first larger one, unless it is there. -/
def insertSorted (x : α) : List α → List α
  | [] => [x]
  | y :: ys => if x < y then x :: y :: ys else if x = y then y :: ys else y :: insertSorted x ys

/-- An insertion adds the element and takes none away. -/
theorem mem_insertSorted (x z : α) (ys : List α) :
    z ∈ insertSorted x ys ↔ z = x ∨ z ∈ ys := by
  -- Induction on the list, by the place of the element.
  induction ys with
  | nil => simp [insertSorted]
  | cons y ys ih =>
    unfold insertSorted
    split
    · simp
    · split
      · rename_i same
        simp [same]
      · simp only [List.mem_cons, ih]
        exact or_left_comm

/-- An insertion keeps the order. -/
theorem pairwise_insertSorted (x : α) {ys : List α} (sorted : ys.Pairwise (· < ·)) :
    (insertSorted x ys).Pairwise (· < ·) := by
  -- Induction on the list, by the place of the element.
  induction ys with
  | nil => simp [insertSorted]
  | cons y ys ih =>
    obtain ⟨above, rest⟩ := List.pairwise_cons.mp sorted
    unfold insertSorted
    split
    · rename_i below
      refine List.pairwise_cons.mpr ⟨fun z member => ?_, sorted⟩
      rcases List.mem_cons.mp member with rfl | later
      · exact below
      · exact below.trans (above z later)
    · split
      · exact sorted
      · rename_i notBelow other
        refine List.pairwise_cons.mpr ⟨fun z member => ?_, ih rest⟩
        rcases (mem_insertSorted x z ys).mp member with rfl | later
        · exact lt_of_le_of_ne (not_lt.mp notBelow) (Ne.symm other)
        · exact above z later

namespace SortedSet

variable [DecidableEq α]

/-- The set without elements. -/
def empty : SortedSet α :=
  ⟨[], List.Pairwise.nil⟩

/-- The set with one more element. -/
def insert (x : α) (s : SortedSet α) : SortedSet α :=
  ⟨insertSorted x s.elems, pairwise_insertSorted x s.sorted⟩

/-- The set as a finite set. -/
def toFinset (s : SortedSet α) : Finset α :=
  s.elems.toFinset

/-- Nothing is in the empty set. -/
@[simp] theorem toFinset_empty : (empty : SortedSet α).toFinset = ∅ :=
  rfl

/-- An insertion is an insertion into the finite set. -/
@[simp] theorem toFinset_insert (x : α) (s : SortedSet α) :
    (s.insert x).toFinset = Insert.insert x s.toFinset := by
  -- Both have the same elements.
  ext z
  simp [toFinset, insert, mem_insertSorted]

/-- The elements in ascending order are those of the finite set, sorted. -/
theorem sort_toFinset (s : SortedSet α) : s.toFinset.sort (· ≤ ·) = s.elems := by
  -- The list is sorted already.
  have once : s.elems.Nodup := s.sorted.imp fun below => below.ne
  exact (List.toFinset_sort (· ≤ ·) once).mpr (s.sorted.imp fun below => below.le)

/-- A set without elements has none in its list. -/
theorem elems_eq_nil_iff (s : SortedSet α) : s.elems = [] ↔ s.toFinset = ∅ :=
  (List.toFinset_eq_empty_iff s.elems).symm

end SortedSet

end

end MarketData
