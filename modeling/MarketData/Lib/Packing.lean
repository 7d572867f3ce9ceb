import Mathlib.Algebra.Group.Action.Defs
import Mathlib.Algebra.GroupWithZero.Nat
import Mathlib.Algebra.Order.BigOperators.Group.List
import Mathlib.Algebra.Order.Group.Nat
import Mathlib.Data.List.Chain

/-! Packing a sequence of items into bins of one capacity, in order. -/

namespace MarketData

/-- A chain goes on with an element behind its last one. -/
theorem isChain_concat {β : Type} {R : β → β → Prop} {l : List β} {b c : β}
    (chain : (l ++ [b]).IsChain R) (next : R b c) : (l ++ [b] ++ [c]).IsChain R := by
  refine List.isChain_append.mpr ⟨chain, List.isChain_singleton c, ?_⟩
  intro x last y head
  rw [List.getLast?_concat, Option.mem_some_iff] at last
  rw [List.head?_singleton, Option.mem_some_iff] at head
  rwa [← last, ← head]

/-- The last element of a chain can be replaced by one that the others lead to as well. -/
theorem isChain_replace {β : Type} {R : β → β → Prop} {l : List β} {b c : β}
    (chain : (l ++ [b]).IsChain R) (same : ∀ a ∈ l, R a b → R a c) : (l ++ [c]).IsChain R := by
  -- Only the link to the last element is new.
  obtain ⟨before, -, link⟩ := List.isChain_append.mp chain
  refine List.isChain_append.mpr ⟨before, List.isChain_singleton c, ?_⟩
  intro x last y head
  rw [List.head?_singleton, Option.mem_some_iff] at head
  rw [← head]
  exact same x (List.mem_of_getLast? last) (link x last b rfl)

/-- The bins that are closed, and the one that is filled. -/
structure Bins (α : Type) where
  closed : List (List α)
  last : List α

namespace Bins

section Packing

variable {α : Type} (front : Nat) (size : α → Nat) (cap : Nat)

/-- How much a bin holds: something in front, and its items. -/
def load (items : List α) : Nat :=
  front + (items.map size).sum

/-- The next item is put into the last bin, which is closed first when the item does not fit. -/
def place (b : Bins α) (a : α) : Bins α :=
  if cap < load front size b.last + size a then ⟨b.closed ++ [b.last], [a]⟩
  else ⟨b.closed, b.last ++ [a]⟩

/-- These items are packed in order, and no closed bin had room for the item behind it. -/
structure Packs (b : Bins α) (items : List α) : Prop where
  flat : b.closed.flatten ++ b.last = items
  fits : ∀ bin ∈ b.closed, load front size bin ≤ cap
  lastFits : b.last ≠ [] → load front size b.last ≤ cap
  filled : ∀ bin ∈ b.closed, bin ≠ []
  started : b.closed ≠ [] → b.last ≠ []
  tight : (b.closed ++ [b.last]).IsChain fun bin next =>
    ∀ a ∈ next.head?, cap < load front size bin + size a

variable {front size cap}

/-- An item more. -/
theorem load_concat (items : List α) (a : α) :
    load front size (items ++ [a]) = load front size items + size a := by
  rw [load, load, List.map_append, List.sum_append, List.map_singleton, List.sum_singleton,
    Nat.add_assoc]

/-- Nothing is packed yet. -/
theorem packs_nil : Packs front size cap (⟨[], []⟩ : Bins α) [] where
  -- There is no bin, and the open one is empty.
  flat := rfl
  fits _ member := nomatch member
  lastFits some := absurd rfl some
  filled _ member := nomatch member
  started some := absurd rfl some
  tight := List.isChain_singleton []

/-- An item that fits into an empty bin is packed behind the others. -/
theorem Packs.place {b : Bins α} {items : List α} (packs : Packs front size cap b items) {a : α}
    (small : front + size a ≤ cap) : Packs front size cap (b.place front size cap a) (items ++ [a]) := by
  unfold Bins.place
  split
  case isTrue full =>
    -- The last bin is full, so it is not empty, and it fitted before.
    have some : b.last ≠ [] := by
      intro none
      rw [none] at full
      simp only [load, List.map_nil, List.sum_nil] at full
      omega
    exact
      { flat := by
          rw [List.flatten_append, List.flatten_singleton, packs.flat]
        fits := List.forall_mem_append.mpr
          ⟨packs.fits, List.forall_mem_singleton.mpr (packs.lastFits some)⟩
        lastFits := fun _ => by simpa [load] using small
        filled := List.forall_mem_append.mpr ⟨packs.filled, List.forall_mem_singleton.mpr some⟩
        started := fun _ => List.cons_ne_nil a []
        tight := isChain_concat packs.tight fun a' head => by
          rwa [← Option.some.inj head] }
  case isFalse room =>
    -- The last bin takes the item; its first item stays, if it had one.
    exact
      { flat := by rw [← List.append_assoc, packs.flat]
        fits := packs.fits
        lastFits := fun _ => by
          rw [load_concat]
          omega
        filled := packs.filled
        started := fun _ => List.append_ne_nil_of_right_ne_nil _ (List.cons_ne_nil a [])
        tight := isChain_replace packs.tight fun bin member link => by
          obtain ⟨first, rest, last⟩ :=
            List.exists_cons_of_ne_nil (packs.started (List.ne_nil_of_mem member))
          rw [last] at link ⊢
          exact link }

/-- A bin of items of some size has no more of them than its capacity. -/
theorem length_le_of_load {items : List α} (positive : ∀ a ∈ items, 0 < size a)
    (fits : load front size items ≤ cap) : items.length ≤ cap := by
  have count : (items.map size).length ≤ (items.map size).sum :=
    List.length_le_sum_of_one_le _ (List.forall_mem_map.mpr positive)
  rw [List.length_map] at count
  unfold load at fits
  omega

/-- So many bins hold only so many items of some size. -/
theorem Packs.length_le {b : Bins α} {items : List α} (packs : Packs front size cap b items)
    (positive : ∀ a ∈ items, 0 < size a) : items.length ≤ (b.closed.length + 1) * cap := by
  -- Each bin has no more items than its capacity, the last one too.
  rw [← packs.flat] at positive ⊢
  obtain ⟨inClosed, inLast⟩ := List.forall_mem_append.mp positive
  have closed : (b.closed.map List.length).sum ≤ (b.closed.map List.length).length • cap := by
    refine List.sum_le_card_nsmul _ _ (List.forall_mem_map.mpr fun bin member => ?_)
    exact length_le_of_load (fun a inside => inClosed a (List.mem_flatten_of_mem member inside))
      (packs.fits bin member)
  have last : b.last.length ≤ cap := by
    by_cases none : b.last = []
    · simp [none]
    · exact length_le_of_load inLast (packs.lastFits none)
  rw [List.length_map, smul_eq_mul] at closed
  rw [List.length_append, List.length_flatten, Nat.add_mul, Nat.one_mul]
  exact Nat.add_le_add closed last

end Packing

end Bins

end MarketData
