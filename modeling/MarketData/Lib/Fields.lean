import Mathlib.Data.List.TakeWhile
import Mathlib.Tactic.Common

/-! The fields of a text, which runs of separators set apart. -/

namespace MarketData

section

variable {α : Type} {p q : α → Bool}

/-- The nonempty runs between separators. -/
def fields (p : α → Bool) (text : List α) : List (List α) :=
  (text.splitOnP p).filter fun field => decide (field ≠ [])

/-- A text without a character has no fields. -/
@[simp] theorem fields_nil (p : α → Bool) : fields p [] = [] := by
  -- Its only run is empty.
  simp [fields]

/-- A separator at the front makes no field. -/
theorem fields_separator {x : α} (separator : p x = true) (text : List α) :
    fields p (x :: text) = fields p text := by
  -- The run in front of it is empty.
  simp [fields, List.splitOnP_cons_eq_if_modifyHead, separator]

/-- Two texts with a separator between them have the fields of the first and then of the second. -/
theorem fields_append_separator {x : α} (separator : p x = true) (first second : List α) :
    fields p (first ++ x :: second) = fields p first ++ fields p second := by
  -- The runs are those of the two texts.
  rw [fields, List.splitOnP_append_cons first second separator, List.filter_append]
  rfl

/-- A text without a separator is a field, unless it is empty. -/
theorem fields_run {text : List α} (whole : ∀ x ∈ text, p x = false) (present : text ≠ []) :
    fields p text = [text] := by
  -- It is the only run.
  rw [fields, List.splitOnP_eq_singleton whole]
  simp [present]

/-- Separators at the end make no field. -/
theorem fields_append_separators (text : List α) {blanks : List α}
    (separators : ∀ x ∈ blanks, p x = true) : fields p (text ++ blanks) = fields p text := by
  -- What is behind the first of them are separators only.
  have silent : ∀ {tail : List α}, (∀ x ∈ tail, p x = true) → fields p tail = [] := by
    intro tail
    induction tail with
    | nil => exact fun _ => fields_nil p
    | cons x tail ih =>
      intro all
      rw [fields_separator (all x (by simp))]
      exact ih fun y member => all y (by simp [member])
  cases blanks with
  | nil => rw [List.append_nil]
  | cons x tail =>
    have rest : fields p tail = [] := silent fun y member => separators y (by simp [member])
    rw [fields_append_separator (separators x (by simp)), rest, List.append_nil]

/-- Separators at the front make no field. -/
theorem fields_dropWhile (text : List α) : fields p (text.dropWhile p) = fields p text := by
  -- One separator after the other.
  induction text with
  | nil => rfl
  | cons x text ih =>
    rw [List.dropWhile_cons]
    split
    · rename_i separator
      rw [ih, fields_separator separator]
    · rfl

/-- Cutting off the separators at both ends leaves the fields. -/
theorem fields_strip (text : List α) :
    fields p ((text.dropWhile p).reverse.dropWhile p).reverse = fields p text := by
  -- What is cut off at the end are separators.
  have parts : text.dropWhile p =
      ((text.dropWhile p).reverse.dropWhile p).reverse ++
        ((text.dropWhile p).reverse.takeWhile p).reverse := by
    rw [← List.reverse_append, List.takeWhile_append_dropWhile, List.reverse_reverse]
  have separators : ∀ x ∈ ((text.dropWhile p).reverse.takeWhile p).reverse, p x = true := by
    intro x member
    exact List.mem_takeWhile_imp (List.mem_reverse.mp member)
  rw [← fields_dropWhile text, parts, fields_append_separators _ separators, ← parts]

/-- The fields depend on which characters of the text are separators. -/
theorem fields_congr {text : List α} (same : ∀ x ∈ text, p x = q x) :
    fields p text = fields q text := by
  -- The runs are the same.
  have runs : text.splitOnP p = text.splitOnP q := by
    induction text with
    | nil => rfl
    | cons x text ih =>
      rw [List.splitOnP_cons_eq_if_modifyHead, List.splitOnP_cons_eq_if_modifyHead,
        same x (by simp), ih fun y member => same y (by simp [member])]
  rw [fields, runs, fields]

/-- The first field of a text that begins with one. -/
theorem fields_first {text : List α} (present : text ≠ [])
    (starts : text.dropWhile p = text) :
    fields p text = text.takeWhile (fun x => !p x) ::
      fields p (text.dropWhile fun x => !p x).tail := by
  -- The field ends in front of the first separator or with the text.
  have split : text.takeWhile (fun x => !p x) ++ text.dropWhile (fun x => !p x) = text :=
    List.takeWhile_append_dropWhile
  have whole : ∀ x ∈ text.takeWhile (fun x => !p x), p x = false := by
    intro x member
    simpa using List.mem_takeWhile_imp member
  have nonempty : text.takeWhile (fun x => !p x) ≠ [] := by
    cases text with
    | nil => exact absurd rfl present
    | cons x text =>
      rw [List.dropWhile_cons] at starts
      split at starts
      · rename_i separator
        have shorter := congrArg List.length starts
        have bound := List.IsSuffix.length_le (List.dropWhile_suffix (l := text) p)
        simp only [List.length_cons] at shorter
        omega
      · rename_i other
        simp [other]
  cases rest : text.dropWhile (fun x => !p x) with
  | nil =>
    rw [rest, List.append_nil] at split
    rw [split] at whole nonempty ⊢
    rw [fields_run whole nonempty]
    simp
  | cons x tail =>
    have separator : p x = true := by
      have head := List.head?_dropWhile_not (fun x => !p x) text
      rw [rest] at head
      simpa using head
    rw [rest] at split
    rw [← split, fields_append_separator separator, fields_run whole nonempty, split]
    rfl

end

end MarketData
