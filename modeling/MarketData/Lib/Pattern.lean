import Mathlib.Data.List.Basic
import Mathlib.Tactic.Common

/-! Patterns on texts, as a backtracking matcher of regular expressions tries them. -/

namespace MarketData

/-- The ways to match the front of a text in the order tried: what the groups hold, what is left. -/
abbrev Pattern := List Char → List (List (Option (List Char)) × List Char)

namespace Pattern

/-- These characters. -/
def lit (s : List Char) : Pattern := fun t =>
  if s.isPrefixOf t then [([], t.drop s.length)] else []

/-- One of several words, the first ones first: `A|B`. -/
def oneOf (words : List (List Char)) : Pattern := fun t =>
  words.flatMap fun w => lit w t

/-- As many characters of a class as possible, but at least one: `p+`. -/
def plus (p : Char → Bool) : Pattern := fun t =>
  (List.range (t.takeWhile p).length).reverse.map fun k => ([], t.drop (k + 1))

/-- So many characters of a class: `p{n}`. -/
def exactly (n : Nat) (p : Char → Bool) : Pattern := fun t =>
  if n ≤ t.length ∧ (t.take n).all p then [([], t.drop n)] else []

/-- One pattern behind the other. -/
def seq (first second : Pattern) : Pattern := fun t =>
  (first t).flatMap fun way => (second way.2).map fun later => (way.1 ++ later.1, later.2)

/-- The text that a pattern matches, kept: `(p)`. -/
def group (p : Pattern) : Pattern := fun t =>
  (p t).map fun way => (some (t.take (t.length - way.2.length)) :: way.1, way.2)

/-- A pattern with one group, or nothing: `(p)?`. -/
def optional (p : Pattern) : Pattern := fun t =>
  p t ++ [([none], t)]

/-- `re.match`: what the groups hold when the front of the text is matched. -/
def match_ (p : Pattern) (t : List Char) : Option (List (Option (List Char))) :=
  (p t).head?.map Prod.fst

/-- The first way that is tried and succeeds. -/
def Leads (p : Pattern) (t : List Char) (groups : List (Option (List Char))) (rest : List Char) :
    Prop :=
  (p t).head? = some (groups, rest)

section

variable {p q : Pattern} {t r : List Char} {gs : List (Option (List Char))}

/-- The match is the first way. -/
theorem Leads.match_eq (leads : p.Leads t gs r) : p.match_ t = some gs := by
  rw [match_, leads, Option.map_some]

/-- Without a way there is no match. -/
theorem match_eq_none (fails : p t = []) : p.match_ t = none := by
  rw [match_, fails, List.head?_nil, Option.map_none]

/-- The characters are found in front of a text. -/
theorem leads_lit (s r : List Char) : (lit s).Leads (s ++ r) [] r := by
  simp [Leads, lit]

/-- Another character in front fails. -/
theorem lit_fails {c d : Char} (s t : List Char) (other : c ≠ d) : lit (c :: s) (d :: t) = [] := by
  simp [lit, List.isPrefixOf, other]

/-- The leading run of a class ends at another character. -/
theorem takeWhile_run {class_ : Char → Bool} {s r : List Char} (all : ∀ c ∈ s, class_ c = true)
    (ends : ∀ c ∈ r.head?, class_ c = false) : (s ++ r).takeWhile class_ = s := by
  rw [List.takeWhile_append_of_pos all]
  cases r with
  | nil => simp
  | cons c r => simp [ends c rfl]

/-- A class takes its characters up to another one. -/
theorem leads_plus {class_ : Char → Bool} {s r : List Char} (some : s ≠ [])
    (all : ∀ c ∈ s, class_ c = true) (ends : ∀ c ∈ r.head?, class_ c = false) :
    (plus class_).Leads (s ++ r) [] r := by
  -- The longest way is tried first.
  obtain ⟨n, length⟩ : ∃ n, s.length = n + 1 :=
    ⟨s.length - 1, by have := List.length_pos_iff.mpr some; omega⟩
  rw [Leads, plus, takeWhile_run all ends, length, List.range_succ, List.reverse_append]
  simp [← length]

/-- Every other way through a class leaves a character of it. -/
theorem plus_ways {class_ : Char → Bool} {s r : List Char} (all : ∀ c ∈ s, class_ c = true)
    (ends : ∀ c ∈ r.head?, class_ c = false) :
    ∀ way ∈ plus class_ (s ++ r), way.2 = r ∨ ∃ c u, way.2 = c :: u ∧ class_ c = true := by
  -- The ways are the shorter runs, so all but the longest one stop in front of a character of the
  -- class.
  intro way member
  rw [plus, takeWhile_run all ends] at member
  simp only [List.mem_map, List.mem_reverse, List.mem_range] at member
  obtain ⟨k, within, rfl⟩ := member
  rcases Nat.lt_or_ge (k + 1) s.length with some | whole
  · refine Or.inr ⟨s[k + 1], s.drop (k + 2) ++ r, ?_, all _ (List.getElem_mem some)⟩
    rw [List.drop_append_of_le_length (Nat.le_of_lt some), List.drop_eq_getElem_cons some]
    rfl
  · refine Or.inl ?_
    have count : k + 1 = s.length := by omega
    simp only [count, List.drop_left]

/-- A class fails on another character. -/
theorem plus_fails {class_ : Char → Bool} {c : Char} (t : List Char) (other : class_ c = false) :
    plus class_ (c :: t) = [] := by
  simp [plus, other]

/-- So many characters of the class are found in front of a text. -/
theorem leads_exactly {n : Nat} {class_ : Char → Bool} {s : List Char} (r : List Char)
    (length : s.length = n) (all : ∀ c ∈ s, class_ c = true) :
    (exactly n class_).Leads (s ++ r) [] r := by
  subst length
  rw [Leads, exactly, if_pos ⟨by simp, by simpa using all⟩]
  simp

/-- Another character among the first ones fails. -/
theorem exactly_fails {n : Nat} {class_ : Char → Bool} {c : Char} {t : List Char} {i : Nat}
    (found : t[i]? = some c) (within : i < n) (other : class_ c = false) :
    exactly n class_ t = [] := by
  -- The character is among those looked at.
  rw [exactly, if_neg]
  rintro ⟨-, all⟩
  have member : c ∈ t.take n := by
    refine List.mem_of_getElem? (i := i) ?_
    rw [List.getElem?_take_of_lt within, found]
  rw [List.all_eq_true.mp all c member] at other
  exact absurd other (by simp)

/-- A text that is too short fails. -/
theorem exactly_short {n : Nat} {class_ : Char → Bool} {t : List Char} (short : t.length < n) :
    exactly n class_ t = [] := by
  rw [exactly, if_neg (by omega)]

/-- Behind given characters there is one way only. -/
theorem lit_ways (s t : List Char) : ∀ way ∈ lit s t, way.2 = t.drop s.length := by
  intro way member
  rw [lit] at member
  split at member
  · rw [List.mem_singleton.mp member]
  · exact absurd member List.not_mem_nil

/-- Behind so many characters there is one way only. -/
theorem exactly_ways (n : Nat) (class_ : Char → Bool) (t : List Char) :
    ∀ way ∈ exactly n class_ t, way.2 = t.drop n := by
  intro way member
  rw [exactly] at member
  split at member
  · rw [List.mem_singleton.mp member]
  · exact absurd member List.not_mem_nil

/-- The second pattern goes on behind the first one. -/
theorem Leads.seq {u : List Char} {hs : List (Option (List Char))} (first : p.Leads t gs u)
    (second : q.Leads u hs r) : (Pattern.seq p q).Leads t (gs ++ hs) r := by
  -- Both first ways make the first way.
  obtain ⟨ways, here⟩ := List.head?_eq_some_iff.mp first
  obtain ⟨laters, there⟩ := List.head?_eq_some_iff.mp second
  rw [Leads, Pattern.seq, here, List.flatMap_cons, there]
  rfl

/-- If the first pattern fails, both fail. -/
theorem seq_fails (fails : p t = []) : Pattern.seq p q t = [] := by
  rw [Pattern.seq, fails, List.flatMap_nil]

/-- If the second pattern fails behind every way, both fail. -/
theorem seq_fails_behind (fails : ∀ way ∈ p t, q way.2 = []) : Pattern.seq p q t = [] := by
  rw [Pattern.seq, List.flatMap_eq_nil_iff]
  intro way member
  rw [fails way member, List.map_nil]

/-- The same behind a group, which leaves what its pattern leaves. -/
theorem seq_group_fails_behind (fails : ∀ way ∈ p t, q way.2 = []) :
    Pattern.seq (Pattern.group p) q t = [] := by
  refine seq_fails_behind fun way member => ?_
  obtain ⟨inner, found, rfl⟩ := List.mem_map.mp member
  exact fails inner found

/-- A group holds what its pattern takes. -/
theorem Leads.group {s : List Char} (leads : p.Leads (s ++ r) gs r) :
    (Pattern.group p).Leads (s ++ r) (some s :: gs) r := by
  obtain ⟨ways, here⟩ := List.head?_eq_some_iff.mp leads
  rw [Leads, Pattern.group, here, List.map_cons, List.head?_cons]
  simp

/-- A group fails with its pattern. -/
theorem group_fails (fails : p t = []) : Pattern.group p t = [] := by
  rw [Pattern.group, fails, List.map_nil]

/-- An optional pattern is matched if it can be. -/
theorem Leads.optional (leads : p.Leads t gs r) : (Pattern.optional p).Leads t gs r := by
  obtain ⟨ways, here⟩ := List.head?_eq_some_iff.mp leads
  rw [Leads, Pattern.optional, here]
  rfl

/-- An optional pattern that fails is left out. -/
theorem leads_optional_none (fails : p t = []) : (Pattern.optional p).Leads t [none] t := by
  rw [Leads, Pattern.optional, fails]
  rfl

end

end Pattern

end MarketData
