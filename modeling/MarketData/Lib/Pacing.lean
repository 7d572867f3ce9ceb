import MarketData.Lib.Stage

/-! Streams with gaps: cycles without an element between the elements. -/

namespace MarketData

variable {α β : Type}

/-- The cycles of a stream; each element is followed by so many cycles that only hold it. -/
def paced (hold : α → α) (ps : List (α × Nat)) : List α :=
  ps.flatMap fun p => p.1 :: List.replicate p.2 (hold p.1)

/-- The gaps behind the elements from number `i` on; there is none behind the last one. -/
def gapped (gaps : Nat → Nat) : Nat → List α → List (α × Nat)
  | _, [] => []
  | _, [a] => [(a, 0)]
  | i, a :: b :: as => (a, gaps i) :: gapped gaps (i + 1) (b :: as)

/-- An element and its gap come in front of the rest of a stream. -/
theorem paced_cons (hold : α → α) (a : α) (n : Nat) (ps : List (α × Nat)) :
    paced hold ((a, n) :: ps) = a :: (List.replicate n (hold a) ++ paced hold ps) := by
  rw [paced, List.flatMap_cons]
  rfl

/-- An element that is not the last one is followed by its gap. -/
theorem gapped_cons (gaps : Nat → Nat) (i : Nat) (a : α) {as : List α} (more : as ≠ []) :
    gapped gaps i (a :: as) = (a, gaps i) :: gapped gaps (i + 1) as := by
  cases as with
  | nil => exact absurd rfl more
  | cons b as => rfl

/-- Gaps are read off an image of the elements. -/
theorem gapped_map (f : α → β) (gaps : Nat → Nat) (i : Nat) (as : List α) :
    gapped gaps i (as.map f) = (gapped gaps i as).map (Prod.map f id) := by
  -- Element by element, up to the last one.
  fun_induction gapped gaps i as with
  | case1 i => rfl
  | case2 i a => rfl
  | case3 i a b as ih =>
    rw [List.map_cons, List.map_cons, gapped, List.map_cons, ← ih]
    rfl

/-- Only the gaps between the elements count. -/
theorem gapped_congr {gaps gaps' : Nat → Nat} {i : Nat} {as : List α}
    (same : ∀ k, i ≤ k → k + 1 < i + as.length → gaps k = gaps' k) :
    gapped gaps i as = gapped gaps' i as := by
  -- Element by element, up to the last one.
  fun_induction gapped gaps i as with
  | case1 i => rfl
  | case2 i a => rfl
  | case3 i a b as ih =>
    rw [gapped, same i (Nat.le_refl i) (by simp), ih]
    intro k from_ within
    refine same k (Nat.le_of_succ_le from_) ?_
    simp only [List.length_cons] at within ⊢
    omega

/-- The cycles of an image. -/
theorem paced_map {f : α → β} {hold : α → α} {hold' : β → β} (same : ∀ a, f (hold a) = hold' (f a))
    (ps : List (α × Nat)) : (paced hold ps).map f = paced hold' (ps.map (Prod.map f id)) := by
  -- Element by element, each with its gap.
  induction ps with
  | nil => rfl
  | cons p ps ih =>
    obtain ⟨a, n⟩ := p
    rw [List.map_cons, Prod.map, paced_cons, paced_cons, List.map_cons, List.map_append,
      List.map_replicate, same, ih]
    rfl

section

variable {σ ι ω ν : Type} {m : Stage σ ι ω ν}

/-- A cycle that keeps an invariant and adds the same observation may be repeated. -/
theorem Stage.Emits.replicate {I : σ → Prop} {i : ι} {e : ν}
    (once : ∀ s, I s → ∃ s', m.Emits s [i] s' [e] ∧ I s') (n : Nat) :
    ∀ {s}, I s → ∃ s', m.Emits s (List.replicate n i) s' (List.replicate n e) ∧ I s' := by
  -- Induction on the number of cycles.
  induction n with
  | zero => exact fun {s} inv => ⟨s, .nil m s, inv⟩
  | succ n ih =>
    intro s inv
    obtain ⟨s₁, first, inv₁⟩ := once s inv
    obtain ⟨s₂, rest, inv₂⟩ := ih inv₁
    exact ⟨s₂, first.cons rest, inv₂⟩

/-- Cycles that keep an invariant add observations of one kind. -/
theorem Stage.Emits.steadily {I : σ → Prop} {P : ι → Prop} {Q : ν → Prop}
    (once : ∀ s i, I s → P i → ∃ s' e, m.Emits s [i] s' [e] ∧ I s' ∧ Q e) (is : List ι) :
    ∀ {s}, I s → (∀ i ∈ is, P i) →
      ∃ s' es, m.Emits s is s' es ∧ I s' ∧ (∀ e ∈ es, Q e) ∧ es.length = is.length := by
  -- Induction on the cycles.
  induction is with
  | nil => exact fun {s} inv _ => ⟨s, [], .nil m s, inv, by simp, rfl⟩
  | cons i is ih =>
    intro s inv all
    obtain ⟨here, later⟩ := List.forall_mem_cons.mp all
    obtain ⟨s₁, e, first, inv₁, kind⟩ := once s i inv here
    obtain ⟨s₂, es, rest, inv₂, kinds, long⟩ := ih inv₁ later
    refine ⟨s₂, e :: es, first.cons rest, inv₂, List.forall_mem_cons.mpr ⟨kind, kinds⟩, ?_⟩
    rw [List.length_cons, List.length_cons, long]

/-- The observed outputs are those of the registers and all added ones but the last. -/
theorem Stage.Emits.trimmed {s s' : σ} {is : List ι} {es qs : List ν} {latency : Nat}
    (emits : m.Emits s is s' (es ++ qs)) (depth : (m.ahead s').length = latency)
    (long : latency ≤ qs.length) :
    ∃ os, runOn m.step s is = some (s', os) ∧
      os.map m.view = m.ahead s ++ es ++ qs.take (qs.length - latency) := by
  -- The last observations are still in the registers.
  have split : es ++ qs = (es ++ qs.take (qs.length - latency)) ++ qs.drop (qs.length - latency) := by
    rw [List.append_assoc, List.take_append_drop]
  rw [split] at emits
  obtain ⟨os, runs, seen, _⟩ := emits.outputs (by rw [depth, List.length_drop]; omega)
  exact ⟨os, runs, by rw [seen, List.append_assoc]⟩

end

end MarketData
