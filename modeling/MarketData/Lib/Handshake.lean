import Mathlib.Data.List.Basic
import Mathlib.Tactic.Common

/-! Clocked machines that answer requests one at a time: what goes in, what comes out, and when. -/

namespace MarketData

section Machine

variable {σ ι ε δ : Type} (step : σ → ι → σ)

/-- The state after some cycles. -/
def after (s : σ) (is : List ι) : σ :=
  is.foldl step s

/-- What is observed in these cycles, in order. -/
def observed (see : σ → ι → List ε) : σ → List ι → List ε
  | _, [] => []
  | s, i :: is => see s i ++ observed see (step s i) is

/-- The observations of consecutive cycles follow one another. -/
theorem observed_append (see : σ → ι → List ε) (s : σ) (is js : List ι) :
    observed step see s (is ++ js) =
      observed step see s is ++ observed step see (after step s is) js := by
  -- Induction on the first cycles.
  induction is generalizing s with
  | nil => rfl
  | cons i is ih =>
    have rest := ih (step s i)
    simp only [List.cons_append, observed, rest, List.append_assoc]
    rfl

/-- An image of the observations is observed as the image. -/
theorem observed_map (f : ε → δ) (see : σ → ι → List ε) (s : σ) (is : List ι) :
    (observed step see s is).map f = observed step (fun s i => (see s i).map f) s is := by
  -- Induction on the cycles.
  induction is generalizing s with
  | nil => rfl
  | cons i is ih => simp [observed, ih]

variable {step} {Inv : σ → Prop} {allowed : ι → Prop}

/-- What goes in comes out in order, apart from what is still pending. -/
theorem observed_conserved {pending : σ → List ε} {incoming outgoing : σ → ι → List ε}
    (kept : ∀ s i, Inv s → allowed i → Inv (step s i))
    (flow : ∀ s i, Inv s → allowed i →
      pending s ++ incoming s i = outgoing s i ++ pending (step s i))
    {s : σ} {is : List ι} (start : Inv s) (fine : ∀ i ∈ is, allowed i) :
    pending s ++ observed step incoming s is =
      observed step outgoing s is ++ pending (after step s is) := by
  -- Induction on the cycles; each one moves what came in behind what is pending.
  induction is generalizing s with
  | nil => simp [observed, after]
  | cons i is ih =>
    obtain ⟨here, later⟩ := List.forall_mem_cons.mp fine
    have rest := ih (kept s i start here) later
    have move := flow s i start here
    calc pending s ++ (incoming s i ++ observed step incoming (step s i) is)
        = outgoing s i ++ (pending (step s i) ++ observed step incoming (step s i) is) := by
          rw [← List.append_assoc, move, List.append_assoc]
      _ = observed step outgoing s (i :: is) ++ pending (after step s (i :: is)) := by
          rw [rest, observed, List.append_assoc]
          rfl

end Machine

/-- A register that takes one value and holds it until it is used. -/
structure Latch (α : Type) where
  ready : Bool
  taken : Bool
  value : α

section Latch

variable {α : Type}

/-- Ready goes low with a value and high again when the value has been used. -/
def Latch.step (l : Latch α) (valid : Bool) (x : α) (use : Bool) : Latch α where
  ready := if valid && l.ready then false else if !l.taken && !l.ready then true else l.ready
  taken := if use then false else if valid && l.ready then true else l.taken
  value := if valid && l.ready then x else l.value

/-- The value that is held. -/
def Latch.pending (l : Latch α) : List α :=
  if l.taken then [l.value] else []

/-- The value that is accepted in this cycle. -/
def Latch.accepted (l : Latch α) (valid : Bool) (x : α) : List α :=
  if valid && l.ready then [x] else []

/-- While a value is held, no other is accepted. -/
def Latch.Single (l : Latch α) : Prop :=
  l.taken = true → l.ready = false

/-- A register that holds nothing is ready, now or in the next cycle. -/
theorem Latch.offers {l : Latch α} (free : l.taken = false) (valid : Bool) (x : α) (use : Bool) :
    l.ready = true ∨ (l.step valid x use).ready = true := by
  cases ready : l.ready with
  | true => exact Or.inl rfl
  | false =>
    -- Ready goes high while nothing is held.
    refine Or.inr ?_
    rw [Latch.step, ready, free, Bool.and_false]
    rfl

/-- A value is held only after ready went low. -/
theorem Latch.Single.step {l : Latch α} (single : l.Single) (valid : Bool) (x : α) (use : Bool) :
    (l.step valid x use).Single := by
  -- The flags are evaluated.
  unfold Latch.Single Latch.step at *
  revert single
  cases valid <;> cases use <;> cases l.ready <;> cases l.taken <;> simp

/-- An accepted value is held, and a used one is held no longer. -/
theorem Latch.Single.flow {l : Latch α} (single : l.Single) (valid : Bool) (x : α) {use : Bool}
    (usable : use = true → l.taken = true) :
    l.pending ++ l.accepted valid x =
      (if use then [l.value] else []) ++ (l.step valid x use).pending := by
  -- A value is used only when one is held, and then none is accepted.
  unfold Latch.Single at single
  unfold Latch.pending Latch.accepted Latch.step
  revert single usable
  cases valid <;> cases use <;> cases l.ready <;> cases l.taken <;> simp

end Latch

/-- A register that offers one value until it is fetched. -/
structure Reply (α : Type) where
  valid : Bool
  value : α

section Reply

variable {α : Type}

/-- A new value makes it valid, and fetching it makes it invalid. -/
def Reply.step (r : Reply α) (new : Option α) (ready : Bool) : Reply α where
  valid := if r.valid && ready then false else if new.isSome then true else r.valid
  value := new.getD r.value

/-- The value that is offered. -/
def Reply.pending (r : Reply α) : List α :=
  if r.valid then [r.value] else []

/-- The value that is fetched in this cycle. -/
def Reply.fetched (r : Reply α) (ready : Bool) : List α :=
  if r.valid && ready then [r.value] else []

/-- A new value is offered, and a fetched one is offered no longer. -/
theorem Reply.flow (r : Reply α) {new : Option α} (ready : Bool)
    (free : new.isSome = true → r.valid = false) :
    r.pending ++ new.toList = r.fetched ready ++ (r.step new ready).pending := by
  -- A new value comes only when none is offered.
  unfold Reply.pending Reply.fetched Reply.step
  revert free
  cases new <;> cases ready <;> cases r.valid <;> simp

/-- Until it is fetched, the value stays on offer. -/
theorem Reply.holds {r : Reply α} {new : Option α} {ready : Bool}
    (free : new.isSome = true → r.valid = false) (valid : r.valid = true) (waits : ready = false) :
    (r.step new ready).valid = true ∧ (r.step new ready).value = r.value := by
  -- No new value replaces it.
  cases new with
  | none => simp [Reply.step, valid, waits]
  | some x => exact absurd valid (by simp [free rfl])

end Reply

section Service

variable {σ ι : Type}

/-- A request that waits is answered once the reply before it has been fetched. -/
structure Serves (step : σ → ι → σ) (allowed : ι → Prop) (waiting replying : σ → Bool)
    (ready : ι → Bool) : Prop where
  replies : ∀ s i, allowed i →
    replying (step s i) = if replying s then !ready i else waiting s
  waits : ∀ s i, allowed i → waiting s = true → replying s = true → waiting (step s i) = true

variable {step : σ → ι → σ} {allowed : ι → Prop} {waiting replying : σ → Bool} {ready : ι → Bool}

/-- The fetching of an answer. -/
def fetches (replying : σ → Bool) (ready : ι → Bool) (s : σ) (i : ι) : List Unit :=
  if replying s && ready i then [()] else []

/-- The answers that are due are fetched in two ready cycles each, one less for the first on offer. -/
theorem Serves.served (serves : Serves step allowed waiting replying ready) (is : List ι) :
    ∀ {s : σ} {o : Nat}, o ≤ (waiting s).toNat + (replying s).toNat → (∀ i ∈ is, allowed i) →
      2 * o - (replying s).toNat ≤ is.countP ready →
      o ≤ (observed step (fetches replying ready) s is).length := by
  -- Induction on the cycles; a ready cycle lowers the rank, no other cycle raises it.
  induction is with
  | nil =>
    intro s o _ _ enough
    rw [List.countP_nil] at enough
    have single : (replying s).toNat ≤ 1 := Bool.toNat_le _
    rw [observed, List.length_nil]
    omega
  | cons i is ih =>
    intro s o due fine enough
    obtain ⟨here, later⟩ := List.forall_mem_cons.mp fine
    have replies := serves.replies s i here
    have waits := serves.waits s i here
    rw [observed, List.length_append, fetches]
    rw [List.countP_cons] at enough
    cases offered : replying s with
    | true =>
      simp only [offered, if_true] at replies waits due enough
      have stays : (waiting s).toNat ≤ (waiting (step s i)).toNat := by
        cases held : waiting s with
        | true => exact Nat.le_of_eq (congrArg Bool.toNat (waits held trivial).symm)
        | false => exact Nat.zero_le _
      cases fetched : ready i with
      | true =>
        -- The answer on offer is fetched, and one less is due.
        simp only [fetched, Bool.not_true, if_true, Bool.toNat_true] at replies enough due
        have rest := ih (s := step s i) (o := o - 1) (by rw [replies]; simp; omega) later
          (by rw [replies]; simp; omega)
        simp only [Bool.and_self, if_true, List.length_singleton]
        omega
      | false =>
        simp only [fetched, Bool.not_false, Bool.false_eq_true, if_false] at replies enough
        have rest := ih (s := step s i) (o := o) (by rw [replies]; omega) later
          (by rw [replies]; omega)
        simpa using rest
    | false =>
      -- A request that waits is answered now; without one nothing is due.
      simp only [offered, Bool.false_eq_true, if_false, Bool.toNat_false] at replies due enough
      have rest := ih (s := step s i) (o := o) (by rw [replies]; omega) later (by
        rw [replies]
        cases held : waiting s <;> simp only [held, Bool.toNat_true, Bool.toNat_false] at due ⊢
        · omega
        · split at enough <;> omega)
      simpa using rest

end Service

end MarketData
