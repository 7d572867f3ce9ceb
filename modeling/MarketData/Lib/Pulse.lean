import Mathlib.Data.List.Basic

/-! Pulses on a control input, and machines that act at the start of a pulse only. -/

namespace MarketData

/-- For how many cycles each of the four writes of a pulse is held. -/
structure Holds where
  argument : Nat
  before : Nat
  during : Nat
  after : Nat
  /-- Every write reaches the machine. -/
  pos : 0 < argument ∧ 0 < before ∧ 0 < during ∧ 0 < after

section Pulses

variable {β ι σ : Type} [DecidableEq β] (idle : β)

/-- The cycles of a pulse: the argument is written, then idle, the command and idle again. -/
def pulse (c : β) (v : ι) (h : Holds) : List (β × ι) :=
  List.replicate h.argument (idle, v) ++ List.replicate h.before (idle, v) ++
    List.replicate h.during (c, v) ++ List.replicate h.after (idle, v)

variable (act : β → ι → σ → σ)

/-- One cycle of a machine that remembers the control, and acts when it has just been idle. -/
def onEdge (s : β × σ) (i : β × ι) : β × σ :=
  (i.1, if s.1 = idle then act i.1 i.2 s.2 else s.2)

variable {idle act}

/-- Idle cycles do nothing. -/
theorem onEdge_idle (rests : ∀ v x, act idle v x = x) (s : β × σ) (v : ι) :
    onEdge idle act s (idle, v) = (idle, s.2) := by
  rw [onEdge, rests, ite_self]

/-- Any number of idle cycles does nothing. -/
theorem foldl_idle (rests : ∀ v x, act idle v x = x) (x : σ) {is : List (β × ι)}
    (quiet : ∀ i ∈ is, i.1 = idle) : is.foldl (onEdge idle act) (idle, x) = (idle, x) := by
  -- Cycle by cycle.
  induction is with
  | nil => rfl
  | cons i is ih =>
    obtain ⟨here, later⟩ := List.forall_mem_cons.mp quiet
    obtain ⟨c, v⟩ := i
    obtain rfl : c = idle := here
    rw [List.foldl_cons, onEdge_idle rests, ih later]

/-- A command that is held acts no more. -/
theorem foldl_held {c : β} (command : c ≠ idle) (v : ι) (x : σ) (n : Nat) :
    (List.replicate n (c, v)).foldl (onEdge idle act) (c, x) = (c, x) := by
  -- The control was not idle in the cycle before.
  induction n with
  | zero => rfl
  | succ n ih =>
    have still : onEdge idle act (c, x) (c, v) = (c, x) := by
      rw [onEdge, if_neg command]
    rw [List.replicate_succ, List.foldl_cons, still, ih]

/-- A pulse acts once, however long its writes are held. -/
theorem foldl_pulse (rests : ∀ v x, act idle v x = x) {c : β} (command : c ≠ idle) (v : ι)
    (h : Holds) (x : σ) :
    (pulse idle c v h).foldl (onEdge idle act) (idle, x) = (idle, act c v x) := by
  -- The command acts in its first cycle, which comes behind an idle one.
  obtain ⟨n, during⟩ := Nat.exists_eq_add_of_lt h.pos.2.2.1
  obtain ⟨m, after⟩ := Nat.exists_eq_add_of_lt h.pos.2.2.2
  rw [Nat.zero_add] at during after
  have quiet : ∀ k, ∀ i ∈ List.replicate k (idle, v), i.1 = idle := by
    intro k i member
    rw [List.eq_of_mem_replicate member]
  have acts : onEdge idle act (idle, x) (c, v) = (c, act c v x) := by
    rw [onEdge, if_pos rfl]
  rw [pulse, List.foldl_append, List.foldl_append, List.foldl_append, foldl_idle rests x (quiet _),
    foldl_idle rests x (quiet _), during, List.replicate_succ, List.foldl_cons, acts,
    foldl_held command, after, List.replicate_succ, List.foldl_cons, onEdge_idle rests,
    foldl_idle rests _ (quiet _)]

/-- Pulses act once each, in their order. -/
theorem foldl_pulses {α : Type} (rests : ∀ v x, act idle v x = x) {command : α → β}
    (commands : ∀ p, command p ≠ idle) (arg : α → ι) (holds : α → Holds) (ps : List α) (x : σ) :
    (ps.flatMap fun p => pulse idle (command p) (arg p) (holds p)).foldl (onEdge idle act) (idle, x) =
      (idle, ps.foldl (fun x p => act (command p) (arg p) x) x) := by
  -- Pulse by pulse.
  induction ps generalizing x with
  | nil => rfl
  | cons p ps ih =>
    rw [List.flatMap_cons, List.foldl_append, foldl_pulse rests (commands p), ih, List.foldl_cons]

end Pulses

end MarketData
