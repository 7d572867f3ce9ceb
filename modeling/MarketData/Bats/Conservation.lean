import MarketData.Bats.Reference

/-! No byte is lost or duplicated, and no length leaves its bounds, whatever the stream. -/

namespace MarketData.Bats

/-- The bytes accepted and consumed since the last flush or reset. -/
structure Ledger where
  accepted : List Byte
  consumed : List Byte
  deriving DecidableEq, Repr

/-- The account of one cycle: a reset, ST_RESET or a flush starts it afresh. -/
def Ledger.step (sub : Submodules) (i : Inputs) (r : Regs) (l : Ledger) : Ledger :=
  if i.reset ∨ r.state = .reset ∨ flushes sub i r then ⟨[], []⟩
  else ⟨l.accepted ++ acceptedBytes i, l.consumed ++ consumedBytes sub i r⟩

/-- The account of a run. -/
def ledger (sub : Submodules) : Regs → Ledger → List Inputs → Ledger
  | _, l, [] => l
  | r, l, i :: is => ledger sub (step sub i r) (l.step sub i r) is

/-- Outside ST_RESET the buffer is in bounds and holds what was accepted and not yet consumed. -/
def Balanced (r : Regs) (l : Ledger) : Prop :=
  r.state ≠ .reset →
    r.bufferLength.toNat ≤ 72 ∧ l.accepted = l.consumed ++ held r

/-- A run is taken apart at its first cycle. -/
theorem run_cons (sub : Submodules) (r : Regs) (i : Inputs) (is : List Inputs) :
    run sub r (i :: is) = run sub (step sub i r) is := rfl

/-- Every cycle keeps the account balanced, flush and reset included. -/
theorem Balanced.step {sub : Submodules} (appends : Appends sub) {i : Inputs} {r : Regs}
    {l : Ledger} (balanced : Balanced r l) (allowed : Allowed i r) :
    Balanced (step sub i r) (l.step sub i r) := by
  -- A cycle resets, initialises, flushes or conserves; the account follows each of them.
  intro active
  cases running : i.reset with
  | true => exact absurd (step_reset running) active
  | false =>
    by_cases init : r.state = .reset
    · -- ST_RESET clears the buffer and the account together.
      obtain ⟨_, _, empty⟩ := @step_init sub _ _ running init
      simp [Ledger.step, init, empty, held_empty empty]
    · obtain ⟨fits, balance⟩ := balanced init
      cases flush : flushes sub i r with
      | true =>
        obtain ⟨_, _, empty⟩ := step_flush flush
        simp [Ledger.step, flush, empty, held_empty empty]
      | false =>
        obtain ⟨kept, bound⟩ := step_conserves appends fits allowed running init flush
        refine ⟨bound, ?_⟩
        simp only [Ledger.step, running, init, flush, Bool.false_eq_true, or_self, if_false]
        rw [balance, List.append_assoc, ← kept, List.append_assoc]

/-- Every run that respects the handshake keeps the account balanced. -/
theorem Balanced.run {sub : Submodules} (appends : Appends sub) (is : List Inputs) {r : Regs}
    {l : Ledger} (balanced : Balanced r l) (respects : Respects sub r is) :
    Balanced (run sub r is) (ledger sub r l is) := by
  -- Induction on the cycles, one step at a time from the front.
  induction is generalizing r l with
  | nil => exact balanced
  | cons i is ih =>
    obtain ⟨allowed, later⟩ := respects
    exact ih (balanced.step appends allowed) later

/-- A promise kept over a run is kept by each of its cycles. -/
theorem Respects.split {sub : Submodules} {r : Regs} {is js : List Inputs}
    (respects : Respects sub r (is ++ js)) :
    Respects sub r is ∧ Respects sub (Bats.run sub r is) js := by
  -- Induction on the first part, whose last registers start the second one.
  induction is generalizing r with
  | nil => exact ⟨trivial, respects⟩
  | cons i is ih =>
    obtain ⟨allowed, later⟩ := respects
    obtain ⟨front, back⟩ := ih later
    exact ⟨⟨allowed, front⟩, back⟩

/-- What a cycle consumes is buffered by then. -/
theorem consume_le (sub : Submodules) (i : Inputs) (r : Regs) :
    (consume sub i r).toNat ≤ (alen sub i r).toNat := by
  -- A header takes eight of at least eight bytes, a message as many as its length byte states.
  unfold consume
  split
  · rename_i ready
    simpa [hdrReady, BitVec.le_def] using ready.2
  · split
    · rename_i ready
      obtain ⟨_, _, small, whole⟩ := msgReady_iff.mp ready.2
      rw [BitVec.toNat_setWidth, Nat.mod_eq_of_lt (by omega)]
      exact whole
    · exact Nat.zero_le _

/-- In every reachable state after reset the lengths are in bounds and no byte is lost. -/
theorem buffer_conserves_bytes (sub : Submodules) (appends : Appends sub) (r₀ : Regs)
    (start : r₀.state = .reset) (is : List Inputs) (i : Inputs)
    (respects : Respects sub r₀ (is ++ [i]))
    (active : (run sub r₀ is).state ≠ .reset) :
    (run sub r₀ is).bufferLength.toNat ≤ 72 ∧
      (alen sub i (run sub r₀ is)).toNat ≤ 72 ∧
      (consume sub i (run sub r₀ is)).toNat ≤ (alen sub i (run sub r₀ is)).toNat ∧
      (clen sub i (run sub r₀ is)).toNat =
        (alen sub i (run sub r₀ is)).toNat - (consume sub i (run sub r₀ is)).toNat ∧
      front (abuf sub i (run sub r₀ is)) (alen sub i (run sub r₀ is)).toNat =
        held (run sub r₀ is) ++ acceptedBytes i ∧
      (ledger sub r₀ ⟨[], []⟩ is).accepted =
        (ledger sub r₀ ⟨[], []⟩ is).consumed ++ held (run sub r₀ is) := by
  -- The account of the run gives the bounds; the last cycle's append needs only them.
  obtain ⟨past, now, _⟩ := respects.split
  have balanced : Balanced r₀ ⟨[], []⟩ := fun awake => absurd start awake
  obtain ⟨fits, balance⟩ := balanced.run appends is past active
  obtain ⟨_, bound, appended⟩ := append_spec appends fits now
  have within := consume_le sub i (run sub r₀ is)
  refine ⟨fits, bound, within, ?_, appended, balance⟩
  exact BitVec.toNat_sub_of_le (BitVec.le_def.mpr within)

/-- A unit header and the first bytes of a Time message, in three cycles. -/
def timeCycles : List Inputs :=
  [idle, word [14, 0, 1, 1, 7, 0, 0, 0], word [6, 0x20]]

/-- After the header is taken, the two bytes that followed it are held. -/
theorem buffer_conserves_bytes_time :
    held (run reference resetRegs timeCycles) = [6, 0x20] ∧
      (ledger reference resetRegs ⟨[], []⟩ timeCycles).accepted =
        (ledger reference resetRegs ⟨[], []⟩ timeCycles).consumed ++
          held (run reference resetRegs timeCycles) := by
  -- The handshake is checked cycle by cycle, the last word included.
  have respects : Respects reference resetRegs (timeCycles ++ [word [1, 2, 3, 4]]) := by
    decide +kernel
  have conserved := buffer_conserves_bytes reference reference_appends resetRegs rfl timeCycles
    (word [1, 2, 3, 4]) respects (by decide +kernel)
  exact ⟨by decide +kernel, conserved.2.2.2.2.2⟩

end MarketData.Bats
