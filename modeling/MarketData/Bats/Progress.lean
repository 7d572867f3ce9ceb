import MarketData.Bats.Conservation

/-! When a full buffer stops the input, and when it stops the parser with it. -/

namespace MarketData.Bats

section Cycle

variable (sub : Submodules) (i : Inputs) (r : Regs)

/-- The cycle consumes a header, consumes a message or flushes the buffer. -/
def progresses : Bool :=
  (event sub i r).isSome || flushes sub i r

end Cycle

/-- The parser waits in a reading state and refuses input. -/
def Refuses (r : Regs) : Prop :=
  (r.state = .readUnitHdr ∨ r.state = .readMsg) ∧ readyForUdpInput r = false

/-- The message at the front is legal, unfinished, and needs more room than one word has left. -/
def Oversized (r : Regs) : Prop :=
  r.state = .readMsg ∧ 64 < r.bufferLength.toNat ∧
    r.bufferLength.toNat < (byteBE r.buffer 0).toNat ∧ (byteBE r.buffer 0).toNat ≤ 72

/-- A refusing parser holds more than 64 bytes. -/
theorem Refuses.full {r : Regs} (refuses : Refuses r) : 64 < r.bufferLength.toNat := by
  -- Outside ST_RESET the ready signal depends on the room alone.
  obtain ⟨state, busy⟩ := refuses
  have awake : r.state ≠ .reset := by
    rcases state with state | state <;> simp [state]
  apply Nat.lt_of_not_le
  intro room
  -- Room for a word would raise the ready signal.
  have ready := (readyForUdpInput_iff r).mpr ⟨awake, room⟩
  rw [busy] at ready
  cases ready

/-- An oversized message makes the parser refuse input. -/
theorem Oversized.refuses {r : Regs} (oversized : Oversized r) : Refuses r := by
  -- More than 64 bytes leave no room for a word, so the ready signal is low.
  obtain ⟨state, full, _⟩ := oversized
  refine ⟨Or.inr state, ?_⟩
  cases ready : readyForUdpInput r with
  | false => rfl
  | true =>
    have room := ((readyForUdpInput_iff r).mp ready).2
    omega

/-- A parser that refuses input is offered none, so its buffer stands as it is. -/
theorem refused_append {sub : Submodules} (appends : Appends sub) {i : Inputs} {r : Regs}
    (allowed : Allowed i r) (busy : readyForUdpInput r = false) :
    i.dsDataValid = false ∧ abuf sub i r = r.buffer ∧ alen sub i r = r.bufferLength := by
  -- A word is only offered when the parser is ready, and without one the append is the identity.
  have silent : i.dsDataValid = false := by
    cases valid : i.dsDataValid with
    | false => rfl
    | true =>
      -- A valid word would need the ready signal that is low.
      have ready := (allowed valid).1
      rw [busy] at ready
      cases ready
  have same := appends.identity r.buffer r.bufferLength i.dsData i.dsByteEnables
  simp [abuf, alen, silent, same]

/-- A refusing parser makes progress unless an oversized message stands at the front. -/
theorem refusing_progresses_iff {sub : Submodules} (appends : Appends sub) {i : Inputs}
    {r : Regs} (allowed : Allowed i r) (running : i.reset = false) (refuses : Refuses r) :
    progresses sub i r = true ↔ ¬ Oversized r := by
  -- The header state always has a header by then; the message state depends on the length byte.
  have full := refuses.full
  obtain ⟨silent, buffer, length⟩ := refused_append appends allowed refuses.2
  rcases refuses.1 with state | state
  · -- More than eight bytes are held, so the header is consumed.
    have ready : hdrReady sub i r = true := by
      simp only [hdrReady, decide_eq_true_eq, BitVec.le_def, length]
      exact Nat.le_trans (by decide) (Nat.le_of_lt full)
    have other : ¬ Oversized r := by
      intro oversized
      have clash := oversized.1
      rw [state] at clash
      cases clash
    simp [progresses, event, running, state, ready, other]
  · -- The message is flushed, consumed, or larger than what can still arrive.
    have first : msgLength sub i r = byteBE r.buffer 0 := by rw [msgLength_eq, buffer]
    have malformed : msgMalformed sub i r = true ↔ _ := msgMalformed_iff
    have ready : msgReady sub i r = true ↔ _ := msgReady_iff
    rw [first, length] at malformed ready
    cases formed : msgMalformed sub i r with
    | true =>
      have illegal := malformed.mp formed
      have other : ¬ Oversized r := by
        intro oversized
        obtain ⟨_, _, large, small⟩ := oversized
        omega
      simp [progresses, flushes, running, state, formed, other]
    | false =>
      have legal : ¬ ((byteBE r.buffer 0).toNat = 0 ∨ 72 < (byteBE r.buffer 0).toNat) := by
        intro illegal
        have clash := malformed.mpr ⟨by omega, illegal⟩
        rw [formed] at clash
        cases clash
      have calm : flushes sub i r = false := by
        simp [flushes, running, state, formed, silent]
      have moves : progresses sub i r = msgReady sub i r := by
        cases whole : msgReady sub i r <;> simp [progresses, event, running, state, whole, calm]
      rw [moves, ready]
      constructor
      · intro whole oversized
        obtain ⟨_, _, large, _⟩ := oversized
        omega
      · intro fitting
        refine ⟨by omega, by omega, by omega, Nat.le_of_not_lt fun large => ?_⟩
        exact fitting ⟨state, full, large, by omega⟩

/-- Once an oversized message blocks the parser, nothing but a reset moves it. -/
theorem Oversized.step {sub : Submodules} (appends : Appends sub) {i : Inputs} {r : Regs}
    (oversized : Oversized r) (allowed : Allowed i r) (running : i.reset = false) :
    Oversized (step sub i r) ∧ held (Bats.step sub i r) = held r := by
  -- Input is refused and nothing is consumed, so the registers stand still.
  have refuses := oversized.refuses
  obtain ⟨_, buffer, length⟩ := refused_append appends allowed refuses.2
  obtain ⟨state, full, large, small⟩ := oversized
  -- No progress means that neither a consumption nor a flush happens.
  have stuck : progresses sub i r = false := by
    have iff := refusing_progresses_iff appends allowed running refuses
    cases moves : progresses sub i r with
    | false => rfl
    | true => exact absurd ⟨state, full, large, small⟩ (iff.mp moves)
  simp only [progresses, Bool.or_eq_false_iff, Option.isSome_eq_false_iff,
    Option.isNone_iff_eq_none] at stuck
  have awake : r.state ≠ .reset := by simp [state]
  obtain ⟨nextState, nextBuffer, nextLength, _⟩ := step_idle running stuck.2 stuck.1 awake
  refine ⟨⟨by rw [nextState, state], ?_, ?_, ?_⟩, ?_⟩
  · rw [nextLength, length]; exact full
  · rw [nextLength, nextBuffer, length, buffer]; exact large
  · rw [nextBuffer, buffer]; exact small
  · simp only [held, nextBuffer, nextLength, buffer, length]

/-- A run keeps making progress under back-pressure exactly when no oversized message blocks it. -/
theorem progresses_iff_never_oversized (sub : Submodules) (appends : Appends sub) (r₀ : Regs)
    (is : List Inputs) (respects : Respects sub r₀ is) :
    (∀ before i after, is = before ++ i :: after → i.reset = false →
        Refuses (run sub r₀ before) → progresses sub i (run sub r₀ before) = true) ↔
      ∀ before i after, is = before ++ i :: after → i.reset = false →
        ¬ Oversized (run sub r₀ before) := by
  -- Cycle by cycle the two sides say the same.
  constructor
  · intro moves before i after cut running oversized
    rw [cut] at respects
    obtain ⟨_, allowed, _⟩ := respects.split
    have moved := moves before i after cut running oversized.refuses
    exact (refusing_progresses_iff appends allowed running oversized.refuses).mp moved oversized
  · intro clear before i after cut running refuses
    have fitting := clear before i after cut running
    rw [cut] at respects
    obtain ⟨_, allowed, _⟩ := respects.split
    exact (refusing_progresses_iff appends allowed running refuses).mpr fitting

/-- A 70-byte message whose first 65 bytes arrive after a header: one byte, then eight words. -/
def oversizedCycles : List Inputs :=
  [idle, word [78, 0, 1, 1, 7, 0, 0, 0], word [70]] ++
    List.replicate 8 (word [0x99, 0, 0, 0, 0, 0, 0, 0])

/-- A reachable state both refuses input and makes no progress. -/
theorem oversized_message_wedges :
    ¬ ∀ (sub : Submodules) (r₀ : Regs) (is : List Inputs) (i : Inputs), Appends sub →
      r₀.state = .reset → Respects sub r₀ (is ++ [i]) → i.reset = false →
      Refuses (run sub r₀ is) → progresses sub i (run sub r₀ is) = true := by
  -- With 65 bytes held no further word is accepted, and 70 are needed.
  intro always
  have refuses : Refuses (run reference resetRegs oversizedCycles) :=
    ⟨Or.inr (by decide +kernel), by decide +kernel⟩
  have moves := always reference resetRegs oversizedCycles idle reference_appends rfl
    (by decide +kernel) rfl refuses
  have stuck : progresses reference idle (run reference resetRegs oversizedCycles) = false := by
    decide +kernel
  rw [stuck] at moves
  cases moves

/-- A unit of two-byte messages: four of them arrive in each word, and one is taken. -/
def crowdedCycles : List Inputs :=
  [idle, word [100, 0, 46, 1, 7, 0, 0, 0]] ++
    List.replicate 11 (word [2, 0x99, 2, 0x99, 2, 0x99, 2, 0x99]) ++ [idle]

/-- With 66 bytes buffered a word is refused, and a message is taken all the same. -/
theorem progresses_iff_never_oversized_crowded :
    ((∀ before i after, crowdedCycles = before ++ i :: after → i.reset = false →
        Refuses (run reference resetRegs before) →
          progresses reference i (run reference resetRegs before) = true) ↔
      ∀ before i after, crowdedCycles = before ++ i :: after → i.reset = false →
        ¬ Oversized (run reference resetRegs before)) ∧
      Refuses (run reference resetRegs (crowdedCycles.take 13)) ∧
      (run reference resetRegs (crowdedCycles.take 13)).bufferLength = 66 ∧
      progresses reference idle (run reference resetRegs (crowdedCycles.take 13)) = true := by
  refine ⟨progresses_iff_never_oversized reference reference_appends resetRegs crowdedCycles
    (by decide +kernel), ⟨Or.inr (by decide +kernel), by decide +kernel⟩, by decide +kernel, ?_⟩
  decide +kernel

end MarketData.Bats
