import MarketData.Bats.Reference

/-! How many messages stand between two unit headers. -/

namespace MarketData.Bats

/-- The count byte of a Sequenced Unit Header. -/
def countByte (header : List Byte) : Nat :=
  (header.getD 2 0#8).toNat

/-- Consumptions of which `k` more are messages before a header may come. -/
def Accounted : Nat → List Event → Prop
  | _, [] => True
  -- The state after a header is always ST_READ_MSG, so at least one message follows.
  | 0, .unitHdr header :: es => Accounted (max 1 (countByte header)) es
  | k + 1, .message _ _ :: es => Accounted k es
  | _, _ => False

/-- How many messages the registers will consume before they look for a header. -/
def outstanding (r : Regs) : Nat :=
  match r.state with
  | .readMsg => max 1 r.totalCounter.toNat
  | _ => 0

section Step

variable {sub : Submodules} {i : Inputs} {r : Regs}

/-- A cycle that consumes nothing leaves the account as it is. -/
theorem outstanding_idle (running : i.reset = false) (calm : flushes sub i r = false)
    (none : event sub i r = none) : outstanding (step sub i r) = outstanding r := by
  -- The state decides whether anything is owed; an idle cycle changes it only on leaving ST_RESET.
  by_cases init : r.state = .reset
  · -- Leaving ST_RESET leads to the header state, which owes no message.
    obtain ⟨state, _⟩ := @step_init sub _ _ running init
    simp only [outstanding, state, init]
  · obtain ⟨state, _, _, total, _⟩ := step_idle running calm none init
    simp only [outstanding, state, total]

/-- The count field of a consumed header is its third byte. -/
theorem header_count (extracts : ExtractsLittleEndian sub) :
    ((sub.newUxxBe 2 1 (abuf sub i r)).setWidth 16).toNat =
      countByte (front (abuf sub i r) 8) := by
  -- The one-byte field at offset 2 is read off the buffer and widened to sixteen bits.
  have field := extracts 2 1 (abuf sub i r) (by decide) (by decide)
  have value : (sub.newUxxBe 2 1 (abuf sub i r)).toNat = (byteBE (abuf sub i r) 2).toNat := by
    rw [field]
    simp [front, List.range_succ, leValue]
  have narrow := (byteBE (abuf sub i r) 2).isLt
  rw [BitVec.toNat_setWidth, value, Nat.mod_eq_of_lt (by omega)]
  simp [countByte, front, List.range_succ]

/-- A header is consumed when nothing is owed, and then its count is, but at least one. -/
theorem outstanding_unitHdr (extracts : ExtractsLittleEndian sub) {header : List Byte}
    (calm : flushes sub i r = false) (consumed : event sub i r = some (.unitHdr header)) :
    outstanding r = 0 ∧ outstanding (step sub i r) = max 1 (countByte header) := by
  -- A header is consumed in ST_READ_UNIT_HDR, which owes nothing, and its count is latched.
  obtain ⟨_, state, _, bytes, next, _, _, total, _⟩ := step_unitHdr calm consumed
  refine ⟨by simp only [outstanding, state], ?_⟩
  simp only [outstanding, next, total, header_count extracts, bytes]

/-- A consumed message settles one of those owed. -/
theorem outstanding_message {bytes : List Byte} {seqNo : BitVec 32}
    (calm : flushes sub i r = false)
    (consumed : event sub i r = some (.message bytes seqNo)) :
    outstanding r = outstanding (step sub i r) + 1 := by
  -- The counter goes down by one, and the state changes when it was at most one.
  obtain ⟨_, state, _, _, _, _, _, _, next, _, _, total, _⟩ := step_message calm consumed
  -- The counter is compared before it is decremented.
  rcases Nat.lt_or_ge 1 r.totalCounter.toNat with more | few
  · have goesOn : ¬ r.totalCounter ≤ 1#16 := by
      rw [BitVec.le_def]
      exact Nat.not_le.mpr more
    have less : (r.totalCounter - 1#16).toNat = r.totalCounter.toNat - 1 := by
      apply BitVec.toNat_sub_of_le
      exact BitVec.le_def.mpr (Nat.le_of_lt more)
    simp only [outstanding, state, next, total, if_neg goesOn, less]
    omega
  · have ends : r.totalCounter ≤ 1#16 := BitVec.le_def.mpr few
    simp only [outstanding, state, next, if_pos ends]
    omega

end Step

/-- Every run without reset and flush keeps the account of its units. -/
theorem events_accounted {sub : Submodules} (extracts : ExtractsLittleEndian sub)
    (is : List Inputs) {r : Regs} (running : NoReset is) (calm : NoFlush sub r is) :
    Accounted (outstanding r) (events sub r is) := by
  -- Induction on the cycles: what a cycle consumes settles or renews what is owed.
  induction is generalizing r with
  | nil => simp [events, Accounted]
  | cons i is ih =>
    have awake : i.reset = false := running i (by simp)
    obtain ⟨quiet, later⟩ := calm
    have rest := ih (fun j member => running j (by simp [member])) later
    cases consumed : event sub i r with
    | none =>
      rw [outstanding_idle awake quiet consumed] at rest
      simpa [events, consumed] using rest
    | some taken =>
      cases taken with
      | unitHdr header =>
        obtain ⟨settled, owed⟩ := outstanding_unitHdr extracts quiet consumed
        rw [owed] at rest
        simpa [events, consumed, settled, Accounted] using rest
      | message bytes seqNo =>
        have owed := outstanding_message quiet consumed
        simpa [events, consumed, owed, Accounted] using rest

/-- What follows the first consumptions of an account is accounted for too. -/
theorem Accounted.suffix {k : Nat} {pre post : List Event} (accounted : Accounted k (pre ++ post)) :
    ∃ k', Accounted k' post := by
  -- Induction on the part in front; each of its events is matched by the account.
  induction pre generalizing k with
  | nil => exact ⟨k, accounted⟩
  | cons e pre ih =>
    cases e with
    | unitHdr header =>
      cases k with
      | zero => exact ih accounted
      | succ k => exact absurd accounted (by simp [Accounted])
    | message bytes seqNo =>
      cases k with
      | zero => exact absurd accounted (by simp [Accounted])
      | succ k => exact ih accounted

/-- The messages before the next header are exactly those owed. -/
theorem Accounted.messages_length {k : Nat} {ms post : List Event} {header : List Byte}
    (accounted : Accounted k (ms ++ .unitHdr header :: post))
    (messages : ∀ m ∈ ms, m.isMessage = true) : ms.length = k := by
  -- Induction on the messages; the header can only come when nothing is owed any more.
  induction ms generalizing k with
  | nil =>
    cases k with
    | zero => rfl
    | succ k => exact absurd accounted (by simp [Accounted])
  | cons m ms ih =>
    have message := messages m (by simp)
    cases m with
    | unitHdr header => simp [Event.isMessage] at message
    | message bytes seqNo =>
      cases k with
      | zero => exact absurd accounted (by simp [Accounted])
      | succ k =>
        have rest := ih accounted fun m member => messages m (by simp [member])
        simp [rest]

/-- Between two headers stand as many messages as the first one counts, and never none. -/
theorem unit_messages_max {sub : Submodules} (extracts : ExtractsLittleEndian sub)
    {is : List Inputs} {r : Regs} (running : NoReset is) (calm : NoFlush sub r is)
    {pre ms post : List Event} {header next : List Byte}
    (consumed : events sub r is = pre ++ .unitHdr header :: ms ++ .unitHdr next :: post)
    (messages : ∀ m ∈ ms, m.isMessage = true) : ms.length = max 1 (countByte header) := by
  -- The account of the run is cut in front of the first of the two headers.
  have accounted := events_accounted extracts is running calm
  rw [consumed, List.append_assoc] at accounted
  obtain ⟨k, accounted⟩ := accounted.suffix
  cases k with
  | zero => exact Accounted.messages_length accounted messages
  | succ k => exact absurd accounted (by simp [Accounted])

/-- A unit is accounted as its header says exactly when its count is not zero. -/
theorem unit_messages_count_iff (sub : Submodules) (extracts : ExtractsLittleEndian sub)
    (r₀ : Regs) (is : List Inputs) (running : NoReset is) (calm : NoFlush sub r₀ is)
    (pre ms post : List Event) (header next : List Byte)
    (consumed : events sub r₀ is = pre ++ .unitHdr header :: ms ++ .unitHdr next :: post)
    (messages : ∀ m ∈ ms, m.isMessage = true) :
    ms.length = countByte header ↔ countByte header ≠ 0 := by
  -- The number of messages is the larger of one and the count.
  have counted := unit_messages_max extracts running calm consumed messages
  omega

/-- A unit of one Time message and the header of the next unit. -/
def timeUnitCycles : List Inputs :=
  [idle, word [14, 0, 1, 1, 5, 0, 0, 0], word [6, 0x20, 1, 2, 3, 4],
    word [14, 0, 1, 1, 6, 0, 0, 0]]

/-- A unit that counts one message is followed by that message alone. -/
theorem unit_messages_count_iff_time :
    [Event.message [6, 0x20, 1, 2, 3, 4] 5#32].length = countByte [14, 0, 1, 1, 5, 0, 0, 0] ↔
      countByte [14, 0, 1, 1, 5, 0, 0, 0] ≠ 0 :=
  unit_messages_count_iff reference reference_extracts resetRegs timeUnitCycles
    (by simp [NoReset, timeUnitCycles, idle, word]) (by decide +kernel) [] _ []
    [14, 0, 1, 1, 5, 0, 0, 0] [14, 0, 1, 1, 6, 0, 0, 0] (by decide +kernel)
    (by simp [Event.isMessage])

/-- A heartbeat, a unit of one Time message, and the header of a third unit. -/
def heartbeatCycles : List Inputs :=
  [idle, word [8, 0, 0, 1, 5, 0, 0, 0], word [14, 0, 1, 1, 5, 0, 0, 0],
    word [6, 0x20, 1, 2, 3, 4], word [14, 0, 1, 1, 6, 0, 0, 0]]

/-- The whole unit after the heartbeat is consumed as a message of the heartbeat. -/
theorem heartbeat_unit_consumes_message :
    ¬ ∀ (sub : Submodules) (r₀ : Regs) (is : List Inputs), Appends sub →
      ExtractsLittleEndian sub → r₀.state = .reset → Respects sub r₀ is → NoReset is →
      NoFlush sub r₀ is → ∀ (pre ms post : List Event) (header next : List Byte),
      events sub r₀ is = pre ++ .unitHdr header :: ms ++ .unitHdr next :: post →
      (∀ m ∈ ms, m.isMessage = true) → ms.length = countByte header := by
  -- The run is evaluated: the second unit, header included, is taken as one message.
  intro always
  have consumed : events reference resetRegs heartbeatCycles =
      [] ++ .unitHdr [8, 0, 0, 1, 5, 0, 0, 0] ::
        [.message [14, 0, 1, 1, 5, 0, 0, 0, 6, 0x20, 1, 2, 3, 4] 5#32] ++
        .unitHdr [14, 0, 1, 1, 6, 0, 0, 0] :: [] := by decide +kernel
  have counted := always reference resetRegs heartbeatCycles reference_appends
    reference_extracts rfl (by decide +kernel) (by simp [NoReset, heartbeatCycles, idle, word])
    (by decide +kernel) _ _ _ _ _ consumed (by simp [Event.isMessage])
  -- One message is consumed where the header counts none.
  simp [countByte] at counted

end MarketData.Bats
