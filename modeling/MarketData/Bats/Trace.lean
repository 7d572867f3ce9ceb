import MarketData.Bats.Parser

/-! What one clock edge of the Verilog parser consumes, flushes and accepts. -/

namespace MarketData.Bats

/-- The first `n` bytes of the 72-byte buffer. -/
def front (buf : BitVec 576) (n : Nat) : List Byte :=
  (List.range n).map fun k => byteBE buf k

/-- The first `n` bytes of an input word. -/
def wordBytes (data : BitVec 64) (n : Nat) : List Byte :=
  (List.range n).map fun k => byteBE data k

/-- Byte enables contiguous from byte 0: the top `n` of the eight bits. -/
def topEnables (n : Nat) : BitVec 8 :=
  ~~~(0xFF#8 >>> n)

/-- How many byte enables are set. -/
def enabledCount (byteEnables : BitVec 8) : Nat :=
  (List.range 8).countP fun k => byteEnables.getLsbD k

/-- The bytes an input word adds to the stream. -/
def acceptedBytes (i : Inputs) : List Byte :=
  if i.dsDataValid then wordBytes i.dsData (enabledCount i.dsByteEnables) else []

/-- The little-endian value of a byte string. -/
def leValue : List Byte → Nat
  | [] => 0
  | b :: bs => b.toNat + 256 * leValue bs

/-- `add_data_to_buffer` appends the enabled bytes of a valid word and is the identity otherwise. -/
structure Appends (sub : Submodules) : Prop where
  length : ∀ buf len data n, n ≤ 8 → len.toNat + n ≤ bufBytes →
    (sub.addDataToBuffer buf len true data (topEnables n)).2.toNat = len.toNat + n
  bytes : ∀ buf len data n, n ≤ 8 → len.toNat + n ≤ bufBytes →
    front (sub.addDataToBuffer buf len true data (topEnables n)).1 (len.toNat + n) =
      front buf len.toNat ++ wordBytes data n
  identity : ∀ buf len data byteEnables,
    sub.addDataToBuffer buf len false data byteEnables = (buf, len)

/-- `new_uxx_be` extracts a little-endian field of up to eight bytes. -/
def ExtractsLittleEndian (sub : Submodules) : Prop :=
  ∀ start len buf, start + len ≤ bufBytes → len ≤ 8 →
    (sub.newUxxBe start len buf).toNat = leValue ((front buf (start + len)).drop start)

/-- The environment's promise: valid words only when ready, enables contiguous from byte 0. -/
def Allowed (i : Inputs) (r : Regs) : Prop :=
  i.dsDataValid = true →
    readyForUdpInput r = true ∧ ∃ n, n ≤ 8 ∧ i.dsByteEnables = topEnables n

/-- Every cycle of a run keeps the environment's promise. -/
def Respects (sub : Submodules) : Regs → List Inputs → Prop
  | _, [] => True
  | r, i :: is => Allowed i r ∧ Respects sub (step sub i r) is

/-- What a cycle takes from the front of the buffer. -/
inductive Event where
  /-- The eight bytes of a Sequenced Unit Header. -/
  | unitHdr (bytes : List Byte)
  /-- One message, and the sequence number it is sampled with. -/
  | message (bytes : List Byte) (seqNo : BitVec 32)
  deriving DecidableEq, Repr

/-- The consumed bytes. -/
def Event.bytes : Event → List Byte
  | .unitHdr bytes => bytes
  | .message bytes _ => bytes

/-- Whether the event is a message consumption. -/
def Event.isMessage : Event → Bool
  | .unitHdr _ => false
  | .message _ _ => true

section Cycle

variable (sub : Submodules) (i : Inputs) (r : Regs)

/-- The consumption of a cycle; a reset edge consumes nothing. -/
def event : Option Event :=
  if i.reset then none
  else match r.state with
    | .readUnitHdr =>
      if hdrReady sub i r then some (.unitHdr (front (abuf sub i r) 8)) else none
    | .readMsg =>
      if msgReady sub i r then
        some (.message (front (abuf sub i r) (msgLength sub i r).toNat) r.nextSeqNo)
      else none
    | _ => none

/-- The cycle discards the buffer: a malformed message, or a bad end of frame. -/
def flushes : Bool :=
  !i.reset && ((decide (r.state = .readMsg) && msgMalformed sub i r) ||
    (i.dsDataValid && i.dsEofBad && decide (r.state ≠ .reset)))

end Cycle

/-- The consumptions of a run, in order. -/
def events (sub : Submodules) : Regs → List Inputs → List Event
  | _, [] => []
  | r, i :: is => (event sub i r).toList ++ events sub (step sub i r) is

/-- The bytes accepted by a run, in order. -/
def acceptedAll (is : List Inputs) : List Byte :=
  is.flatMap acceptedBytes

/-- No edge of the run is a reset. -/
def NoReset (is : List Inputs) : Prop :=
  ∀ i ∈ is, i.reset = false

/-- No cycle of the run discards the buffer. -/
def NoFlush (sub : Submodules) : Regs → List Inputs → Prop
  | _, [] => True
  | r, i :: is => flushes sub i r = false ∧ NoFlush sub (step sub i r) is

/-- Counting the top enables counts the enabled bytes. -/
theorem enabledCount_topEnables {n : Nat} (small : n ≤ 8) : enabledCount (topEnables n) = n := by
  -- Nine patterns are possible, and each is counted by evaluation.
  have all : ∀ m : Fin 9, enabledCount (topEnables m.val) = m.val := by decide
  exact all ⟨n, by omega⟩

/-- The front has as many bytes as asked for. -/
@[simp] theorem front_length (buf : BitVec 576) (n : Nat) : (front buf n).length = n := by
  -- The front lists one byte for each position.
  simp [front]

/-- Dropping the front of a buffer by a left shift drops it from the bytes held. -/
theorem front_shiftLeft (buf : BitVec 576) {c n : Nat} (within : c ≤ n) (fits : n ≤ 72) :
    front (buf <<< (8 * c)) (n - c) = (front buf n).drop c := by
  -- Byte `k` of the shifted buffer is byte `k + c` of the old one.
  apply List.ext_getElem
  · simp
  · intro k inFront _
    have small : k < n - c := by simpa using inFront
    simp only [front, List.getElem_map, List.getElem_range, List.getElem_drop]
    rw [byteBE_shiftLeft (n := 72) rfl _ _ _ (by omega), if_pos (by omega)]
    congr 1
    omega

/-- The message length is the first byte held. -/
theorem msgLength_eq (sub : Submodules) (i : Inputs) (r : Regs) :
    msgLength sub i r = byteBE (abuf sub i r) 0 := rfl

/-- Taking the first bytes of the front is a shorter front. -/
theorem front_take (buf : BitVec 576) {m n : Nat} (within : m ≤ n) :
    (front buf n).take m = front buf m := by
  -- Taking from a list of positions takes the first positions.
  simp [front, ← List.map_take, List.take_range, Nat.min_eq_left within]

/-- Ready means out of reset with room for one more word. -/
theorem readyForUdpInput_iff (r : Regs) :
    readyForUdpInput r = true ↔ r.state ≠ .reset ∧ r.bufferLength.toNat ≤ 64 := by
  -- The two comparisons of the ready signal are read as propositions.
  unfold readyForUdpInput
  rw [Bool.and_eq_true, decide_eq_true_eq, decide_eq_true_eq]
  exact Iff.rfl

/-- A promised input is appended to the bytes held, and the buffer is large enough. -/
theorem append_spec {sub : Submodules} (appends : Appends sub) {i : Inputs} {r : Regs}
    (fits : r.bufferLength.toNat ≤ 72) (allowed : Allowed i r) :
    (alen sub i r).toNat = r.bufferLength.toNat + (acceptedBytes i).length ∧
      (alen sub i r).toNat ≤ 72 ∧
      front (abuf sub i r) (alen sub i r).toNat =
        front r.buffer r.bufferLength.toNat ++ acceptedBytes i := by
  -- A valid word is promised room and contiguous enables, which is what the append needs.
  cases valid : i.dsDataValid with
  | false =>
    -- Without a valid word the append is the identity.
    have same := appends.identity r.buffer r.bufferLength i.dsData i.dsByteEnables
    simp [alen, abuf, acceptedBytes, valid, same, fits]
  | true =>
    obtain ⟨ready, n, small, enables⟩ := allowed valid
    have room : r.bufferLength.toNat ≤ 64 := ((readyForUdpInput_iff r).mp ready).2
    have bound : r.bufferLength.toNat + n ≤ bufBytes := by unfold bufBytes; omega
    have bytes : acceptedBytes i = wordBytes i.dsData n := by
      simp [acceptedBytes, valid, enables, enabledCount_topEnables small]
    have count : (wordBytes i.dsData n).length = n := by simp [wordBytes]
    have length := appends.length r.buffer r.bufferLength i.dsData n small bound
    have held := appends.bytes r.buffer r.bufferLength i.dsData n small bound
    simp only [alen, abuf, valid, enables, bytes, count, length]
    refine ⟨trivial, ?_, held⟩
    unfold bufBytes at bound
    omega

section Step

variable {sub : Submodules} {i : Inputs} {r : Regs}

/-- A reset edge enters ST_RESET and leaves the buffer registers as they are. -/
theorem step_reset (reset : i.reset = true) : (step sub i r).state = .reset := by
  -- The reset branch is the last assignment of the state.
  simp [step, reset]

/-- The cycle after reset clears the buffer and waits for a unit header. -/
theorem step_init (running : i.reset = false) (state : r.state = .reset) :
    (step sub i r).state = .readUnitHdr ∧ (step sub i r).buffer = 0 ∧
      (step sub i r).bufferLength = 0 := by
  -- ST_RESET clears the registers, and a bad end of frame does not count there.
  simp [step, running, state]

/-- A flush empties the buffer and waits for a unit header. -/
theorem step_flush (flush : flushes sub i r = true) :
    (step sub i r).state = .readUnitHdr ∧ (step sub i r).buffer = 0 ∧
      (step sub i r).bufferLength = 0 := by
  -- A bad end of frame overrides the cycle; otherwise the malformed branch clears the buffer.
  simp only [flushes, Bool.and_eq_true, Bool.or_eq_true, Bool.not_eq_true', decide_eq_true_eq]
    at flush
  obtain ⟨running, flush⟩ := flush
  by_cases bad : i.dsDataValid = true ∧ i.dsEofBad = true ∧ r.state ≠ .reset
  · simp [step, running, bad]
  · -- Without a bad end of frame it is the malformed message that flushes.
    rcases flush with ⟨state, malformed⟩ | ⟨⟨valid, eof⟩, state⟩
    · simp only [step, running, state, malformed, if_true, Bool.false_eq_true, if_false]
      split <;> exact ⟨rfl, rfl, rfl⟩
    · exact absurd ⟨valid, eof, state⟩ bad

/-- Without a flush neither cause of one is present. -/
theorem flushes_false (running : i.reset = false) (calm : flushes sub i r = false) :
    ¬ (i.dsDataValid = true ∧ i.dsEofBad = true ∧ r.state ≠ .reset) ∧
      (r.state = .readMsg → msgMalformed sub i r = false) := by
  -- Neither disjunct of the flush holds.
  simp only [flushes, running, Bool.not_false, Bool.true_and, Bool.or_eq_false_iff,
    Bool.and_eq_false_imp, decide_eq_true_eq, decide_eq_false_iff_not] at calm
  refine ⟨fun ⟨valid, eof, state⟩ => ?_, calm.1⟩
  exact calm.2 (by simp [valid, eof]) state

/-- Dropping nothing leaves the appended buffer. -/
theorem compress_zero (buf : BitVec 576) (len : BitVec 7) :
    compressBuffer buf len 0#7 = (buf, len) := by
  -- A shift by no bytes and a subtraction of zero change nothing.
  simp [compressBuffer]

/-- A cycle that consumes nothing only stores the appended bytes. -/
theorem step_idle (running : i.reset = false) (calm : flushes sub i r = false)
    (none : event sub i r = none) (state : r.state ≠ .reset) :
    (step sub i r).state = r.state ∧ (step sub i r).buffer = abuf sub i r ∧
      (step sub i r).bufferLength = alen sub i r ∧
      (step sub i r).totalCounter = r.totalCounter ∧
      (step sub i r).nextSeqNo = r.nextSeqNo := by
  -- In each state the consumption wire is zero, so the appended buffer is stored.
  obtain ⟨good, formed⟩ := flushes_false running calm
  cases mode : r.state with
  | reset => exact absurd mode state
  | noop =>
    simp only [step, running, mode, Bool.false_eq_true, if_false]
    rw [if_neg (by rw [mode] at good; exact good)]
    split <;> exact ⟨rfl, rfl, rfl, rfl, rfl⟩
  | readUnitHdr =>
    have waits : hdrReady sub i r = false := by
      simpa [event, running, mode] using none
    have kept : compressBuffer (abuf sub i r) (alen sub i r) (consume sub i r) =
        (abuf sub i r, alen sub i r) := by
      rw [show consume sub i r = 0#7 by simp [consume, mode, waits], compress_zero]
    simp only [step, running, mode, waits, Bool.false_eq_true, if_false, cbuf, clen, kept]
    rw [if_neg (by rw [mode] at good; exact good)]
    split <;> exact ⟨rfl, rfl, rfl, rfl, rfl⟩
  | readMsg =>
    have waits : msgReady sub i r = false := by
      simpa [event, running, mode] using none
    have kept : compressBuffer (abuf sub i r) (alen sub i r) (consume sub i r) =
        (abuf sub i r, alen sub i r) := by
      rw [show consume sub i r = 0#7 by simp [consume, mode, waits], compress_zero]
    simp only [step, running, mode, waits, formed mode, Bool.false_eq_true, if_false, cbuf, clen,
      kept]
    rw [if_neg (by rw [mode] at good; exact good)]
    split <;> exact ⟨rfl, rfl, rfl, rfl, rfl⟩

/-- What a unit header consumption needs and does. -/
theorem step_unitHdr {bytes : List Byte} (calm : flushes sub i r = false)
    (consumed : event sub i r = some (.unitHdr bytes)) :
    i.reset = false ∧ r.state = .readUnitHdr ∧ 8 ≤ (alen sub i r).toNat ∧
      bytes = front (abuf sub i r) 8 ∧
      (step sub i r).state = .readMsg ∧
      (step sub i r).buffer = abuf sub i r <<< (8 * 8) ∧
      (step sub i r).bufferLength = alen sub i r - 8#7 ∧
      (step sub i r).totalCounter = (sub.newUxxBe 2 1 (abuf sub i r)).setWidth 16 ∧
      (step sub i r).nextSeqNo = (sub.newUxxBe 4 4 (abuf sub i r)).setWidth 32 := by
  -- Only the header state with eight bytes buffered consumes a header.
  unfold event at consumed
  cases running : i.reset with
  | true => simp [running] at consumed
  | false =>
    obtain ⟨good, _⟩ := flushes_false running calm
    simp only [running, Bool.false_eq_true, if_false] at consumed
    cases mode : r.state with
    | reset => simp [mode] at consumed
    | noop => simp [mode] at consumed
    | readMsg => simp only [mode] at consumed; split at consumed <;> simp at consumed
    | readUnitHdr =>
      simp only [mode] at consumed
      split at consumed
      · rename_i ready
        simp only [Option.some.injEq, Event.unitHdr.injEq] at consumed
        have enough : 8 ≤ (alen sub i r).toNat := by
          simpa [hdrReady, BitVec.le_def] using ready
        have taken : consume sub i r = 8#7 := by simp [consume, mode, ready]
        refine ⟨rfl, rfl, enough, consumed.symm, ?_⟩
        simp only [step, running, mode, ready, Bool.false_eq_true, if_false, if_true, cbuf, clen,
          taken, compressBuffer]
        rw [if_neg (by rw [mode] at good; exact good)]
        split <;> exact ⟨rfl, rfl, rfl, rfl, rfl⟩
      · simp at consumed

/-- The first two bytes are known once two bytes are buffered. -/
theorem msgKnown_iff : msgKnown sub i r = true ↔ 2 ≤ (alen sub i r).toNat := by
  -- The comparison of seven-bit numbers is one of naturals.
  simp [msgKnown, BitVec.le_def]

/-- A message is malformed when its length byte is known and is 0 or above 72. -/
theorem msgMalformed_iff :
    msgMalformed sub i r = true ↔
      2 ≤ (alen sub i r).toNat ∧
        ((msgLength sub i r).toNat = 0 ∨ 72 < (msgLength sub i r).toNat) := by
  -- The two illegal lengths are compared as naturals.
  rw [msgMalformed, Bool.and_eq_true, msgKnown_iff]
  simp only [Bool.or_eq_true, decide_eq_true_eq, BitVec.lt_def, BitVec.toNat_ofNat,
    ← BitVec.toNat_inj]

/-- A message is ready when its legal length is buffered. -/
theorem msgReady_iff :
    msgReady sub i r = true ↔
      2 ≤ (alen sub i r).toNat ∧ 0 < (msgLength sub i r).toNat ∧
        (msgLength sub i r).toNat ≤ 72 ∧ (msgLength sub i r).toNat ≤ (alen sub i r).toNat := by
  -- The legal lengths fit in seven bits, so the narrowed comparison is exact for them.
  have narrow := (alen sub i r).isLt
  -- The comparison reads seven bits of the length, which are all of a legal one.
  have whole : ((msgLength sub i r).setWidth 7).setWidth 8 ≤ (alen sub i r).setWidth 8 ↔
      (msgLength sub i r).toNat % 128 ≤ (alen sub i r).toNat := by
    simp only [BitVec.le_def, BitVec.toNat_setWidth]
    omega
  have formed : msgMalformed sub i r = false ↔ ¬ (2 ≤ (alen sub i r).toNat ∧
      ((msgLength sub i r).toNat = 0 ∨ 72 < (msgLength sub i r).toNat)) := by
    rw [← msgMalformed_iff, Bool.not_eq_true]
  rw [msgReady, Bool.and_eq_true, Bool.and_eq_true, msgKnown_iff, Bool.not_eq_true',
    decide_eq_true_eq, whole, formed]
  omega

/-- What a message consumption needs and does. -/
theorem step_message {bytes : List Byte} {seqNo : BitVec 32} (calm : flushes sub i r = false)
    (consumed : event sub i r = some (.message bytes seqNo)) :
    i.reset = false ∧ r.state = .readMsg ∧ 2 ≤ (alen sub i r).toNat ∧
      0 < (msgLength sub i r).toNat ∧ (msgLength sub i r).toNat ≤ 72 ∧
      (msgLength sub i r).toNat ≤ (alen sub i r).toNat ∧
      bytes = front (abuf sub i r) (msgLength sub i r).toNat ∧ seqNo = r.nextSeqNo ∧
      (step sub i r).state =
        (if r.totalCounter ≤ 1#16 then .readUnitHdr else .readMsg) ∧
      (step sub i r).buffer = abuf sub i r <<< (8 * (msgLength sub i r).toNat) ∧
      (step sub i r).bufferLength = alen sub i r - (msgLength sub i r).setWidth 7 ∧
      (step sub i r).totalCounter = r.totalCounter - 1#16 ∧
      (step sub i r).nextSeqNo = r.nextSeqNo + 1#32 := by
  -- Only the message state with a ready message consumes one.
  unfold event at consumed
  cases running : i.reset with
  | true => simp [running] at consumed
  | false =>
    obtain ⟨good, formed⟩ := flushes_false running calm
    simp only [running, Bool.false_eq_true, if_false] at consumed
    cases mode : r.state with
    | reset => simp [mode] at consumed
    | noop => simp [mode] at consumed
    | readUnitHdr => simp only [mode] at consumed; split at consumed <;> simp at consumed
    | readMsg =>
      simp only [mode] at consumed
      split at consumed
      · rename_i ready
        simp only [Option.some.injEq, Event.message.injEq] at consumed
        obtain ⟨known, positive, small, whole⟩ := msgReady_iff.mp ready
        have taken : consume sub i r = (msgLength sub i r).setWidth 7 := by
          simp [consume, mode, ready]
        have amount : ((msgLength sub i r).setWidth 7).toNat = (msgLength sub i r).toNat := by
          simp only [BitVec.toNat_setWidth]
          omega
        refine ⟨rfl, rfl, known, positive, small, whole, consumed.1.symm, consumed.2.symm, ?_⟩
        simp only [step, running, mode, formed mode, ready, Bool.false_eq_true, if_false, if_true,
          cbuf, clen, taken, compressBuffer, amount]
        rw [if_neg (by rw [mode] at good; exact good)]
        exact ⟨rfl, rfl, rfl, rfl, rfl⟩
      · simp at consumed

end Step

/-- The bytes held in the buffer. -/
def held (r : Regs) : List Byte :=
  front r.buffer r.bufferLength.toNat

/-- The bytes a cycle consumes. -/
def consumedBytes (sub : Submodules) (i : Inputs) (r : Regs) : List Byte :=
  (event sub i r).toList.flatMap Event.bytes

section Conservation

variable {sub : Submodules} {i : Inputs} {r : Regs}

/-- An empty buffer holds nothing. -/
theorem held_empty (empty : r.bufferLength = 0) : held r = [] := by
  -- No positions are listed.
  simp [held, front, empty]

/-- Shifting out what was taken splits the appended bytes in two. -/
theorem front_split (buf : BitVec 576) (len taken : BitVec 7) (within : taken.toNat ≤ len.toNat)
    (fits : len.toNat ≤ 72) :
    (len - taken).toNat = len.toNat - taken.toNat ∧
      front buf taken.toNat ++ front (buf <<< (8 * taken.toNat)) (len - taken).toNat =
        front buf len.toNat := by
  -- The bytes taken are the first ones, and the shift moves the others to the front.
  have count : (len - taken).toNat = len.toNat - taken.toNat := by
    rw [BitVec.toNat_sub_of_le (BitVec.le_def.mpr within)]
  refine ⟨count, ?_⟩
  rw [count, front_shiftLeft buf within fits, ← front_take buf within, List.take_append_drop]

/-- Unless it flushes, a cycle after reset keeps every byte in order and the buffer in bounds. -/
theorem step_conserves (appends : Appends sub) (fits : r.bufferLength.toNat ≤ 72)
    (allowed : Allowed i r) (running : i.reset = false) (active : r.state ≠ .reset)
    (calm : flushes sub i r = false) :
    consumedBytes sub i r ++ held (step sub i r) = held r ++ acceptedBytes i ∧
      (step sub i r).bufferLength.toNat ≤ 72 := by
  -- The append adds the accepted bytes, and the consumption takes from the front.
  obtain ⟨_, bound, appended⟩ := append_spec appends fits allowed
  -- What the cycle consumes decides what it shifts out.
  cases consumed : event sub i r with
  | none =>
    obtain ⟨_, buffer, length, _⟩ := step_idle running calm consumed active
    simp only [consumedBytes, consumed, held, buffer, length, Option.toList_none,
      List.flatMap_nil, List.nil_append]
    exact ⟨appended, bound⟩
  | some taken =>
    cases taken with
    | unitHdr bytes =>
      obtain ⟨_, _, enough, front8, _, buffer, length, _⟩ := step_unitHdr calm consumed
      obtain ⟨count, split⟩ := front_split (abuf sub i r) (alen sub i r) 8#7 enough bound
      have all : bytes ++ held (step sub i r) = held r ++ acceptedBytes i := by
        rw [held, buffer, length, front8]
        exact split.trans appended
      refine ⟨by simpa [consumedBytes, consumed, Event.bytes] using all, ?_⟩
      rw [length, count]
      omega
    | message bytes seqNo =>
      obtain ⟨_, _, _, _, small, whole, frontMsg, _, _, buffer, length, _⟩ :=
        step_message calm consumed
      have amount : ((msgLength sub i r).setWidth 7).toNat = (msgLength sub i r).toNat := by
        rw [BitVec.toNat_setWidth, Nat.mod_eq_of_lt (by omega)]
      obtain ⟨count, split⟩ := front_split (abuf sub i r) (alen sub i r)
        ((msgLength sub i r).setWidth 7) (by omega) bound
      rw [amount] at split
      have all : bytes ++ held (step sub i r) = held r ++ acceptedBytes i := by
        rw [held, buffer, length, frontMsg]
        exact split.trans appended
      refine ⟨by simpa [consumedBytes, consumed, Event.bytes] using all, ?_⟩
      rw [length, count]
      omega

end Conservation

end MarketData.Bats
