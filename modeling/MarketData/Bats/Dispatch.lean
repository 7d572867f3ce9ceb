import MarketData.Bats.Accounting
import MarketData.Bats.Conservation
import MarketData.Pitch.Format

/-! Well-formed units are dispatched message by message, whatever the words and the stalls. -/

namespace MarketData.Bats

/-- The types whose messages become commands. -/
def commandTypes : List (BitVec 8) :=
  [msgAddOrderLong, msgAddOrderShort, msgAddOrderExp, msgOrderExecuted, msgOrderExecutedPs]

/-- A Sequenced Unit: a header that counts the messages after it. -/
structure SeqUnit where
  /-- Length, count, unit and sequence number. -/
  header : List Byte
  /-- The messages of the unit. -/
  messages : List (Message 2 64)
  /-- The header has its fixed size. -/
  header_length : header.length = 8
  /-- There is a message to count. -/
  nonempty : messages ≠ []
  /-- The count byte counts them. -/
  count : countByte header = messages.length

/-- The bytes of a unit in wire order. -/
def SeqUnit.bytes (u : SeqUnit) : List Byte :=
  u.header ++ messageBytes u.messages

/-- The bytes of consecutive units, in order. -/
def unitBytes (units : List SeqUnit) : List Byte :=
  units.flatMap SeqUnit.bytes

/-- The sequence number in bytes 4 to 7 of the header. -/
def SeqUnit.seqNo (u : SeqUnit) : BitVec 32 :=
  BitVec.ofNat 32 (leValue (u.header.drop 4))

/-- One header consumption, then each message with its own sequence number. -/
def SeqUnit.consumptions (u : SeqUnit) : List Event :=
  .unitHdr u.header ::
    u.messages.mapIdx fun k m => .message m.bytes (u.seqNo + BitVec.ofNat 32 k)

/-- Messages numbered from a first sequence number on. -/
def numbered : BitVec 32 → List (Message 2 64) → List Event
  | _, [] => []
  | seqNo, m :: ms => .message m.bytes seqNo :: numbered (seqNo + 1#32) ms

/-- Numbering by position is numbering by successive increments. -/
theorem mapIdx_eq_numbered (seqNo : BitVec 32) (ms : List (Message 2 64)) :
    (ms.mapIdx fun k m => Event.message m.bytes (seqNo + BitVec.ofNat 32 k)) =
      numbered seqNo ms := by
  -- The tail is numbered from the successor, one position earlier.
  induction ms generalizing seqNo with
  | nil => rfl
  | cons m ms ih =>
    have first : seqNo + BitVec.ofNat 32 0 = seqNo := BitVec.add_zero seqNo
    have later : ∀ k : Nat, seqNo + BitVec.ofNat 32 (k + 1) =
        seqNo + 1#32 + BitVec.ofNat 32 k := by
      intro k
      rw [BitVec.add_assoc, Nat.add_comm k 1, BitVec.ofNat_add]
    rw [List.mapIdx_cons, numbered, ← ih (seqNo + 1#32), first]
    congr 2
    funext k m
    rw [later k]

/-- What is still to be consumed: the rest of the current unit, then whole units. -/
def pending (r : Regs) (messages : List (Message 2 64)) (units : List SeqUnit) : List Event :=
  numbered r.nextSeqNo messages ++ units.flatMap SeqUnit.consumptions

/-- The parser stands before these messages of a unit and the units after it. -/
structure Synced (r : Regs) (messages : List (Message 2 64)) (units : List SeqUnit)
    (future : List Byte) : Prop where
  /-- The buffer is in bounds. -/
  fits : r.bufferLength.toNat ≤ 72
  /-- What is held and what will arrive are the bytes of what is pending. -/
  stream : held r ++ future = messageBytes messages ++ unitBytes units
  /-- The state and the counter agree with the rest of the current unit. -/
  place : (messages = [] ∧ r.state = .readUnitHdr) ∨
    (messages ≠ [] ∧ r.state = .readMsg ∧ r.totalCounter.toNat = messages.length)

section Step

variable {sub : Submodules} {i : Inputs} {r : Regs} {messages : List (Message 2 64)}
  {units : List SeqUnit} {future : List Byte}

/-- A synchronised parser is out of reset. -/
theorem Synced.active (synced : Synced r messages units future) : r.state ≠ .reset := by
  -- Both places a synchronised parser can be in are reading states.
  rcases synced.place with ⟨_, state⟩ | ⟨_, state, _⟩ <;> simp [state]

/-- The buffer after the append, and what is still to arrive, are what is pending. -/
theorem Synced.appended (appends : Appends sub)
    (synced : Synced r messages units (acceptedBytes i ++ future)) (allowed : Allowed i r) :
    front (abuf sub i r) (alen sub i r).toNat ++ future =
      messageBytes messages ++ unitBytes units := by
  -- The append adds the accepted bytes behind those held.
  obtain ⟨_, _, bytes⟩ := append_spec appends synced.fits allowed
  rw [bytes, List.append_assoc]
  exact synced.stream

/-- A nonempty buffer shows its first byte at its head. -/
theorem head_front (buf : BitVec 576) {n : Nat} (some : 0 < n) (bs : List Byte) :
    (front buf n ++ bs).head? = Option.some (byteBE buf 0) := by
  -- A nonempty front starts with byte 0.
  obtain ⟨m, rfl⟩ : ∃ m, n = m + 1 := ⟨n - 1, by omega⟩
  simp [front, List.range_succ_eq_map]

/-- In front of a message the length wire is the length of the message. -/
theorem Synced.msgLength {m : Message 2 64} {ms : List (Message 2 64)} (appends : Appends sub)
    (synced : Synced r (m :: ms) units (acceptedBytes i ++ future)) (allowed : Allowed i r)
    (known : 0 < (alen sub i r).toNat) : (msgLength sub i r).toNat = m.bytes.length := by
  -- The first byte appended is the first byte pending, which is the length byte of the message.
  have bytes := congrArg List.head? (synced.appended appends allowed)
  have long := m.lo_le
  rw [head_front _ known, messageBytes_cons, List.append_assoc, List.head?_append,
    m.lengthByte] at bytes
  simp only [Option.some_or, Option.some.injEq] at bytes
  rw [msgLength_eq, bytes]
  exact m.length_toNat (by decide)

/-- Neither cause of a flush occurs in front of well-formed units. -/
theorem Synced.calm (appends : Appends sub)
    (synced : Synced r messages units (acceptedBytes i ++ future)) (allowed : Allowed i r)
    (good : i.dsDataValid = true → i.dsEofBad = false) : flushes sub i r = false := by
  -- A malformed message cannot be in front, and no word ends in a bad frame.
  have formed : r.state = .readMsg → msgMalformed sub i r = false := by
    intro state
    rw [← Bool.not_eq_true, msgMalformed_iff]
    rintro ⟨known, illegal⟩
    cases messages with
    | nil =>
      -- Without a message the state would be the header state.
      rcases synced.place with ⟨_, other⟩ | ⟨some, _⟩
      · rw [state] at other
        cases other
      · exact some rfl
    | cons m ms =>
      have length := synced.msgLength appends allowed (by omega)
      have low := m.lo_le
      have high := m.le_hi
      omega
  have eof : (i.dsDataValid && i.dsEofBad) = false := by
    cases valid : i.dsDataValid with
    | false => rfl
    | true => simp [good valid]
  cases state : decide (r.state = .readMsg) with
  | false => simp [flushes, state, eof]
  | true => simp [flushes, formed (of_decide_eq_true state), eof]

/-- What a calm cycle consumes is taken off the front of what is pending. -/
theorem Synced.consumed (appends : Appends sub)
    (synced : Synced r messages units (acceptedBytes i ++ future)) (allowed : Allowed i r)
    (running : i.reset = false) (calm : flushes sub i r = false) :
    consumedBytes sub i r ++ (held (step sub i r) ++ future) =
        messageBytes messages ++ unitBytes units ∧
      (step sub i r).bufferLength.toNat ≤ 72 := by
  -- Conservation of the cycle, read in terms of what is pending.
  obtain ⟨kept, bound⟩ :=
    step_conserves appends synced.fits allowed running synced.active calm
  refine ⟨?_, bound⟩
  rw [← List.append_assoc, kept, List.append_assoc]
  exact synced.stream

/-- Waiting keeps the parser where it is. -/
theorem Synced.idle (appends : Appends sub)
    (synced : Synced r messages units (acceptedBytes i ++ future)) (allowed : Allowed i r)
    (running : i.reset = false) (calm : flushes sub i r = false)
    (none : event sub i r = none) :
    Synced (step sub i r) messages units future ∧
      pending (step sub i r) messages units = pending r messages units := by
  -- Nothing is taken, so the same messages and units are pending afterwards.
  obtain ⟨bytes, bound⟩ := synced.consumed appends allowed running calm
  obtain ⟨state, _, _, total, seqNo⟩ := step_idle running calm none synced.active
  simp only [consumedBytes, none, Option.toList_none, List.flatMap_nil, List.nil_append] at bytes
  refine ⟨⟨bound, bytes, ?_⟩, by rw [pending, seqNo, pending]⟩
  rw [state, total]
  exact synced.place

/-- The sequence field of a consumed header is its last four bytes. -/
theorem header_seqNo (extracts : ExtractsLittleEndian sub) :
    (sub.newUxxBe 4 4 (abuf sub i r)).setWidth 32 =
      BitVec.ofNat 32 (leValue ((front (abuf sub i r) 8).drop 4)) := by
  -- The four-byte field at offset 4 is the little-endian value of the last four header bytes.
  have field := extracts 4 4 (abuf sub i r) (by decide) (by decide)
  apply BitVec.eq_of_toNat_eq
  rw [BitVec.toNat_setWidth, field, BitVec.toNat_ofNat]

/-- A header consumption takes the next unit's header and opens the unit. -/
theorem Synced.unitHdr (appends : Appends sub) (extracts : ExtractsLittleEndian sub)
    (synced : Synced r messages units (acceptedBytes i ++ future)) (allowed : Allowed i r)
    (running : i.reset = false) (calm : flushes sub i r = false) {bytes : List Byte}
    (taken : event sub i r = some (.unitHdr bytes)) :
    ∃ messages' units', Synced (step sub i r) messages' units' future ∧
      pending r messages units = .unitHdr bytes :: pending (step sub i r) messages' units' := by
  -- In the header state the current unit is used up, so the header opens the next one.
  obtain ⟨_, state, enough, header, next, _, _, total, seqNo⟩ := step_unitHdr calm taken
  obtain ⟨stream, bound⟩ := synced.consumed appends allowed running calm
  simp only [consumedBytes, taken, Option.toList_some, List.flatMap_cons, List.flatMap_nil,
    List.append_nil, Event.bytes] at stream
  have size : bytes.length = 8 := by rw [header]; simp
  rcases synced.place with ⟨rfl, _⟩ | ⟨_, other, _⟩
  · cases units with
    | nil =>
      -- Eight bytes cannot come from no unit at all.
      have lengths := congrArg List.length stream
      simp [unitBytes, size] at lengths
    | cons u us =>
      -- The first eight bytes are the unit's header.
      have split : bytes ++ (held (step sub i r) ++ future) =
          u.header ++ (messageBytes u.messages ++ unitBytes us) := by
        simpa [unitBytes, SeqUnit.bytes] using stream
      obtain ⟨same, rest⟩ := List.append_inj split (by rw [size, u.header_length])
      have count : (step sub i r).totalCounter.toNat = u.messages.length := by
        rw [total, header_count extracts, ← header, same, u.count]
      have number : (step sub i r).nextSeqNo = u.seqNo := by
        rw [seqNo, header_seqNo extracts, ← header, same, SeqUnit.seqNo]
      refine ⟨u.messages, us, ⟨bound, rest, Or.inr ⟨u.nonempty, next, count⟩⟩, ?_⟩
      simp only [pending, numbered, List.nil_append, List.flatMap_cons, SeqUnit.consumptions,
        mapIdx_eq_numbered, number, same, List.cons_append]
  · rw [state] at other
    cases other

/-- A message consumption takes the next message with its sequence number. -/
theorem Synced.message (appends : Appends sub)
    (synced : Synced r messages units (acceptedBytes i ++ future)) (allowed : Allowed i r)
    (running : i.reset = false) (calm : flushes sub i r = false) {bytes : List Byte}
    {seqNo : BitVec 32} (taken : event sub i r = some (.message bytes seqNo)) :
    ∃ messages' units', Synced (step sub i r) messages' units' future ∧
      pending r messages units =
        .message bytes seqNo :: pending (step sub i r) messages' units' := by
  -- In the message state a message is pending, and its bytes are the ones taken.
  obtain ⟨_, state, known, _, _, _, front, number, next, _, _, total, following⟩ :=
    step_message calm taken
  obtain ⟨stream, bound⟩ := synced.consumed appends allowed running calm
  simp only [consumedBytes, taken, Option.toList_some, List.flatMap_cons, List.flatMap_nil,
    List.append_nil, Event.bytes] at stream
  cases messages with
  | nil =>
    rcases synced.place with ⟨_, other⟩ | ⟨some, _⟩
    · rw [state] at other
      cases other
    · exact absurd rfl some
  | cons m ms =>
    -- The stated length is the message's own, so exactly the message is taken.
    have length := synced.msgLength appends allowed (by omega)
    have split : bytes ++ (held (step sub i r) ++ future) =
        m.bytes ++ (messageBytes ms ++ unitBytes units) := by
      rw [stream, messageBytes_cons, List.append_assoc]
    obtain ⟨same, rest⟩ := List.append_inj split (by rw [front, front_length, length])
    refine ⟨ms, units, ⟨bound, rest, ?_⟩, ?_⟩
    · rcases synced.place with ⟨none, _⟩ | ⟨_, _, count⟩
      · cases none
      · rw [List.length_cons] at count
        cases ms with
        | nil =>
          have last : r.totalCounter ≤ 1#16 := BitVec.le_def.mpr (Nat.le_of_eq count)
          exact Or.inl ⟨rfl, by rw [next, if_pos last]⟩
        | cons m' ms =>
          -- More than one message was left, so the unit goes on.
          rw [List.length_cons] at count
          have more : ¬ r.totalCounter ≤ 1#16 := by
            rw [BitVec.le_def]
            show ¬ r.totalCounter.toNat ≤ 1
            omega
          have less : (r.totalCounter - 1#16).toNat = r.totalCounter.toNat - 1 := by
            apply BitVec.toNat_sub_of_le
            rw [BitVec.le_def]
            show 1 ≤ r.totalCounter.toNat
            omega
          refine Or.inr ⟨List.cons_ne_nil _ _, by rw [next, if_neg more], ?_⟩
          rw [total, less, List.length_cons]
          omega
    · simp only [pending, numbered, number, same, following, List.cons_append]

/-- One cycle in front of well-formed units never flushes and takes only what comes next. -/
theorem Synced.step (appends : Appends sub) (extracts : ExtractsLittleEndian sub)
    (synced : Synced r messages units (acceptedBytes i ++ future)) (allowed : Allowed i r)
    (running : i.reset = false) (good : i.dsDataValid = true → i.dsEofBad = false) :
    flushes sub i r = false ∧
      ∃ messages' units', Synced (step sub i r) messages' units' future ∧
        pending r messages units =
          (event sub i r).toList ++ pending (Bats.step sub i r) messages' units' := by
  -- Whatever the cycle consumes, the parser stands in front of what is left.
  have calm := synced.calm appends allowed good
  refine ⟨calm, ?_⟩
  cases taken : event sub i r with
  | none =>
    obtain ⟨next, same⟩ := synced.idle appends allowed running calm taken
    exact ⟨messages, units, next, by simp [same]⟩
  | some e =>
    cases e with
    | unitHdr bytes =>
      simpa using synced.unitHdr appends extracts allowed running calm taken
    | message bytes seqNo =>
      simpa using synced.message appends allowed running calm taken

/-- Once everything has arrived, a cycle that takes nothing has nothing left to take. -/
theorem Synced.moves (appends : Appends sub)
    (synced : Synced r messages units (acceptedBytes i ++ [])) (allowed : Allowed i r)
    (running : i.reset = false) (none : event sub i r = none) :
    pending r messages units = [] := by
  -- If anything were pending, its first item would be complete and would be taken.
  have bytes := congrArg List.length (synced.appended appends allowed)
  simp only [List.append_nil, front_length, List.length_append] at bytes
  rcases synced.place with ⟨rfl, state⟩ | ⟨some, state, _⟩
  · cases units with
    | nil => rfl
    | cons u us =>
      -- A unit holds at least its header, which would be consumed.
      have header := u.header_length
      have ready : hdrReady sub i r = true := by
        simp only [hdrReady, decide_eq_true_eq, BitVec.le_def]
        simp only [unitBytes, List.flatMap_cons, SeqUnit.bytes, List.length_append] at bytes
        show 8 ≤ (alen sub i r).toNat
        omega
      simp [event, running, state, ready] at none
  · cases messages with
    | nil => exact absurd rfl some
    | cons m ms =>
      -- The whole message is buffered, so it would be consumed.
      have low := m.lo_le
      have high := m.le_hi
      simp only [messageBytes_cons, List.length_append] at bytes
      have length := synced.msgLength appends allowed (by omega)
      have ready : msgReady sub i r = true := msgReady_iff.mpr (by omega)
      simp [event, running, state, ready] at none

/-- The strobe is set by the messages of five types. -/
theorem dispatch_cmdValid {next : Regs} (low : next.cmdValid = false) :
    (dispatch sub i r next).cmdValid = true ↔ msgType sub i r ∈ commandTypes := by
  -- The three branches on the type; time messages and unknown ones leave the strobe low.
  have members : msgType sub i r ∈ commandTypes ↔
      (msgType sub i r = msgAddOrderLong ∨ msgType sub i r = msgAddOrderShort ∨
        msgType sub i r = msgAddOrderExp) ∨
      (msgType sub i r = msgOrderExecuted ∨ msgType sub i r = msgOrderExecutedPs) := by
    simp only [commandTypes, List.mem_cons, List.not_mem_nil, or_false, or_assoc]
  rw [members, dispatch]
  split
  · rename_i time
    rw [time]
    exact ⟨fun high => absurd (low.symm.trans high) Bool.false_ne_true,
      fun kind => absurd kind (by decide)⟩
  · split
    · rename_i adds
      exact ⟨fun _ => Or.inl adds, fun _ => rfl⟩
    · rename_i adds
      split
      · rename_i executes
        exact ⟨fun _ => Or.inr executes, fun _ => rfl⟩
      · rename_i executes
        refine ⟨fun high => absurd (low.symm.trans high) Bool.false_ne_true, ?_⟩
        rintro (kind | kind)
        · exact absurd kind adds
        · exact absurd kind executes

/-- A cycle that flushes nothing emits a command when it takes a message of a type with one. -/
theorem step_cmdValid (running : i.reset = false) (calm : flushes sub i r = false) :
    (Bats.step sub i r).cmdValid = true ↔
      r.state = .readMsg ∧ msgReady sub i r = true ∧ msgType sub i r ∈ commandTypes := by
  -- Only the branch of a ready message dispatches; every cycle lowers the strobe first.
  obtain ⟨good, formed⟩ := flushes_false running calm
  cases mode : r.state with
  | reset | noop | readUnitHdr =>
    simp only [Bats.step, running, mode, Bool.false_eq_true, if_false]
    simp [apply_ite Regs.cmdValid]
  | readMsg =>
    simp only [Bats.step, running, mode, formed mode, Bool.false_eq_true, if_false]
    rw [if_neg (by rw [mode] at good; exact good)]
    cases ready : msgReady sub i r with
    | false => simp [apply_ite Regs.cmdValid]
    | true =>
      simp only [if_true, true_and]
      refine dispatch_cmdValid ?_
      split <;> rfl

/-- A cycle that emits a command consumes the message at the front. -/
theorem message_of_cmdValid (running : i.reset = false) (calm : flushes sub i r = false)
    (emitted : (Bats.step sub i r).cmdValid = true) :
    event sub i r = some (.message (front (abuf sub i r) (msgLength sub i r).toNat) r.nextSeqNo) := by
  obtain ⟨state, ready, -⟩ := (step_cmdValid running calm).mp emitted
  simp only [event, running, state, ready, Bool.false_eq_true, if_false, if_true]

/-- The command registers sample a message with the sequence number of its consumption. -/
theorem message_sampled {bytes : List Byte} {seqNo : BitVec 32} (calm : flushes sub i r = false)
    (taken : event sub i r = some (.message bytes seqNo)) :
    (Bats.step sub i r).cmd.seqNo = seqNo ∧ (Bats.step sub i r).cmd.recvTime = r.recvTimeR := by
  -- A message that is taken is neither malformed nor cut off by a bad end of frame.
  obtain ⟨running, state, known, positive, small, whole, _, number, _⟩ := step_message calm taken
  obtain ⟨good, formed⟩ := flushes_false running calm
  have ready : msgReady sub i r = true := msgReady_iff.mpr ⟨known, positive, small, whole⟩
  simp only [Bats.step, running, state, formed state, ready, Bool.false_eq_true, if_false, if_true]
  rw [if_neg (by rw [state] at good; exact good), number]
  -- Every branch of the dispatch starts from the fresh command.
  simp only [dispatch]
  split
  · exact ⟨rfl, rfl⟩
  · split
    · exact ⟨rfl, rfl⟩
    · split <;> exact ⟨rfl, rfl⟩

/-- A message of at least two bytes is dispatched by its type, which is its second byte. -/
theorem message_dispatched {bytes : List Byte} {seqNo : BitVec 32} (calm : flushes sub i r = false)
    (taken : event sub i r = some (.message bytes seqNo)) (long : 2 ≤ bytes.length) :
    (Bats.step sub i r).cmdValid = true ↔ bytes.getD 1 0#8 ∈ commandTypes := by
  obtain ⟨running, state, known, positive, small, whole, read, _⟩ := step_message calm taken
  have ready : msgReady sub i r = true := msgReady_iff.mpr ⟨known, positive, small, whole⟩
  -- The type wire is the second byte of the buffer, and so is the second byte taken.
  have type : bytes.getD 1 0#8 = msgType sub i r := by
    rw [read, front_length] at long
    rw [read, front, List.getD_eq_getElem?_getD, List.getElem?_map,
      List.getElem?_range (by omega), Option.map_some, Option.getD_some]
    rfl
  rw [step_cmdValid running calm, type]
  exact ⟨fun emits => emits.2.2, fun kind => ⟨state, ready, kind⟩⟩

end Step

/-- No item is smaller than two bytes, so the bytes bound the number of items. -/
theorem pending_length (r : Regs) (messages : List (Message 2 64)) (units : List SeqUnit) :
    2 * (pending r messages units).length ≤ (messageBytes messages ++ unitBytes units).length := by
  -- A message has at least two bytes and a header eight; both are summed over what is pending.
  have numberedLength : ∀ (seqNo : BitVec 32) (ms : List (Message 2 64)),
      2 * (numbered seqNo ms).length ≤ (messageBytes ms).length := by
    intro seqNo ms
    induction ms generalizing seqNo with
    | nil => simp [numbered]
    | cons m ms ih =>
      have low := m.lo_le
      have rest := ih (seqNo + 1#32)
      simp only [numbered, List.length_cons, messageBytes_cons, List.length_append]
      omega
  have unitsLength : 2 * (units.flatMap SeqUnit.consumptions).length ≤
      (unitBytes units).length := by
    induction units with
    | nil => simp [unitBytes]
    | cons u us ih =>
      have header := u.header_length
      have own := numberedLength u.seqNo u.messages
      simp only [unitBytes, List.flatMap_cons, List.length_append, SeqUnit.consumptions,
        mapIdx_eq_numbered, SeqUnit.bytes, List.length_cons] at ih ⊢
      omega
  have own := numberedLength r.nextSeqNo messages
  simp only [pending, List.length_append]
  omega

/-- A run in front of well-formed units takes a first part of what is pending. -/
theorem Synced.run {sub : Submodules} (appends : Appends sub)
    (extracts : ExtractsLittleEndian sub) (is : List Inputs) {r : Regs}
    {messages : List (Message 2 64)} {units : List SeqUnit} {future : List Byte}
    (synced : Synced r messages units (acceptedAll is ++ future)) (respects : Respects sub r is)
    (running : NoReset is) (good : ∀ i ∈ is, i.dsDataValid = true → i.dsEofBad = false) :
    NoFlush sub r is ∧
      ∃ messages' units', Synced (run sub r is) messages' units' future ∧
        pending r messages units =
          events sub r is ++ pending (Bats.run sub r is) messages' units' := by
  -- Induction on the cycles, each of which leaves the parser in front of the rest.
  induction is generalizing r messages units with
  | nil => exact ⟨trivial, messages, units, synced, rfl⟩
  | cons i is ih =>
    obtain ⟨allowed, later⟩ := respects
    have split : acceptedAll (i :: is) ++ future =
        acceptedBytes i ++ (acceptedAll is ++ future) := by
      simp [acceptedAll]
    rw [split] at synced
    obtain ⟨calm, messages₁, units₁, next, first⟩ := synced.step appends extracts allowed
      (running i (by simp)) (good i (by simp))
    obtain ⟨calmLater, messages₂, units₂, last, rest⟩ := ih next later
      (fun j member => running j (by simp [member])) (fun j member => good j (by simp [member]))
    refine ⟨⟨calm, calmLater⟩, messages₂, units₂, last, ?_⟩
    rw [first, rest, events, List.append_assoc]
    rfl

/-- Cycles after the last byte take what is pending, at least one item each. -/
theorem Synced.drain {sub : Submodules} (appends : Appends sub)
    (extracts : ExtractsLittleEndian sub) (is : List Inputs) {r : Regs}
    {messages : List (Message 2 64)} {units : List SeqUnit}
    (synced : Synced r messages units []) (respects : Respects sub r is)
    (running : NoReset is) (good : ∀ i ∈ is, i.dsDataValid = true → i.dsEofBad = false)
    (silent : acceptedAll is = []) (long : (pending r messages units).length ≤ is.length) :
    events sub r is = pending r messages units := by
  -- Induction on the cycles; without input each of them takes an item while one is left.
  induction is generalizing r messages units with
  | nil =>
    have none : pending r messages units = [] := List.eq_nil_of_length_eq_zero (by simpa using long)
    rw [none, events]
  | cons i is ih =>
    obtain ⟨allowed, later⟩ := respects
    have quiet : acceptedBytes i = [] ∧ acceptedAll is = [] := by
      simpa [acceptedAll] using silent
    have here : Synced r messages units (acceptedBytes i ++ []) := by
      simpa [quiet.1] using synced
    have awake : i.reset = false := running i (by simp)
    obtain ⟨_, messages₁, units₁, next, first⟩ :=
      here.step appends extracts allowed awake (good i (by simp))
    -- Each cycle takes one item as long as one is left.
    have shorter : (pending (Bats.step sub i r) messages₁ units₁).length ≤ is.length := by
      have lengths := congrArg List.length first
      rw [List.length_append] at lengths
      rw [List.length_cons] at long
      cases taken : event sub i r with
      | some e =>
        simp only [taken, Option.toList_some, List.length_singleton] at lengths
        omega
      | none =>
        have nothing := here.moves appends allowed awake taken
        simp only [taken, nothing, Option.toList_none, List.length_nil] at lengths
        omega
    have rest := ih next later (fun j member => running j (by simp [member]))
      (fun j member => good j (by simp [member])) quiet.2 shorter
    rw [first, events, rest]

/-- The first cycle leaves ST_RESET with an empty buffer, in front of the first unit. -/
theorem Synced.start (sub : Submodules) {i : Inputs} {r : Regs} {units : List SeqUnit}
    {future : List Byte} (init : r.state = .reset) (running : i.reset = false)
    (allowed : Allowed i r) (stream : acceptedBytes i ++ future = unitBytes units) :
    flushes sub i r = false ∧ event sub i r = none ∧ acceptedBytes i = [] ∧
      Synced (Bats.step sub i r) [] units future := by
  -- ST_RESET refuses input and consumes nothing; the cycle clears the buffer.
  have silent : i.dsDataValid = false := by
    cases valid : i.dsDataValid with
    | false => rfl
    | true =>
      -- The parser is not ready in ST_RESET.
      have ready := (readyForUdpInput_iff r).mp (allowed valid).1
      exact absurd init ready.1
  have nothing : acceptedBytes i = [] := by simp [acceptedBytes, silent]
  obtain ⟨state, _, empty⟩ := @step_init sub _ _ running init
  refine ⟨by simp [flushes, init], by simp [event, running, init], nothing, ?_, ?_, ?_⟩
  · rw [empty]
    exact Nat.zero_le _
  · rw [held_empty empty, messageBytes_nil, ← stream, nothing, List.nil_append, List.nil_append]
  · exact Or.inl ⟨rfl, state⟩

/-- The consumptions of a run are those of its two parts. -/
theorem events_append (sub : Submodules) (r : Regs) (is js : List Inputs) :
    events sub r (is ++ js) = events sub r is ++ events sub (run sub r is) js := by
  -- Induction on the first part, one cycle at a time.
  induction is generalizing r with
  | nil => rfl
  | cons i is ih => rw [List.cons_append, events, ih, events, List.append_assoc, run_cons]

/-- When the last byte has arrived at most 36 items are pending, and as many cycles take them. -/
theorem Synced.drained {sub : Submodules} (appends : Appends sub)
    (extracts : ExtractsLittleEndian sub) {before after : List Inputs} {r : Regs}
    {units : List SeqUnit} (synced : Synced r [] units (acceptedAll before ++ []))
    (respects : Respects sub r (before ++ after)) (running : NoReset (before ++ after))
    (good : ∀ i ∈ before ++ after, i.dsDataValid = true → i.dsEofBad = false)
    (silent : acceptedAll after = []) (long : 36 ≤ after.length) :
    events sub r (before ++ after) = pending r [] units := by
  -- At the last byte at most 72 bytes are held, which are at most 36 items.
  obtain ⟨first, second⟩ := respects.split
  obtain ⟨_, messages₁, units₁, next, taken⟩ := synced.run appends extracts before first
    (fun j member => running j (by simp [member])) (fun j member => good j (by simp [member]))
  -- The buffer bounds what is left.
  have bytes := congrArg List.length next.stream
  have items := pending_length (Bats.run sub r before) messages₁ units₁
  have fits := next.fits
  simp only [List.append_nil, held, front_length] at bytes
  have rest := next.drain appends extracts after second
    (fun j member => running j (by simp [member])) (fun j member => good j (by simp [member]))
    silent (by omega)
  rw [events_append, rest, ← taken]

/-- Exactly the headers and messages of the units are consumed, in order. -/
theorem units_consumed (sub : Submodules) (appends : Appends sub)
    (extracts : ExtractsLittleEndian sub) (units : List SeqUnit) (r₀ : Regs)
    (init : r₀.state = .reset) (is : List Inputs) (respects : Respects sub r₀ is)
    (running : NoReset is) (good : ∀ i ∈ is, i.dsDataValid = true → i.dsEofBad = false)
    (sent : acceptedAll is <+: unitBytes units) :
    NoFlush sub r₀ is ∧ events sub r₀ is <+: units.flatMap SeqUnit.consumptions ∧
      ∀ before after, is = before ++ after → acceptedAll before = unitBytes units →
        36 ≤ after.length → events sub r₀ is = units.flatMap SeqUnit.consumptions := by
  -- A run is empty or starts with the cycle that leaves ST_RESET.
  cases is with
  | nil =>
    refine ⟨trivial, List.nil_prefix, ?_⟩
    intro before after split _ long
    have lengths := congrArg List.length split
    simp only [List.length_nil, List.length_append] at lengths
    omega
  | cons i is =>
    -- The first cycle only leaves ST_RESET; the parser is in front of the units from then on.
    obtain ⟨allowed, later⟩ := respects
    obtain ⟨future, stream⟩ := sent
    have awake : i.reset = false := running i (by simp)
    have runningLater : NoReset is := fun j member => running j (by simp [member])
    have goodLater : ∀ j ∈ is, j.dsDataValid = true → j.dsEofBad = false :=
      fun j member => good j (by simp [member])
    have whole : acceptedBytes i ++ (acceptedAll is ++ future) = unitBytes units := by
      simpa [acceptedAll] using stream
    obtain ⟨calm, idle, nothing, synced⟩ := Synced.start sub init awake allowed whole
    have all : pending (step sub i r₀) [] units = units.flatMap SeqUnit.consumptions := by
      simp [pending, numbered]
    have eventsEq : events sub r₀ (i :: is) = events sub (step sub i r₀) is := by
      simp [events, idle]
    obtain ⟨calmLater, messages₁, units₁, _, taken⟩ :=
      synced.run appends extracts is later runningLater goodLater
    rw [eventsEq, ← all]
    refine ⟨⟨calm, calmLater⟩, ⟨_, taken.symm⟩, ?_⟩
    intro before after split arrived long
    -- Nothing can be accepted after the last byte of the units.
    have silent : acceptedAll after = [] := by
      have lengths := congrArg List.length stream
      rw [split, ← arrived] at lengths
      simp only [acceptedAll, List.flatMap_append, List.length_append] at lengths
      exact List.eq_nil_of_length_eq_zero (by unfold acceptedAll; omega)
    cases before with
    | nil =>
      -- No unit is empty, so none was sent.
      have items := pending_length (step sub i r₀) [] units
      have none : unitBytes units = [] := arrived.symm
      rw [none, messageBytes_nil, List.append_nil, List.length_nil] at items
      have empty : pending (step sub i r₀) [] units = [] :=
        List.eq_nil_of_length_eq_zero (by omega)
      rw [empty] at taken ⊢
      exact (List.append_eq_nil_iff.mp taken.symm).1
    | cons j before =>
      obtain ⟨rfl, rfl⟩ := List.cons.inj split
      have arrivedLater : acceptedBytes i ++ (acceptedAll before ++ []) = unitBytes units := by
        simpa [acceptedAll] using arrived
      obtain ⟨_, _, _, synced⟩ := Synced.start sub init awake allowed arrivedLater
      exact synced.drained appends extracts later runningLater goodLater silent long

/-- What a cycle of a run consumes is among the consumptions of the run. -/
theorem event_mem {sub : Submodules} {r : Regs} {before after : List Inputs} {i : Inputs} {e : Event}
    (taken : event sub i (run sub r before) = some e) :
    e ∈ events sub r (before ++ i :: after) := by
  rw [events_append, events, taken]
  exact List.mem_append_right _ List.mem_cons_self

/-- A message that stands in a unit has at least two bytes. -/
theorem consumption_long {units : List SeqUnit} {bytes : List Byte} {seqNo : BitVec 32}
    (member : .message bytes seqNo ∈ units.flatMap SeqUnit.consumptions) : 2 ≤ bytes.length := by
  -- It is one of the messages that follow a header.
  obtain ⟨u, -, inside⟩ := List.mem_flatMap.mp member
  rcases List.mem_cons.mp inside with header | message
  · cases header
  · obtain ⟨k, within, same⟩ := List.mem_mapIdx.mp message
    obtain ⟨rfl, -⟩ := Event.message.inj same
    exact (u.messages[k]).lo_le

/-- A run without flush has none in its first part, nor in its second. -/
theorem NoFlush.split {sub : Submodules} {r : Regs} {is js : List Inputs}
    (calm : NoFlush sub r (is ++ js)) : NoFlush sub r is ∧ NoFlush sub (Bats.run sub r is) js := by
  -- Induction on the first part, whose last registers start the second one.
  induction is generalizing r with
  | nil => exact ⟨trivial, calm⟩
  | cons i is ih =>
    obtain ⟨quiet, later⟩ := calm
    obtain ⟨front, back⟩ := ih later
    exact ⟨⟨quiet, front⟩, back⟩

/-- The registers after a last cycle. -/
theorem run_concat (sub : Submodules) (r : Regs) (is : List Inputs) (i : Inputs) :
    run sub r (is ++ [i]) = step sub i (run sub r is) := by
  simp [run]

/-- Exactly the messages of the units are dispatched, in order and with their numbers.

Behind the edge that consumes a message the command registers bear its sequence number, and the
strobe is set if its type has a command; behind any other edge the strobe is low. -/
theorem units_dispatched (sub : Submodules) (appends : Appends sub)
    (extracts : ExtractsLittleEndian sub) (units : List SeqUnit) (r₀ : Regs)
    (init : r₀.state = .reset) (is : List Inputs) (respects : Respects sub r₀ is)
    (running : NoReset is) (good : ∀ i ∈ is, i.dsDataValid = true → i.dsEofBad = false)
    (sent : acceptedAll is <+: unitBytes units) :
    NoFlush sub r₀ is ∧ events sub r₀ is <+: units.flatMap SeqUnit.consumptions ∧
      (∀ before i after, is = before ++ i :: after →
        (∀ bytes seqNo, event sub i (run sub r₀ before) = some (.message bytes seqNo) →
          (run sub r₀ (before ++ [i])).cmd.seqNo = seqNo) ∧
        ((run sub r₀ (before ++ [i])).cmdValid = true ↔
          ∃ bytes seqNo, event sub i (run sub r₀ before) = some (.message bytes seqNo) ∧
            bytes.getD 1 0#8 ∈ commandTypes)) ∧
      ∀ before after, is = before ++ after → acceptedAll before = unitBytes units →
        36 ≤ after.length → events sub r₀ is = units.flatMap SeqUnit.consumptions := by
  -- What is consumed is known, so the command is read off the edge that consumes it.
  obtain ⟨calm, taken, all⟩ :=
    units_consumed sub appends extracts units r₀ init is respects running good sent
  refine ⟨calm, taken, ?_, all⟩
  intro before i after cut
  rw [cut] at calm running taken
  have quiet : flushes sub i (run sub r₀ before) = false := calm.split.2.1
  have awake : i.reset = false := running i (by simp)
  rw [run_concat]
  refine ⟨fun bytes seqNo message => (message_sampled quiet message).1, ?_⟩
  constructor
  · -- The strobe is set in the message state only, when a message is taken.
    intro emitted
    have message := message_of_cmdValid awake quiet emitted
    have long := consumption_long (taken.subset (event_mem message))
    exact ⟨_, _, message, (message_dispatched quiet message long).mp emitted⟩
  · rintro ⟨bytes, seqNo, message, kind⟩
    have long := consumption_long (taken.subset (event_mem message))
    exact (message_dispatched quiet message long).mpr kind

/-- A Time message. -/
def timeMessage : Message 2 64 :=
  ⟨[6, 0x20, 1, 2, 3, 4], by decide, by decide, by decide⟩

/-- A unit of two Time messages with the last sequence number. -/
def timeUnit : SeqUnit :=
  ⟨[20, 0, 2, 1, 0xFF, 0xFF, 0xFF, 0xFF], [timeMessage, timeMessage], by decide,
    by simp, by decide⟩

/-- The unit in words of eight, no and four bytes. -/
def timeUnitWords : List Inputs :=
  [idle, word [20, 0, 2, 1, 0xFF, 0xFF, 0xFF, 0xFF], word [], word [6, 0x20, 1, 2, 3, 4, 6, 0x20],
    idle, word [1, 2, 3, 4]]

/-- The two messages of the unit are numbered across the wrap of the sequence number. -/
theorem units_dispatched_wrap :
    events reference resetRegs (timeUnitWords ++ List.replicate 36 idle) =
      [.unitHdr [20, 0, 2, 1, 0xFF, 0xFF, 0xFF, 0xFF],
        .message [6, 0x20, 1, 2, 3, 4] 0xFFFFFFFF#32, .message [6, 0x20, 1, 2, 3, 4] 0#32] := by
  -- The theorem gives the consumptions of the unit, which are then evaluated.
  have dispatched := units_dispatched reference reference_appends reference_extracts [timeUnit]
    resetRegs rfl (timeUnitWords ++ List.replicate 36 idle) (by decide +kernel)
    (by simp [NoReset, timeUnitWords, idle, word]) (by simp [timeUnitWords, idle, word])
    (by decide +kernel)
  rw [dispatched.2.2.2 timeUnitWords (List.replicate 36 idle) rfl (by decide +kernel) (by decide)]
  decide +kernel

end MarketData.Bats
