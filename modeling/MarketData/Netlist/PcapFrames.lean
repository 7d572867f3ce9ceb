import MarketData.Netlist.MessageReplay

/-! The replay of one captured payload, behind a complete one or behind a header alone. -/

namespace MarketData

/-- A captured payload: an eight-byte header stating its length, then any number of messages. -/
structure PcapFrame where
  /-- Length (U16, little-endian), count, unit and sequence. -/
  header : List Byte
  /-- The messages that follow the header; there may be none. -/
  messages : List (Message 6 47)
  /-- The header is one buffer word. -/
  header_length : header.length = 8
  /-- The length field counts the whole payload. -/
  lengthField : u16LE (header.getD 0 0#8) (header.getD 1 0#8) = 8 + (messageBytes messages).length

/-- The bytes of a captured payload in wire order. -/
def PcapFrame.payload (f : PcapFrame) : List Byte :=
  f.header ++ messageBytes f.messages

/-- The length field is the payload length. -/
theorem PcapFrame.payload_length (f : PcapFrame) :
    f.payload.length = 8 + (messageBytes f.messages).length := by
  -- The header has eight bytes.
  simp [PcapFrame.payload, f.header_length]

/-- A payload starts with its header. -/
theorem PcapFrame.take_payload (f : PcapFrame) : f.payload.take 8 = f.header := by
  rw [PcapFrame.payload, ← f.header_length, List.take_left]

/-- Behind the header a payload consists of its messages. -/
theorem PcapFrame.drop_payload (f : PcapFrame) : f.payload.drop 8 = messageBytes f.messages := by
  rw [PcapFrame.payload, ← f.header_length, List.drop_left]

/-- A payload is not empty. -/
theorem PcapFrame.payload_ne_nil (f : PcapFrame) : f.payload ≠ [] := by
  have length := f.payload_length
  rw [← List.length_pos_iff]
  omega

/-- One message a word keeps up in this frame, from an empty buffer behind its header on. -/
def PcapFrame.KeepsUp (f : PcapFrame) : Prop :=
  MarketData.KeepsUp ⟨0, 0⟩ (items f.messages)

instance (f : PcapFrame) : Decidable f.KeepsUp :=
  decidableKeepsUp _ _

/-- What is buffered behind the first message that starts in an empty buffer, all of it intact. -/
def Backlog.behind (len : Nat) : Backlog where
  count := 8 * ((len + 7) / 8) - len
  intact := 8 * ((len + 7) / 8) - len

/-- The frame is read right although its header is taken for a message.

The two bytes of its length read as the length and the type of its first message. The eight bytes
behind that many are taken for a header instead, and with the length they state and the bytes that
are buffered then, the other messages are read. -/
def PcapFrame.ReadsShifted (f : PcapFrame) : Prop :=
  match items f.messages with
  | [] => False
  | (len, ty) :: rest =>
    f.payload.length = 256 * ty.toNat + len ∧
      StaysOpen (u16LE (f.payload.getD len 0#8) (f.payload.getD (len + 1) 0#8)) 8 rest ∧
      MarketData.KeepsUp (Backlog.behind len) rest

instance (f : PcapFrame) : Decidable f.ReadsShifted := by
  unfold PcapFrame.ReadsShifted
  split <;> infer_instance

/-- The parser awaits a message that the last frame does not have. -/
structure Parser.Stale (p : Parser) : Prop where
  state : p.state = .msg
  holding : p.Holding []
  counted : p.hdrLen ≤ p.total

/-- A frame reports its messages exactly when one message a word keeps up, and leaves nothing.

A header alone leaves the parser awaiting a message. -/
theorem Parser.Idle.replayFrame {p : Parser} (idle : p.Idle) (f : PcapFrame) (fno : Nat) :
    ∃ es, (p.replayFrame fno f.payload).reports = p.reports ++ inFrame fno es ∧
      (es = items f.messages ↔ f.KeepsUp) ∧
      (f.messages = [] → (p.replayFrame fno f.payload).Stale) ∧
      (f.messages ≠ [] → f.KeepsUp → (p.replayFrame fno f.payload).Idle) := by
  -- The first chunk is the header, and the messages start behind it without a backlog.
  have field := f.lengthField
  obtain ⟨q, next, holding, state, total, hdrLen, reports⟩ := Parser.step_header idle.holding
    idle.state (Nat.zero_le 8) f.header_length fno 0 (decide (f.payload.length ≤ 8))
  rw [List.nil_append] at holding hdrLen
  rw [List.drop_eq_nil_of_le (Nat.le_of_eq f.header_length)] at holding
  rw [Parser.replayFrame_eq, Parser.replayFrom_step p fno 0 f.payload_ne_nil, f.take_payload, next,
    f.drop_payload, ← reports]
  by_cases none : f.messages = []
  · rw [none, messageBytes_nil] at field
    rw [none, messageBytes_nil, Parser.replayFrom_nil]
    refine ⟨[], by simp, ⟨fun _ => ?_, fun _ => rfl⟩, fun _ => ⟨state, holding, ?_⟩,
      fun some => absurd rfl some⟩
    · rw [PcapFrame.KeepsUp, none]
      trivial
    · rw [hdrLen, total, field]
      exact Nat.le_refl 8
  · have behind : q.Behind ⟨0, 0⟩ [] f.messages := by
      refine ⟨state, holding, ?_, Or.inl ⟨by decide, rfl⟩⟩
      exact ⟨rfl, Nat.le_refl 0, fun i inside => absurd inside (Nat.not_lt_zero i),
        fun i _ inside => absurd inside (Nat.not_lt_zero i)⟩
    have stays : StaysOpen q.hdrLen q.total (items f.messages) :=
      staysOpen_counted f.messages (by rw [hdrLen, field, total])
    obtain ⟨es, replayed, iff, after⟩ := Parser.Behind.replayFrom f.messages fno 8 behind none
    rw [List.drop_zero] at replayed after
    exact ⟨es, replayed, iff.trans (and_iff_left stays), fun empty => absurd empty none,
      fun _ keeps => after keeps stays⟩

/-- The two bytes of the length field add up to the payload length. -/
theorem PcapFrame.field_bytes (f : PcapFrame) :
    (f.header.getD 0 0#8).toNat + 256 * (f.header.getD 1 0#8).toNat = f.payload.length := by
  rw [← u16LE_eq, f.lengthField, f.payload_length]

/-- A byte of the header is a byte of the payload. -/
theorem PcapFrame.payload_getD (f : PcapFrame) {i : Nat} (inside : i < 8) :
    f.payload.getD i 0#8 = f.header.getD i 0#8 := by
  rw [PcapFrame.payload, getD_append, if_pos (by rw [f.header_length]; exact inside)]

/-- A frame that is read shifted states the length and the type of its first message. -/
theorem PcapFrame.ReadsShifted.first {f : PcapFrame} (shifted : f.ReadsShifted) :
    ∃ m ms, f.messages = m :: ms ∧ (f.header.getD 0 0#8).toNat = m.bytes.length ∧
      f.header.getD 1 0#8 = m.type := by
  -- Both splits of the length into two bytes are the same.
  unfold PcapFrame.ReadsShifted at shifted
  have field := f.field_bytes
  have byte := (f.header.getD 0 0#8).isLt
  cases messages : f.messages with
  | nil => rw [messages] at shifted; exact shifted.elim
  | cons m ms =>
    rw [messages, items_cons] at shifted
    have stated := shifted.1
    have high := m.le_hi
    refine ⟨m, ms, rfl, by omega, BitVec.eq_of_toNat_eq (by omega)⟩

/-- A header that is as long as a first message is taken out in its place. -/
theorem Parser.Stale.takesHeader {p : Parser} (stale : p.Stale) (f : PcapFrame) (fno : Nat)
    {len : Nat} (head : (f.header.getD 0 0#8).toNat = len) (some : 0 < len) (short : len ≤ 47) :
    ∃ (q : Parser) (off' : Nat), p.replayFrom fno 0 f.payload =
        q.replayFrom fno off' (f.payload.drop (8 * ((len + 7) / 8))) ∧
      q.state = .hdr ∧ q.Holding (remainder (f.payload.take (8 * ((len + 7) / 8))) len) ∧
      q.reports = p.reports ++ [(fno, len, f.header.getD 1 0#8)] := by
  -- The last frame is over by its count, so the message ends it.
  have field := f.field_bytes
  have length := f.payload_length
  have words : 8 * max 1 ((len - ([] : List Byte).length + 7) / 8) = 8 * ((len + 7) / 8) := by
    rw [List.length_nil]
    omega
  obtain ⟨q, off', replayed, takes⟩ := Parser.replayFrom_message f.payload fno 0 stale.state
    stale.holding (by decide) (by omega) some
    (by rw [List.nil_append, f.payload_getD (by decide), head]) (by rw [List.nil_append]; omega)
    f.payload_ne_nil
  rw [words, List.nil_append] at takes
  rw [words] at replayed
  have counted := stale.counted
  have type : (f.payload.take (8 * ((len + 7) / 8))).getD 1 0#8 = f.header.getD 1 0#8 := by
    rw [getD_take, if_pos (by omega), f.payload_getD (by decide)]
  have reports := takes.reports
  rw [type] at reports
  exact ⟨q, off', replayed, takes.closed (Or.inl (by omega)), takes.holding, reports⟩

/-- A header of any other length is kept in front. -/
theorem Parser.Stale.keepsHeader {p : Parser} (stale : p.Stale) (f : PcapFrame) (fno : Nat)
    (other : (f.header.getD 0 0#8).toNat = 0 ∨ 47 < (f.header.getD 0 0#8).toNat) :
    let q := p.step fno 0 (ljust8 (f.payload.take 8)) (lowKeep (f.payload.take 8).length)
      (decide (f.payload.length ≤ 8))
    (q.reports = p.reports ∧ q.L = 8) ∧ q.WaitsFor (f.header.getD 0 0#8).toNat := by
  -- Its eight bytes are not a message of the length that the first one states.
  intro q
  have field := f.field_bytes
  have length := f.payload_length
  have L : p.L = 0 := stale.holding.L
  have count : numOfTrue (lowKeep (f.payload.take 8).length) = 8 := by
    rw [numOfTrue_chunk]
    omega
  have appended := stale.holding.appends (Nat.le_of_eq f.header_length)
    (by rw [List.nil_append, f.header_length]; decide)
  have head : (byteAt (addDataToBuffer p.buf p.L (ljust8 (f.payload.take 8))
      (lowKeep (f.payload.take 8).length)).1 0).toNat = (f.header.getD 0 0#8).toNat := by
    rw [f.take_payload, appended, byteAt_pack _ (by decide), List.nil_append]
  have step := Parser.step_front stale.state (by omega) fno 0 _ _
    (decide (f.payload.length ≤ 8)) (by rw [L, count]; decide) head
  rw [L, count] at step
  have more : decide (f.payload.length ≤ 8) = false := by
    rw [decide_eq_false_iff_not]
    omega
  rcases step with ⟨-, reports, held, still⟩ | ⟨positive, -, taken⟩
  · exact ⟨⟨reports, held⟩, still more⟩
  · omega

/-- Behind a header taken for the first message, a second one is taken for the header. -/
theorem Parser.Stale.shifts {p : Parser} (stale : p.Stale) (f : PcapFrame) (fno : Nat)
    {m : Message 6 47} {ms : List (Message 6 47)} (messages : f.messages = m :: ms)
    (stated : f.payload.length = 256 * m.type.toNat + m.bytes.length) :
    ∃ (q : Parser) (held : List Byte) (off' : Nat), p.replayFrom fno 0 f.payload =
        q.replayFrom fno off' ((messageBytes ms).drop (Backlog.behind m.bytes.length).count) ∧
      q.Behind (Backlog.behind m.bytes.length) held ms ∧ ms ≠ [] ∧ q.total = 8 ∧
      q.hdrLen = u16LE (f.payload.getD m.bytes.length 0#8)
        (f.payload.getD (m.bytes.length + 1) 0#8) ∧
      q.reports = p.reports ++ [(fno, m.bytes.length, m.type)] := by
  -- The payload is longer than 256 bytes, so words are left for the second header and the rest.
  have low := m.lo_le
  have high := m.le_hi
  have field := f.field_bytes
  have byte := (f.header.getD 0 0#8).isLt
  have length := f.payload_length
  have total := messageBytes_length_cons m ms
  rw [messages] at length
  have type : f.header.getD 1 0#8 = m.type := BitVec.eq_of_toNat_eq (by omega)
  have count : (Backlog.behind m.bytes.length).count =
      8 * ((m.bytes.length + 7) / 8) - m.bytes.length := rfl
  obtain ⟨q, off', replayed, state, holding, reports⟩ :=
    @Parser.Stale.takesHeader p stale f fno m.bytes.length (by omega) (by omega) high
  rw [type] at reports
  have rest : f.payload.drop (8 + m.bytes.length) = messageBytes ms := by
    rw [← List.drop_drop, f.drop_payload, messages, messageBytes_cons, List.drop_left]
  generalize words : 8 * ((m.bytes.length + 7) / 8) = n at count replayed holding
  have front : (f.payload.take n).length = n := by
    rw [List.length_take]
    omega
  rw [remainder_of_le (by omega) (by omega)] at holding
  -- What is held and the next word are a stretch of the payload.
  have stretch : (f.payload.take n).drop m.bytes.length ++ (f.payload.drop n).take 8 =
      (f.payload.drop m.bytes.length).take (n + 8 - m.bytes.length) := by
    rw [← List.drop_take, List.take_add, List.drop_append_of_le_length (by omega)]
  have word : ((f.payload.drop n).take 8).length = 8 := by
    rw [List.length_take, List.length_drop]
    omega
  obtain ⟨q', next, holding', state', total', hdrLen', reports'⟩ := Parser.step_header holding
    state (by rw [List.length_drop]; omega) word fno off'
    (decide ((f.payload.drop n).length ≤ 8))
  rw [stretch] at holding' hdrLen'
  refine ⟨q', (messageBytes ms).take (n - m.bytes.length), off' + 8, ?_, ?_, ?_, total', ?_, ?_⟩
  · have some : f.payload.drop n ≠ [] := by
      rw [← List.length_pos_iff, List.length_drop]
      omega
    rw [replayed, Parser.replayFrom_step q fno off' some, next, ← rest, count, List.drop_drop,
      List.drop_drop]
    congr 2
    omega
  · have held : ((f.payload.drop m.bytes.length).take (n + 8 - m.bytes.length)).drop 8 =
        (messageBytes ms).take (n - m.bytes.length) := by
      rw [List.drop_take, List.drop_drop, Nat.add_comm m.bytes.length 8, rest]
      congr 1
      omega
    rw [held] at holding'
    refine ⟨state', holding', ⟨?_, Nat.le_refl _, fun i inside => ?_, fun i out inside => ?_⟩,
      Or.inl ⟨?_, rfl⟩⟩
    · rw [List.length_take, count]
      omega
    · rw [getD_take, if_pos (Nat.lt_of_lt_of_eq inside count)]
    · exact absurd inside (Nat.not_lt.mpr out)
    · rw [count]
      omega
  · rintro rfl
    simp only [messageBytes_nil, List.length_nil] at total
    omega
  · rw [hdrLen', getD_take, getD_take, if_pos (by omega), if_pos (by omega), getD_drop, getD_drop,
      Nat.add_zero]
  · rw [reports', reports]

/-- A frame whose header is not the front of its first message is not reported right. -/
theorem Parser.Stale.replayFrame_other {p : Parser} (stale : p.Stale) (f : PcapFrame) (fno : Nat)
    (other : ¬ ∃ m ms, f.messages = m :: ms ∧
      f.payload.length = 256 * m.type.toNat + m.bytes.length) :
    ∃ es, (p.replayFrame fno f.payload).reports = p.reports ++ inFrame fno es ∧
      es ≠ items f.messages := by
  -- The header is taken for a message; its first byte decides what becomes of it.
  have field := f.field_bytes
  have length := f.payload_length
  rw [Parser.replayFrame_eq]
  by_cases short : 0 < (f.header.getD 0 0#8).toNat ∧ (f.header.getD 0 0#8).toNat ≤ 47
  · -- The report of the header is not that of the first message.
    obtain ⟨q, off', replayed, -, holding, reports⟩ :=
      stale.takesHeader f fno rfl short.1 short.2
    have small : q.L < 256 := by
      rw [holding.L, remainder_length, List.length_take]
      omega
    obtain ⟨es, later⟩ := Parser.replayFrom_adds
      (f.payload.drop (8 * (((f.header.getD 0 0#8).toNat + 7) / 8))) fno off' small
    refine ⟨((f.header.getD 0 0#8).toNat, f.header.getD 1 0#8) :: es, ?_, fun same => ?_⟩
    · rw [replayed, later.reports, reports, List.append_assoc]
      rfl
    · cases messages : f.messages with
      | nil => rw [messages] at same; exact absurd same (List.cons_ne_nil _ _)
      | cons m ms =>
        rw [messages, items_cons, List.cons.injEq, Prod.mk.injEq] at same
        refine absurd ⟨m, ms, messages, ?_⟩ other
        rw [← field, same.1.1, same.1.2, Nat.add_comm]
  · -- No message of the frame is that long, and the header stays in front.
    have waiting := stale.keepsHeader f fno (by omega)
    have sum := items_sum f.messages
    obtain ⟨es, reports, cases⟩ := waiting.2.replayFrom (f.payload.drop 8) fno 8
    rw [Parser.replayFrom_step p fno 0 f.payload_ne_nil, reports, waiting.1.1]
    rw [waiting.1.2, List.length_drop] at cases
    refine ⟨es, rfl, ?_⟩
    rintro rfl
    cases messages : f.messages with
    | nil =>
      rw [messages, messageBytes_nil, List.length_nil] at length
      omega
    | cons m ms =>
      have low := m.lo_le
      have high := m.le_hi
      rw [messages] at length sum cases
      rw [messageBytes_length_cons] at length sum
      rcases cases with none | ⟨-, ty, later, first⟩ | lost
      · exact absurd none (List.cons_ne_nil _ _)
      · have long := (Prod.mk.inj (List.cons.inj first).1).1
        omega
      · omega

/-- Behind a header alone, a frame is reported right exactly when it is read shifted. -/
theorem Parser.Stale.replayFrame {p : Parser} (stale : p.Stale) (f : PcapFrame) (fno : Nat) :
    ∃ es, (p.replayFrame fno f.payload).reports = p.reports ++ inFrame fno es ∧
      (es = items f.messages ↔ f.ReadsShifted) ∧
      (f.ReadsShifted → (p.replayFrame fno f.payload).Idle) := by
  -- The header is taken for a message, and right only when it is the front of the first one.
  by_cases shift : ∃ m ms, f.messages = m :: ms ∧
      f.payload.length = 256 * m.type.toNat + m.bytes.length
  · obtain ⟨m, ms, messages, stated⟩ := shift
    obtain ⟨q, held, off', replayed, behind, more, total, hdrLen, reports⟩ :=
      stale.shifts f fno messages stated
    obtain ⟨es, reports', iff, idle⟩ := Parser.Behind.replayFrom ms fno off' behind more
    rw [total, hdrLen] at iff idle
    have shifted : f.ReadsShifted ↔ StaysOpen (u16LE (f.payload.getD m.bytes.length 0#8)
        (f.payload.getD (m.bytes.length + 1) 0#8)) 8 (items ms) ∧
          KeepsUp (Backlog.behind m.bytes.length) (items ms) := by
      rw [PcapFrame.ReadsShifted, messages, items_cons]
      exact and_iff_right stated
    rw [Parser.replayFrame_eq, replayed, messages, items_cons, shifted]
    refine ⟨(m.bytes.length, m.type) :: es, ?_, ?_, fun right => idle right.2 right.1⟩
    · rw [reports', reports, List.append_assoc]
      rfl
    · rw [List.cons.injEq, iff, eq_self, true_and, and_comm]
  · have fails : ¬ f.ReadsShifted := by
      intro shifted
      obtain ⟨m, ms, messages, len, ty⟩ := shifted.first
      refine shift ⟨m, ms, messages, ?_⟩
      rw [← f.field_bytes, len, ty, Nat.add_comm]
    obtain ⟨es, reports, other⟩ := stale.replayFrame_other f fno shift
    exact ⟨es, reports, ⟨fun same => absurd same other, fun right => absurd right fails⟩,
      fun right => absurd right fails⟩

end MarketData
