import MarketData.Netlist.Resync

/-! The fully clearing variant recovers frames that pad bytes follow. -/

namespace MarketData

/-- Valid elements that deliver these bytes, eof on the last one. -/
inductive Delivered : List Elem → List Byte → Prop
  | last (e : Elem) : e.valid = true → e.Contiguous → e.bytes ≠ [] → e.eof = true →
      Delivered [e] e.bytes
  | more (e : Elem) {es bs} : e.valid = true → e.Contiguous → e.bytes ≠ [] → e.eof = false →
      Delivered es bs → Delivered (e :: es) (e.bytes ++ bs)

/-- What a run reports, without the frame tags. -/
structure P.Reports (p q : P) (lengths : List Nat) (items : List (Nat × Byte)) : Prop where
  hdrs : q.hdrs.map Prod.snd = p.hdrs.map Prod.snd ++ lengths
  msgs : q.msgs.map Prod.snd = p.msgs.map Prod.snd ++ items

/-- Reports of consecutive runs are joined. -/
theorem P.Reports.trans {p q r : P} {ls ls' : List Nat} {ms ms' : List (Nat × Byte)}
    (first : p.Reports q ls ms) (second : q.Reports r ls' ms') :
    p.Reports r (ls ++ ls') (ms ++ ms') := by
  -- Both lists are appended to.
  constructor
  · rw [second.hdrs, first.hdrs, List.append_assoc]
  · rw [second.msgs, first.msgs, List.append_assoc]

/-- The buffer after the append of an element holds exactly these bytes. -/
def P.Receives (p : P) (e : Elem) (bs : List Byte) : Prop :=
  receive p.buf p.L e = (pack bs, bs.length)

/-- The buffer holds exactly these bytes. -/
structure P.Holding (p : P) (bs : List Byte) : Prop where
  buf : p.buf = pack bs
  L : p.L = bs.length

/-- An element with a contiguous keep is appended to what is held. -/
theorem P.Holding.receives {p : P} {bs : List Byte} (holding : p.Holding bs) {e : Elem}
    (keep : e.Contiguous) (fits : (bs ++ e.bytes).length ≤ 72) : p.Receives e (bs ++ e.bytes) := by
  -- The append is made on what is held.
  rw [P.Receives, holding.buf, holding.L]
  exact receive_pack bs e keep fits

section Steps

variable {p : P} {e : Elem} {bs : List Byte}

/-- An incomplete header only counts its bytes, and an eof clears the count. -/
theorem P.step_header_wait (bounded : p.Bounded true true) (state : p.state = .hdr)
    (short : p.buffered e < 8) :
    (p.step e).state = .hdr ∧ (p.step e).L = (if e.eof then 0 else p.buffered e) ∧
      p.Reports (p.step e) [] [] := by
  -- The length is below eight, so the header branch only decides about the clear.
  have length := P.receive_length bounded.small e
  have wait : ¬ 8 ≤ (receive p.buf p.L e).2 := by omega
  simp only [P.step, state, wait, if_false, bounded.hdrClear, Bool.and_true]
  split
  · exact ⟨rfl, rfl, by simp, by simp⟩
  · exact ⟨rfl, length, by simp, by simp⟩

/-- An incomplete header is kept until the frame ends. -/
theorem P.step_header_hold (reads : p.Receives e bs) (state : p.state = .hdr)
    (open_ : e.eof = false) (short : bs.length < 8) :
    (p.step e).Holding bs ∧ (p.step e).state = .hdr ∧ p.Reports (p.step e) [] [] := by
  -- Without an eof nothing is cleared.
  rw [P.Receives] at reads
  have next : p.step e = { p with buf := pack bs, L := bs.length } := by
    simp [P.step, reads, state, open_, Nat.not_le.mpr short]
  rw [next]
  exact ⟨⟨rfl, rfl⟩, state, by simp, by simp⟩

/-- A complete header is reported and taken out. -/
theorem P.step_header (reads : p.Receives e bs) (state : p.state = .hdr) (enough : 8 ≤ bs.length)
    (room : bs.length ≤ 16) :
    (p.step e).Holding (bs.drop 8) ∧ (p.step e).state = .msg ∧ (p.step e).total = 8 ∧
      (p.step e).hdrLen = u16LE (bs.getD 0 0#8) (bs.getD 1 0#8) ∧
      p.Reports (p.step e) [u16LE (bs.getD 0 0#8) (bs.getD 1 0#8)] [] := by
  -- The length field is read in front of the compression.
  rw [P.Receives] at reads
  have compressed := compressBuffer_pack_drop bs (by omega) enough (by omega)
  have next : p.step e =
      { p with buf := pack (bs.drop 8), L := (bs.drop 8).length, total := 8, state := .msg,
               hdrLen := u16LE (bs.getD 0 0#8) (bs.getD 1 0#8),
               hdrs := p.hdrs ++ [(e.frameNo, u16LE (bs.getD 0 0#8) (bs.getD 1 0#8))] } := by
    simp [P.step, reads, state, enough, compressed, headerLength_pack]
  rw [next]
  exact ⟨⟨rfl, rfl⟩, rfl, rfl, rfl, by simp, by simp⟩

/-- An incomplete message is kept. -/
theorem P.step_msg_wait (reads : p.Receives e bs) (state : p.state = .msg) (open_ : e.eof = false)
    (some : bs ≠ []) (short : bs.length < (bs.getD 0 0#8).toNat) :
    (p.step e).Holding bs ∧ (p.step e).state = .msg ∧ (p.step e).total = p.total ∧
      (p.step e).hdrLen = p.hdrLen ∧ p.Reports (p.step e) [] [] := by
  -- The length byte asks for more than is held, and no eof gives up on it.
  rw [P.Receives] at reads
  have positive : ¬ bs.length = 0 := by simpa using some
  have waits : ¬ (bs.getD 0 0#8).toNat ≤ bs.length := by omega
  have next : p.step e = { p with buf := pack bs, L := bs.length } := by
    simp only [P.step, reads, state, if_neg positive, byteAt_pack bs (by omega : 0 < 72), open_]
    rw [if_neg waits]
    simp
  rw [next]
  exact ⟨⟨rfl, rfl⟩, state, rfl, rfl, by simp, by simp⟩

/-- A complete message is reported and taken out; with it a frame ends or goes on. -/
theorem P.step_msg (reads : p.Receives e bs) (state : p.state = .msg) (some : bs ≠ [])
    (enough : (bs.getD 0 0#8).toNat ≤ bs.length) (fits : bs.length ≤ 72)
    (room : bs.length ≤ (bs.getD 0 0#8).toNat + 8) :
    p.Reports (p.step e) [] [((bs.getD 0 0#8).toNat, bs.getD 1 0#8)] ∧
      (p.hdrLen ≤ p.total + (bs.getD 0 0#8).toNat → (p.step e).Cleared) ∧
      (¬ p.hdrLen ≤ p.total + (bs.getD 0 0#8).toNat → e.eof = false →
        (p.step e).Holding (bs.drop (bs.getD 0 0#8).toNat) ∧ (p.step e).state = .msg ∧
          (p.step e).total = p.total + (bs.getD 0 0#8).toNat ∧ (p.step e).hdrLen = p.hdrLen) := by
  -- The message is complete; the byte count or an eof then ends the frame.
  rw [P.Receives] at reads
  have positive : ¬ bs.length = 0 := by simpa using some
  have compressed := compressBuffer_pack_drop bs fits enough (by omega)
  have first := byteAt_pack bs (by omega : 0 < 72)
  have second := byteAt_pack bs (by omega : 1 < 72)
  have left : (bs.drop (bs.getD 0 0#8).toNat).length = bs.length - (bs.getD 0 0#8).toNat :=
    List.length_drop
  rw [← left] at compressed
  generalize bs.getD 0 0#8 = b at *
  generalize bs.getD 1 0#8 = ty at *
  simp only [P.step, reads, state, if_neg positive, first, second, if_pos enough, compressed]
  refine ⟨?_, ?_, ?_⟩
  · split <;> exact ⟨by simp, by simp⟩
  · intro done
    rw [if_pos (by simp [done])]
    exact ⟨rfl, rfl⟩
  · intro more open_
    rw [if_neg (by simp [more, open_])]
    exact ⟨⟨rfl, rfl⟩, rfl, rfl, rfl⟩

end Steps

/-- What a valid contiguous element adds to the buffered count. -/
theorem P.buffered_eq {p : P} {e : Elem} (valid : e.valid = true)
    (room : p.L + e.bytes.length < 256) : p.buffered e = p.L + e.bytes.length := by
  -- The keep counts as many bytes as the element delivers.
  have count : e.bytes.length = numOfTrue e.keep := by
    have bound := numOfTrue_le e.keep
    simp [Elem.bytes, valid]
    omega
  rw [P.buffered, if_pos valid, ← count, Nat.mod_eq_of_lt room]

/-- Up to seven bytes that end a frame after its messages are cleared without a report. -/
theorem Delivered.pads {es : List Elem} {bs : List Byte} (delivered : Delivered es bs) :
    ∀ {p : P}, p.Bounded true true → p.state = .hdr → p.L + bs.length < 8 →
      (p.feed es).Cleared ∧ p.Reports (p.feed es) [] [] := by
  -- Every element is too short for a header, and the last one clears.
  induction delivered with
  | last e valid keep some eof =>
    intro p bounded state short
    have count := P.buffered_eq (p := p) valid (by omega)
    obtain ⟨header, length, reports⟩ := P.step_header_wait bounded state (e := e) (by omega)
    rw [eof, if_pos rfl] at length
    exact ⟨⟨header, length⟩, reports⟩
  | @more e es bs valid keep some open_ rest ih =>
    intro p bounded state short
    rw [List.length_append] at short
    have count := P.buffered_eq (p := p) valid (by omega)
    obtain ⟨header, length, reports⟩ := P.step_header_wait bounded state (e := e) (by omega)
    rw [open_, if_neg Bool.false_ne_true] at length
    obtain ⟨cleared, later⟩ := ih (bounded.step e) header (by omega)
    exact ⟨cleared, reports.trans later⟩

/-- The parser is inside a frame, in front of these messages. -/
structure P.Midway (p : P) (held : List Byte) (ms : List (Message 8 65)) : Prop where
  bounded : p.Bounded true true
  holding : p.Holding held
  state : p.state = .msg
  counted : p.hdrLen = p.total + (messageBytes ms).length

/-- The rest of a frame and up to seven pad bytes report the messages left and clear. -/
theorem Delivered.messages {es : List Elem} {bs : List Byte} (delivered : Delivered es bs) :
    ∀ {p : P} {held pad : List Byte} {m : Message 8 65} {ms : List (Message 8 65)},
      p.Midway held (m :: ms) → held.length < m.bytes.length →
      held ++ bs = messageBytes (m :: ms) ++ pad → pad.length < 8 →
      (p.feed es).Cleared ∧ p.Reports (p.feed es) [] (items (m :: ms)) := by
  -- The induction follows the elements; each one completes at most one message.
  induction delivered with
  | last e valid keep some eof =>
    intro p held pad m ms midway short whole few
    have low := m.lo_le
    have high := m.le_hi
    have word := e.bytes_length_le
    have lengths := congrArg List.length whole
    simp only [messageBytes_cons, List.length_append] at lengths
    -- Less than a word is behind the first message, so it is the last one.
    cases ms with
    | cons n ms =>
      have more := n.lo_le
      simp only [messageBytes_cons, List.length_append] at lengths
      omega
    | nil =>
      have reads := midway.holding.receives keep (by rw [List.length_append]; omega)
      have front : held ++ e.bytes ++ [] = m.bytes ++ pad := by simpa using whole
      obtain ⟨first, second⟩ := Message.front (by decide) (by decide) front
      have started : held ++ e.bytes ≠ [] := by simp [some]
      have enough : m.bytes.length ≤ (held ++ e.bytes).length := by rw [List.length_append]; omega
      have length := first started
      obtain ⟨reports, done, _⟩ := P.step_msg reads midway.state started (by omega)
        (by rw [List.length_append]; omega) (by rw [List.length_append]; omega)
      rw [length, second (by omega)] at reports
      have counted := midway.counted
      simp only [messageBytes_cons, messageBytes_nil, List.append_nil] at counted
      exact ⟨done (by omega), reports⟩
  | @more e es bs valid keep some open_ rest ih =>
    intro p held pad m ms midway short whole few
    have low := m.lo_le
    have high := m.le_hi
    have word := e.bytes_length_le
    rw [← List.append_assoc, messageBytes_cons, List.append_assoc m.bytes] at whole
    have reads := midway.holding.receives keep (by rw [List.length_append]; omega)
    obtain ⟨first, second⟩ := Message.front (by decide) (by decide) whole
    have started : held ++ e.bytes ≠ [] := by simp [some]
    have length := first started
    rcases Nat.lt_or_ge (held ++ e.bytes).length m.bytes.length with still | enough
    · -- The message is incomplete, and the element is stored behind what is held.
      obtain ⟨holding, state, total, hdrLen, reports⟩ :=
        P.step_msg_wait reads midway.state open_ started (by omega)
      have counted : (p.step e).hdrLen = (p.step e).total + (messageBytes (m :: ms)).length := by
        rw [hdrLen, total, midway.counted]
      have whole' : held ++ e.bytes ++ bs = messageBytes (m :: ms) ++ pad := by
        rw [whole, messageBytes_cons, List.append_assoc m.bytes]
      obtain ⟨cleared, later⟩ :=
        ih ⟨midway.bounded.step e, holding, state, counted⟩ still whole' few
      exact ⟨cleared, reports.trans later⟩
    · obtain ⟨reports, done, goesOn⟩ := P.step_msg reads midway.state started (by omega)
        (by rw [List.length_append]; omega) (by rw [List.length_append]; omega)
      rw [length, second (by omega)] at reports
      rw [length] at done goesOn
      have counted := midway.counted
      have remaining := (first_arrived whole enough).2
      cases ms with
      | nil =>
        -- The frame is complete, and only pad bytes follow its last message.
        have cleared := done (by simp at counted; omega)
        have lengths := congrArg List.length remaining
        simp only [messageBytes_nil, List.nil_append, List.length_append] at lengths
        obtain ⟨final, later⟩ := Delivered.pads rest (midway.bounded.step e) cleared.state
          (by rw [cleared.L]; omega)
        exact ⟨final, reports.trans later⟩
      | cons n ms =>
        have more := n.lo_le
        simp only [messageBytes_cons, List.length_append] at counted
        obtain ⟨holding, state, total, hdrLen⟩ := goesOn (by omega) open_
        have midway' : (p.step e).Midway ((held ++ e.bytes).drop m.bytes.length) (n :: ms) := by
          refine ⟨midway.bounded.step e, holding, state, ?_⟩
          rw [hdrLen, total, messageBytes_cons, List.length_append]
          omega
        obtain ⟨cleared, later⟩ := ih midway'
          (by rw [List.length_drop, List.length_append]; omega) remaining few
        exact ⟨cleared, reports.trans later⟩

/-- A frame and up to seven pad bytes report its length and its messages and clear. -/
theorem Delivered.frame {es : List Elem} {bs : List Byte} (delivered : Delivered es bs) :
    ∀ {p : P} {held pad : List Byte} {f : Frame 8 65},
      p.Bounded true true → p.Holding held → p.state = .hdr → held.length < 8 →
      held ++ bs = f.payload ++ pad → pad.length < 8 →
      (p.feed es).Cleared ∧
        p.Reports (p.feed es) [f.payload.length] (items f.messages) := by
  -- The header completes before the last element, since a message is behind it.
  induction delivered with
  | last e valid keep some eof =>
    intro p held pad f bounded holding state short whole few
    obtain ⟨m, ms, list⟩ := List.exists_cons_of_ne_nil f.nonempty
    have low := m.lo_le
    have word := e.bytes_length_le
    have lengths := congrArg List.length whole
    rw [List.length_append, List.length_append, f.payload_length, list, messageBytes_cons,
      List.length_append] at lengths
    omega
  | @more e es bs valid keep some open_ rest ih =>
    intro p held pad f bounded holding state short whole few
    have word := e.bytes_length_le
    rw [← List.append_assoc] at whole
    have reads := holding.receives keep (by rw [List.length_append]; omega)
    rcases Nat.lt_or_ge (held ++ e.bytes).length 8 with still | enough
    · obtain ⟨kept, waits, reports⟩ := P.step_header_hold reads state open_ still
      obtain ⟨cleared, later⟩ := ih (bounded.step e) kept waits still whole few
      exact ⟨cleared, reports.trans later⟩
    · obtain ⟨m, ms, list⟩ := List.exists_cons_of_ne_nil f.nonempty
      have low := m.lo_le
      obtain ⟨kept, state', total, hdrLen, reports⟩ :=
        P.step_header reads state enough (by rw [List.length_append]; omega)
      -- The first eight bytes are the header, so the length field is the payload length.
      obtain ⟨_, field, remaining⟩ := Frame.front whole enough
      rw [list] at remaining
      rw [field] at hdrLen reports
      have midway : (p.step e).Midway ((held ++ e.bytes).drop 8) (m :: ms) := by
        refine ⟨bounded.step e, kept, state', ?_⟩
        rw [hdrLen, total, ← list, f.payload_length]
      obtain ⟨cleared, later⟩ := Delivered.messages rest midway
        (by rw [List.length_drop, List.length_append]; omega) remaining few
      rw [← list] at later
      exact ⟨cleared, reports.trans later⟩

/-- From a cleared state a frame and its pad bytes are reported, and the state is cleared again. -/
theorem Delivered.from_cleared {es : List Elem} {f : Frame 8 65} {pad : List Byte}
    (delivered : Delivered es (f.payload ++ pad)) (few : pad.length < 8) {p : P}
    (bounded : p.Bounded true true) (cleared : p.Cleared) :
    (p.feed es).Cleared ∧ p.Reports (p.feed es) [f.payload.length] (items f.messages) := by
  -- A fresh parser reports the frame, and a cleared one reports the same.
  have fresh : (P.fresh true true).Cleared := ⟨rfl, rfl⟩
  have holding : (P.fresh true true).Holding [] := ⟨by decide, rfl⟩
  obtain ⟨final, reports⟩ := delivered.frame (p := P.fresh true true) ⟨rfl, rfl, by decide⟩
    holding rfl (Nat.zero_lt_succ 7) (List.nil_append _) few
  -- What a cleared parser does next does not depend on its stale bytes.
  have alike := cleared.alike fresh bounded.hdrClear bounded.msgLtClear
  obtain ⟨hdrs, msgs⟩ := cleared.as_fresh bounded es
  refine ⟨⟨(alike.feed es).1.state.trans final.state, (alike.feed es).1.L.trans final.L⟩, ?_, ?_⟩
  · rw [hdrs, List.map_append, reports.hdrs]
    rfl
  · rw [msgs, List.map_append, reports.msgs]
    rfl

end MarketData
