import MarketData.Netlist.Backlog
import MarketData.Netlist.Beats
import MarketData.Netlist.Replay

/-! The replay of messages behind a backlog: which of them are reported, and what is left. -/

namespace MarketData

/-- What taking out one message does, and what is held behind it. -/
structure Parser.Takes (p q : Parser) (fno len : Nat) (bs : List Byte) (ended : Prop) : Prop where
  holding : q.Holding (remainder bs len)
  reports : q.reports = p.reports ++ [(fno, len, bs.getD 1 0#8)]
  total : q.total = p.total + len
  hdrLen : q.hdrLen = p.hdrLen
  closed : p.hdrLen ≤ p.total + len ∨ ended → q.state = .hdr
  goesOn : ¬ (p.hdrLen ≤ p.total + len ∨ ended) → q.state = .msg

section Steps

variable {p : Parser} {held chunk : List Byte}

/-- A chunk is appended to what is held. -/
theorem Parser.Holding.appends (holding : p.Holding held) (word : chunk.length ≤ 8)
    (fits : (held ++ chunk).length ≤ 72) :
    addDataToBuffer p.buf p.L (ljust8 chunk) (lowKeep chunk.length) =
      (pack (held ++ chunk), (held ++ chunk).length) := by
  -- The fill bytes of the chunk are not enabled.
  have data : (ljust8 chunk).toList.take chunk.length = chunk := by
    rw [ljust8_toList word, List.take_left]
  rw [List.length_append] at fits
  rw [holding.buf, holding.L, addDataToBuffer_pack held _ word fits, data, List.length_append]

/-- A complete header is taken out without a report. -/
theorem Parser.step_header (holding : p.Holding held) (state : p.state = .hdr)
    (few : held.length ≤ 8) (word : chunk.length = 8) (fno off : Nat) (eof : Bool) :
    ∃ q, p.step fno off (ljust8 chunk) (lowKeep chunk.length) eof = q ∧
      q.Holding ((held ++ chunk).drop 8) ∧ q.state = .msg ∧ q.total = 8 ∧
      q.hdrLen = u16LE ((held ++ chunk).getD 0 0#8) ((held ++ chunk).getD 1 0#8) ∧
      q.reports = p.reports := by
  -- At most a word is left behind the eight bytes of the header.
  have length : (held ++ chunk).length = held.length + 8 := by rw [List.length_append, word]
  have appended := holding.appends (Nat.le_of_eq word) (by omega)
  have compressed : compressBuffer (pack (held ++ chunk)) (held ++ chunk).length 8 =
      (pack ((held ++ chunk).drop 8), (held ++ chunk).length - 8) :=
    compressBuffer_pack_drop (held ++ chunk) (by omega) (by omega) (by omega)
  simp only [Parser.step, appended, state]
  rw [if_pos (by omega), compressed, headerLength_pack]
  exact ⟨_, rfl, ⟨rfl, List.length_drop.symm⟩, rfl, rfl, rfl, rfl⟩

/-- An incomplete message is kept. -/
theorem Parser.step_waits (holding : p.Holding held) (state : p.state = .msg)
    (word : chunk.length ≤ 8) (fits : (held ++ chunk).length ≤ 72) (some : held ++ chunk ≠ [])
    (short : (held ++ chunk).length < ((held ++ chunk).getD 0 0#8).toNat) (fno off : Nat) :
    ∃ q, p.step fno off (ljust8 chunk) (lowKeep chunk.length) false = q ∧
      q.Holding (held ++ chunk) ∧ q.state = .msg ∧ q.total = p.total ∧ q.hdrLen = p.hdrLen ∧
      q.reports = p.reports := by
  -- The length byte asks for more than is held, and the frame is not over.
  have appended := holding.appends word fits
  have positive : ¬ (held ++ chunk).length = 0 := by rwa [List.length_eq_zero_iff]
  have first := byteAt_pack (held ++ chunk) (by omega : 0 < 72)
  have next : p.step fno off (ljust8 chunk) (lowKeep chunk.length) false =
      { p with buf := pack (held ++ chunk), L := (held ++ chunk).length } := by
    simp only [Parser.step, appended, state, if_neg positive, first]
    rw [if_neg (by omega)]
    rfl
  exact ⟨_, next, ⟨rfl, rfl⟩, state, rfl, rfl, rfl⟩

/-- A complete message is reported and taken out. -/
theorem Parser.step_takes (holding : p.Holding held) (state : p.state = .msg)
    (word : chunk.length ≤ 8) (fits : (held ++ chunk).length ≤ 72)
    (some : 0 < ((held ++ chunk).getD 0 0#8).toNat)
    (enough : ((held ++ chunk).getD 0 0#8).toNat ≤ (held ++ chunk).length) (fno off : Nat)
    (eof : Bool) :
    p.Takes (p.step fno off (ljust8 chunk) (lowKeep chunk.length) eof) fno
      ((held ++ chunk).getD 0 0#8).toNat (held ++ chunk) (eof = true) := by
  -- The length byte is not zero and all of its bytes are held.
  have appended := holding.appends word fits
  have positive : ¬ (held ++ chunk).length = 0 := by omega
  have first := byteAt_pack (held ++ chunk) (by omega : 0 < 72)
  have second := byteAt_pack (held ++ chunk) (by omega : 1 < 72)
  have compressed := compressBuffer_remainder (held ++ chunk) fits enough
  simp only [Parser.step, appended, state, if_neg positive, first, second]
  rw [if_pos ⟨enough, some⟩, compressed]
  constructor
  · exact ⟨rfl, rfl⟩
  · simp [Parser.reports, OutEntry.report]
  · rfl
  · rfl
  · intro closed
    exact if_pos (by simpa using closed)
  · intro open_
    exact if_neg (by simpa using open_)

end Steps

/-- Whole words arrive, at least one, until the message in front is complete. -/
theorem Parser.replayFrom_message (rest : List Byte) (fno off : Nat) {p : Parser}
    {held : List Byte} {len : Nat} (state : p.state = .msg) (holding : p.Holding held)
    (few : held.length ≤ 64) (short : len ≤ 64) (some : 0 < len)
    (head : ((held ++ rest).getD 0 0#8).toNat = len) (enough : len ≤ (held ++ rest).length)
    (more : rest ≠ []) :
    let n := 8 * max 1 ((len - held.length + 7) / 8)
    ∃ q off', p.replayFrom fno off rest = q.replayFrom fno off' (rest.drop n) ∧
      p.Takes q fno len (held ++ rest.take n) (rest.length ≤ n) := by
  -- Induction on the bytes to come: a word completes the message, or the next one is waited for.
  intro n
  have arrives := List.length_pos_iff.mpr more
  have word : (rest.take 8).length ≤ 8 := by rw [List.length_take]; omega
  have size : (held ++ rest.take 8).length = held.length + min 8 rest.length := by
    rw [List.length_append, List.length_take]
  have split : held ++ rest = held ++ rest.take 8 ++ rest.drop 8 := by
    rw [List.append_assoc, List.take_append_drop]
  have first : (held ++ rest.take 8).getD 0 0#8 = (held ++ rest).getD 0 0#8 := by
    rw [split, getD_append (held ++ rest.take 8), if_pos (by omega)]
  rw [← first] at head
  rw [List.length_append] at enough
  rw [Parser.replayFrom_step p fno off more]
  by_cases complete : len ≤ (held ++ rest.take 8).length
  · -- One word completes the message, and it is taken out with it.
    have one : n = 8 := by omega
    have takes := Parser.step_takes holding state word (by omega) (by omega) (by omega) fno off
      (decide (rest.length ≤ 8))
    rw [head] at takes
    rw [one]
    refine ⟨_, _, rfl, takes.holding, takes.reports, takes.total, takes.hdrLen, ?_, ?_⟩
    · simpa only [decide_eq_true_eq] using takes.closed
    · simpa only [decide_eq_true_eq] using takes.goesOn
  · have long : 8 < rest.length := by omega
    have open_ : decide (rest.length ≤ 8) = false := by simp [long]
    obtain ⟨w, next, holding', state', total, hdrLen, reports⟩ := Parser.step_waits holding state
      word (by omega) (by rw [← List.length_pos_iff]; omega) (by omega) fno off
    rw [open_, next]
    obtain ⟨q, off', replayed, takes⟩ := Parser.replayFrom_message (rest.drop 8) fno (off + 8)
      state' holding' (by omega) short some (by rw [← split, ← first, head])
      (by rw [← split, List.length_append]; omega)
      (by rw [← List.length_pos_iff, List.length_drop]; omega)
    have words : n = 8 + 8 * max 1 ((len - (held ++ rest.take 8).length + 7) / 8) := by omega
    rw [List.drop_drop, ← words] at replayed
    rw [List.append_assoc, ← List.take_add, ← words, List.length_drop] at takes
    refine ⟨q, off', replayed, takes.holding, by rw [takes.reports, reports],
      by rw [takes.total, total], by rw [takes.hdrLen, hdrLen], ?_, ?_⟩
    · rintro (done | ended)
      · exact takes.closed (Or.inl (by rw [hdrLen, total]; exact done))
      · exact takes.closed (Or.inr (by omega))
    · intro goesOn
      refine takes.goesOn ?_
      rintro (done | ended)
      · exact goesOn (Or.inl (by rw [hdrLen, total] at done; exact done))
      · exact goesOn (Or.inr (by omega))
termination_by rest.length
decreasing_by
  rw [List.length_drop]
  omega

/-- The parser is between frames and holds nothing. -/
structure Parser.Idle (p : Parser) : Prop where
  state : p.state = .hdr
  holding : p.Holding []

/-- The parser is inside a frame, in front of these messages, and part of them is buffered. -/
structure Parser.Behind (p : Parser) (b : Backlog) (held : List Byte)
    (ms : List (Message 6 47)) : Prop where
  state : p.state = .msg
  holding : p.Holding held
  reads : b.Reads held (messageBytes ms)
  small : b.Small

/-- The header length is not reached in front of the last of these messages. -/
def StaysOpen (hdrLen : Nat) : Nat → List (Nat × Byte) → Prop
  | total, (len, _) :: e :: rest => total + len < hdrLen ∧ StaysOpen hdrLen (total + len) (e :: rest)
  | _, _ => True

instance decidableStaysOpen (hdrLen : Nat) :
    ∀ (total : Nat) (es : List (Nat × Byte)), Decidable (StaysOpen hdrLen total es)
  | total, (len, _) :: e :: rest =>
    have := decidableStaysOpen hdrLen (total + len) (e :: rest)
    inferInstanceAs (Decidable (_ ∧ _))
  | _, [_] => isTrue trivial
  | _, [] => isTrue trivial

/-- A header length that counts all messages is reached with the last one only. -/
theorem staysOpen_counted {hdrLen : Nat} (ms : List (Message 6 47)) :
    ∀ {total : Nat}, hdrLen = total + (messageBytes ms).length →
      StaysOpen hdrLen total (items ms) := by
  -- Induction on the messages, each of which has some bytes.
  induction ms with
  | nil => exact fun _ => trivial
  | cons m ms ih =>
    intro total counted
    rw [messageBytes_length_cons] at counted
    cases ms with
    | nil => trivial
    | cons m' ms =>
      have next := m'.lo_le
      have more := messageBytes_length_cons m' ms
      exact ⟨by omega, ih (by omega)⟩

/-- A lost length byte is zero, and its message is waited for in vain. -/
theorem Parser.Behind.waitsFor {p : Parser} {b : Backlog} {held : List Byte}
    {ms : List (Message 6 47)} (behind : p.Behind b held ms) (some : 0 < b.count)
    (lost : b.intact = 0) : p.WaitsFor 0 := by
  -- With no intact byte the first one reads as zero.
  have length := behind.reads.length
  have count := behind.holding.L
  have small := behind.small.count_le
  have zero := behind.reads.lost 0 (by omega) some (fun _ => rfl)
  have head : (byteAt p.buf 0).toNat = 0 := by
    rw [behind.holding.buf, byteAt_pack _ (by decide), zero, BitVec.toNat_ofNat]
  exact ⟨behind.state, by omega, by omega, head, Or.inl rfl⟩

/-- The first message is reported with its length, and with its type unless that is lost. -/
theorem Parser.Behind.takes {p : Parser} {b : Backlog} {held : List Byte} {m : Message 6 47}
    {ms : List (Message 6 47)} (behind : p.Behind b held (m :: ms))
    (more : b.count < (messageBytes (m :: ms)).length) (alive : b.count = 0 ∨ 0 < b.intact)
    (fno off : Nat) :
    let rest := (messageBytes (m :: ms)).drop b.count
    let bs := held ++ rest.take (8 * b.words m.bytes.length)
    (bs.getD 1 0#8 = m.type ↔ b.count ≤ 1 ∨ 1 < b.intact ∨ m.type = 0#8) ∧
      ∃ q off', p.replayFrom fno off rest =
          q.replayFrom fno off' (rest.drop (8 * b.words m.bytes.length)) ∧
        p.Takes q fno m.bytes.length bs (rest.length ≤ 8 * b.words m.bytes.length) := by
  -- The length byte is intact, and the type byte is read with the words that complete the message.
  intro rest bs
  have low := m.lo_le
  have high := m.le_hi
  have reads := behind.reads
  have length := reads.length
  have most := reads.intact_le
  have count : rest.length = (messageBytes (m :: ms)).length - b.count := List.length_drop
  have total := messageBytes_length_cons m ms
  have words : b.words m.bytes.length = max 1 ((m.bytes.length - b.count + 7) / 8) := rfl
  have small := behind.small.count_le
  have start : messageBytes (m :: ms) ++ [] = m.bytes ++ messageBytes ms := by simp
  obtain ⟨length', type⟩ := Message.front (by decide) (by decide) start
  have second : (messageBytes (m :: ms)).getD 1 0#8 = m.type := type (by omega)
  constructor
  · by_cases kept : b.count ≤ 1 ∨ 1 < b.intact
    · -- The type byte is intact, or it arrives with these words.
      have same : bs.getD 1 0#8 = m.type :=
        (reads.getD_append (by omega) (by omega)).trans second
      exact ⟨fun _ => by omega, fun _ => same⟩
    · have zero : bs.getD 1 0#8 = 0#8 := by
        have inside : 1 < held.length := by omega
        have same : bs.getD 1 0#8 = held.getD 1 0#8 := by rw [getD_append, if_pos inside]
        exact same.trans (reads.lost 1 (by omega) (by omega) (by omega))
      rw [zero]
      constructor
      · exact fun none => Or.inr (Or.inr none.symm)
      · rintro (few | many | none)
        · exact absurd (Or.inl few) kept
        · exact absurd (Or.inr many) kept
        · exact none.symm
  · have whole : held ++ rest = held ++ rest.take rest.length := by rw [List.take_length]
    have head : ((held ++ rest).getD 0 0#8).toNat = m.bytes.length := by
      rw [whole, reads.getD_append (by omega) (by omega)]
      exact length' (by rw [← List.length_pos_iff]; omega)
    have taken := Parser.replayFrom_message rest fno off behind.state behind.holding (by omega)
      (by omega) (by omega) head (by rw [List.length_append]; omega)
      (by rw [← List.length_pos_iff]; omega)
    rw [length, ← words] at taken
    exact taken

/-- The first message leaves the parser behind the later ones, or idle after the last one.

It leaves it in the header state when it reaches the header length. -/
theorem Parser.Behind.message {p : Parser} {b : Backlog} {held : List Byte} {m : Message 6 47}
    {ms : List (Message 6 47)} (behind : p.Behind b held (m :: ms))
    (more : b.count < (messageBytes (m :: ms)).length) (alive : b.count = 0 ∨ 0 < b.intact)
    (fno off : Nat) :
    ∃ (ty : Byte) (q : Parser) (held' : List Byte) (off' : Nat),
      p.replayFrom fno off ((messageBytes (m :: ms)).drop b.count) =
        q.replayFrom fno off' ((messageBytes ms).drop (b.after m.bytes.length).count) ∧
      q.reports = p.reports ++ [(fno, m.bytes.length, ty)] ∧
      (ty = m.type ↔ b.count ≤ 1 ∨ 1 < b.intact ∨ m.type = 0#8) ∧
      ((b.after m.bytes.length).count < (messageBytes ms).length →
        (p.total + m.bytes.length < p.hdrLen →
          q.Behind (b.after m.bytes.length) held' ms ∧ q.total = p.total + m.bytes.length ∧
            q.hdrLen = p.hdrLen) ∧
        (p.hdrLen ≤ p.total + m.bytes.length →
          q.state = .hdr ∧ q.L = (b.after m.bytes.length).count)) ∧
      (ms = [] → q.Idle) := by
  -- What the message leaves is a backlog in front of the later ones.
  have total := messageBytes_length_cons m ms
  have words : b.words m.bytes.length = max 1 ((m.bytes.length - b.count + 7) / 8) := rfl
  have filled : b.filled m.bytes.length = b.count + 8 * b.words m.bytes.length := rfl
  have count : (b.after m.bytes.length).count = b.filled m.bytes.length - m.bytes.length := rfl
  have rest : (messageBytes (m :: ms)).drop m.bytes.length = messageBytes ms := by
    rw [messageBytes_cons, List.drop_left]
  have ahead : (messageBytes ms).drop (b.after m.bytes.length).count =
      (messageBytes (m :: ms)).drop (b.count + 8 * b.words m.bytes.length) := by
    rw [← rest, List.drop_drop]
    congr 1
    omega
  obtain ⟨typed, q, off', replayed, takes⟩ := behind.takes more alive fno off
  rw [List.drop_drop, ← ahead] at replayed
  rw [List.length_drop] at takes
  generalize bytes : held ++ ((messageBytes (m :: ms)).drop b.count).take
    (8 * b.words m.bytes.length) = bs at typed takes
  refine ⟨bs.getD 1 0#8, q, remainder bs m.bytes.length, off', replayed, takes.reports, typed,
    fun later => ⟨fun short => ?_, fun reached => ⟨takes.closed (Or.inl reached), ?_⟩⟩, ?_⟩
  · -- Words are still to come, so the message does not end the frame.
    have open_ : ¬ (p.hdrLen ≤ p.total + m.bytes.length ∨
        (messageBytes (m :: ms)).length - b.count ≤ 8 * b.words m.bytes.length) := by omega
    have reads := behind.reads.after behind.small alive m.lo_le (by omega)
    rw [rest, bytes] at reads
    exact ⟨⟨takes.goesOn open_, takes.holding, reads, behind.small.after alive m.lo_le⟩,
      takes.total, takes.hdrLen⟩
  · -- All words have arrived, and the message is gone.
    rw [takes.holding.L, remainder_length, ← bytes, List.length_append, List.length_take,
      List.length_drop, behind.reads.length]
    omega
  · -- The last message takes out everything that is buffered.
    rintro rfl
    simp only [messageBytes_nil, List.length_nil] at total
    refine ⟨takes.closed (Or.inr (by omega)), ?_⟩
    have none : remainder bs m.bytes.length = [] := by
      rw [← List.length_eq_zero_iff, remainder_length, ← bytes, List.length_append,
        List.length_take, List.length_drop, behind.reads.length]
      omega
    rw [← none]
    exact takes.holding

/-- Behind a lost length byte the messages are not reported. -/
theorem Parser.Behind.replayFrom_lost {p : Parser} {b : Backlog} {held : List Byte}
    {m : Message 6 47} {ms : List (Message 6 47)} (behind : p.Behind b held (m :: ms))
    (more : b.count < (messageBytes (m :: ms)).length) (some : 0 < b.count) (lost : b.intact = 0)
    (fno off : Nat) :
    ∃ es, (p.replayFrom fno off ((messageBytes (m :: ms)).drop b.count)).reports =
        p.reports ++ inFrame fno es ∧
      es ≠ items (m :: ms) := by
  -- The bytes of the first message are never accounted for.
  have total := messageBytes_length_cons m ms
  have sum := items_sum ms
  obtain ⟨es, reports, cases⟩ := (behind.waitsFor some lost).replayFrom
    ((messageBytes (m :: ms)).drop b.count) fno off
  rw [behind.holding.L, behind.reads.length, List.length_drop] at cases
  refine ⟨es, reports, ?_⟩
  rintro rfl
  rw [items_cons, List.map_cons, List.sum_cons] at cases
  rcases cases with none | ⟨positive, -⟩ | short
  · exact absurd none (List.cons_ne_nil _ _)
  · exact absurd positive (Nat.lt_irrefl 0)
  · omega

/-- In the header state a message is taken for a header, and the messages are not reported. -/
theorem Parser.replayFrom_closed {p : Parser} {b : Backlog} {m : Message 6 47}
    {ms : List (Message 6 47)} (state : p.state = .hdr) (length : p.L = b.count) (small : b.Small)
    (more : b.count < (messageBytes (m :: ms)).length) (fno off : Nat) :
    ∃ es, (p.replayFrom fno off ((messageBytes (m :: ms)).drop b.count)).reports =
        p.reports ++ inFrame fno es ∧
      es ≠ items (m :: ms) := by
  have total := messageBytes_length_cons m ms
  have sum := items_sum ms
  have few := small.count_le
  obtain ⟨es, reports, cases⟩ := Parser.replayFrom_hdr
    ((messageBytes (m :: ms)).drop b.count) fno off state (by omega)
  rw [length, List.length_drop] at cases
  refine ⟨es, reports, ?_⟩
  rintro rfl
  rw [items_cons, List.map_cons, List.sum_cons] at cases
  rcases cases with none | fewer
  · exact absurd none (List.cons_ne_nil _ _)
  · omega

/-- One message a word keeps up when the first message is complete and the later ones keep up. -/
theorem keepsUp_items_cons {b : Backlog} {m : Message 6 47} {ms : List (Message 6 47)}
    (more : b.count < (messageBytes (m :: ms)).length) (alive : b.count = 0 ∨ 0 < b.intact) :
    KeepsUp b (items (m :: ms)) ↔
      (b.count ≤ 1 ∨ 1 < b.intact ∨ m.type = 0#8) ∧
        KeepsUp (b.after m.bytes.length) (items ms) := by
  have total := messageBytes_length_cons m ms
  have sum := items_sum ms
  rw [items_cons]
  constructor
  · exact fun keeps => keeps.2.2
  · exact fun keeps => ⟨by omega, alive, keeps⟩

/-- Nothing keeps up once every byte has arrived, as no word is left. -/
theorem KeepsUp.count_lt {b : Backlog} {m : Message 6 47} {ms : List (Message 6 47)}
    (keeps : KeepsUp b (items (m :: ms))) : b.count < (messageBytes (m :: ms)).length := by
  have total := messageBytes_length_cons m ms
  have sum := items_sum ms
  rw [items_cons] at keeps
  obtain ⟨still, -⟩ := keeps
  omega

/-- The rest of a frame reports its messages exactly when one message a word keeps up. -/
theorem Parser.Behind.replayFrom (ms : List (Message 6 47)) :
    ∀ {p : Parser} {b : Backlog} {held : List Byte} (fno off : Nat), p.Behind b held ms →
      ms ≠ [] →
      ∃ es, (p.replayFrom fno off ((messageBytes ms).drop b.count)).reports =
          p.reports ++ inFrame fno es ∧
        (es = items ms ↔ KeepsUp b (items ms) ∧ StaysOpen p.hdrLen p.total (items ms)) ∧
        (KeepsUp b (items ms) → StaysOpen p.hdrLen p.total (items ms) →
          (p.replayFrom fno off ((messageBytes ms).drop b.count)).Idle) := by
  -- Induction on the messages; a message that goes wrong decides the frame.
  induction ms with
  | nil => exact fun _ _ _ some => absurd rfl some
  | cons m ms ih =>
    intro p b held fno off behind _
    by_cases more : b.count < (messageBytes (m :: ms)).length
    swap
    · -- Everything has arrived, and no word is left to take the message out with.
      have fails : ¬ KeepsUp b (items (m :: ms)) := fun keeps => more keeps.count_lt
      rw [List.drop_eq_nil_of_le (Nat.le_of_not_lt more), Parser.replayFrom_nil]
      exact ⟨[], by simp, ⟨fun none => absurd none.symm (List.cons_ne_nil _ _),
        fun keeps => absurd keeps.1 fails⟩, fun keeps => absurd keeps fails⟩
    by_cases alive : b.count = 0 ∨ 0 < b.intact
    swap
    · -- The length byte is lost, and the bytes behind it are never accounted for.
      have fails : ¬ KeepsUp b (items (m :: ms)) := fun keeps => alive keeps.2.1
      obtain ⟨es, reports, other⟩ := behind.replayFrom_lost more (by omega) (by omega) fno off
      exact ⟨es, reports, ⟨fun same => absurd same other, fun keeps => absurd keeps.1 fails⟩,
        fun keeps => absurd keeps fails⟩
    obtain ⟨ty, q, held', off', replayed, reports, typed, next, last⟩ :=
      behind.message more alive fno off
    rw [replayed, keepsUp_items_cons more alive, ← typed, items_cons]
    -- Either this was the last message, or no word is left, or the messages left go on.
    cases ms with
    | nil =>
      rw [messageBytes_nil, List.drop_nil, Parser.replayFrom_nil]
      exact ⟨[(m.bytes.length, ty)], reports, by simp [KeepsUp, StaysOpen], fun _ _ => last rfl⟩
    | cons m' ms =>
      by_cases later : (b.after m.bytes.length).count < (messageBytes (m' :: ms)).length
      · obtain ⟨goesOn, ends⟩ := next later
        by_cases short : p.total + m.bytes.length < p.hdrLen
        · obtain ⟨behind', total', hdrLen'⟩ := goesOn short
          obtain ⟨es, reports', iff, idle⟩ := ih fno off' behind' (List.cons_ne_nil _ _)
          rw [total', hdrLen'] at iff idle
          refine ⟨(m.bytes.length, ty) :: es, ?_, ?_, fun keeps stays => idle keeps.2 stays.2⟩
          · rw [reports', reports, List.append_assoc]
            rfl
          · rw [List.cons.injEq, Prod.mk.injEq, iff, eq_self, true_and, and_assoc, items_cons,
              StaysOpen]
            simp only [short, true_and]
        · -- The header length is reached too early, and a message is taken for a header.
          obtain ⟨state', length'⟩ := ends (Nat.le_of_not_lt short)
          obtain ⟨es, reports', other⟩ := Parser.replayFrom_closed state' length'
            (behind.small.after alive m.lo_le) later fno off'
          have closes : ¬ StaysOpen p.hdrLen p.total ((m.bytes.length, m.type) :: items (m' :: ms)) :=
            fun stays => short stays.1
          refine ⟨(m.bytes.length, ty) :: es, ?_,
            ⟨fun same => absurd (List.cons.inj same).2 other, fun right => absurd right.2 closes⟩,
            fun _ stays => absurd stays closes⟩
          rw [reports', reports, List.append_assoc]
          rfl
      · have fails : ¬ KeepsUp (b.after m.bytes.length) (items (m' :: ms)) :=
          fun keeps => later keeps.count_lt
        rw [List.drop_eq_nil_of_le (Nat.le_of_not_lt later), Parser.replayFrom_nil]
        exact ⟨[(m.bytes.length, ty)], reports,
          ⟨fun same => by simp at same, fun right => absurd right.1.2 fails⟩,
          fun keeps => absurd keeps.2 fails⟩

end MarketData
