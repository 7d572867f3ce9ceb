import MarketData.Lib.Within
import MarketData.Netlist.ParserLaws

/-! Well-formed frames cut into elements in any way are recovered item by item. -/

namespace MarketData

/-- The elements deliver these byte strings one after another, eof on each last byte.

Elements that are neither valid nor eof may stand anywhere. -/
inductive Cut : List (List Byte) → List Elem → Prop
  | nil : Cut [] []
  | idle {rests es} (e : Elem) :
      e.valid = false → e.eof = false → Cut rests es → Cut rests (e :: es)
  | part {rest rests es} (e : Elem) :
      e.valid = true → e.Contiguous → e.bytes ≠ [] → e.eof = false → rest ≠ [] →
      Cut (rest :: rests) es → Cut ((e.bytes ++ rest) :: rests) (e :: es)
  | last {rests es} (e : Elem) :
      e.valid = true → e.Contiguous → e.bytes ≠ [] → e.eof = true →
      Cut rests es → Cut (e.bytes :: rests) (e :: es)

/-- What the parser must take out for one frame: its header, then each message. -/
def Frame.consumptions {lo hi : Nat} (f : Frame lo hi) : List Consumption :=
  .header f.payload.length f.header :: f.messages.map fun m => .message m.bytes

/-- The bytes taken out by a list of consumptions. -/
def consumedBytes (cs : List Consumption) : List Byte :=
  cs.flatMap Consumption.bytes

@[simp] theorem consumedBytes_nil : consumedBytes [] = [] := rfl

@[simp] theorem consumedBytes_cons (c : Consumption) (cs : List Consumption) :
    consumedBytes (c :: cs) = c.bytes ++ consumedBytes cs := rfl

/-- Message consumptions take out the bytes of their messages. -/
@[simp] theorem consumedBytes_messages {lo hi : Nat} (ms : List (Message lo hi)) :
    consumedBytes (ms.map fun m => .message m.bytes) = messageBytes ms := by
  -- Induction on the messages.
  induction ms with
  | nil => rfl
  | cons m ms ih => simp [ih, Consumption.bytes]

/-- The consumptions of a frame tile its payload. -/
theorem Frame.consumedBytes {lo hi : Nat} (f : Frame lo hi) :
    consumedBytes f.consumptions = f.payload := by
  -- The header comes first, then the messages.
  simp [Frame.consumptions, Consumption.bytes, Frame.payload]

/-- The room a consumption takes in the byte stream. -/
def Consumption.size (c : Consumption) : Nat :=
  c.bytes.length

/-- Taking out a consumption leaves what followed it. -/
theorem Consumption.drop_size (c : Consumption) (bs : List Byte) :
    (c.bytes ++ bs).drop c.size = bs :=
  List.drop_left' rfl

/-- The parser is at the head of these consumptions of one frame. -/
inductive Parser.Awaits (p : Parser) : List Consumption → Prop
  | header (f : Frame 8 65) : p.state = .hdr → Awaits p f.consumptions
  | body (m : Message 8 65) (ms : List (Message 8 65)) : p.state = .msg →
      p.hdrLen = p.total + (messageBytes (m :: ms)).length →
      Awaits p ((m :: ms).map fun m => .message m.bytes)

/-- Every awaited item is at least one buffer word long. -/
theorem Parser.Awaits.size_ge {p : Parser} {c : Consumption} {cs : List Consumption}
    (awaits : p.Awaits (c :: cs)) : 8 ≤ c.size := by
  -- A header has eight bytes, and a message at least as many.
  generalize same : c :: cs = all at awaits
  cases awaits with
  | header f =>
    obtain ⟨rfl, rfl⟩ := List.cons.inj same
    exact Nat.le_of_eq f.header_length.symm
  | body m ms =>
    obtain ⟨rfl, rfl⟩ := List.cons.inj same
    exact m.lo_le

/-- No awaited item is longer than the longest message. -/
theorem Parser.Awaits.size_le {p : Parser} {c : Consumption} {cs : List Consumption}
    (awaits : p.Awaits (c :: cs)) : c.size ≤ 65 := by
  -- A header has eight bytes, and a message at most 65.
  generalize same : c :: cs = all at awaits
  cases awaits with
  | header f =>
    obtain ⟨rfl, rfl⟩ := List.cons.inj same
    exact Nat.le_trans (Nat.le_of_eq f.header_length) (by decide)
  | body m ms =>
    obtain ⟨rfl, rfl⟩ := List.cons.inj same
    exact m.le_hi

/-- What one element does while less than the next item is buffered.

Either the item is still incomplete, or it is taken out and less than one word remains. -/
inductive Parser.Advances (p : Parser) (e : Elem) (bs rest : List Byte) (c : Consumption)
    (cs : List Consumption) : Prop
  | waits : bs.length < c.size → p.consumption e = none → (p.stepElem e).1.Holding bs →
      (p.stepElem e).1.Awaits (c :: cs) → Advances p e bs rest c cs
  | takes : c.size ≤ bs.length → p.consumption e = some c →
      (p.stepElem e).1.Holding (bs.drop c.size) →
      ((cs = [] ∧ rest = [] ∧ bs.drop c.size = [] ∧ (p.stepElem e).1.state = .hdr) ∨
        (p.stepElem e).1.Awaits cs ∧ cs ≠ []) → Advances p e bs rest c cs

/-- In the header state a frame's header is taken out once its eight bytes are there. -/
theorem Parser.advance_header {p : Parser} (f : Frame 8 65) (state : p.state = .hdr) {e : Elem}
    {bs rest : List Byte} (reads : p.Receives e bs) (room : bs.length < 16)
    (whole : bs ++ rest = f.payload) :
    p.Advances e bs rest (.header f.payload.length f.header)
      (f.messages.map fun m => .message m.bytes) := by
  have size : (Consumption.header f.payload.length f.header).size = 8 := f.header_length
  rcases Nat.lt_or_ge bs.length 8 with short | enough
  · obtain ⟨next, none⟩ := Parser.stepElem_header_wait reads state short
    refine .waits (by rw [size]; exact short) none ?_ ?_
    · rw [next]; exact ⟨rfl, rfl⟩
    · exact Parser.Awaits.header f (by rw [next]; exact state)
  · have front : bs ++ rest = f.payload ++ [] := by rw [List.append_nil, whole]
    obtain ⟨taken, field, _⟩ := Frame.front front enough
    obtain ⟨next, some⟩ := Parser.stepElem_header reads state enough (by omega)
    rw [field] at next some
    refine .takes (by rw [size]; exact enough) (by rw [some, taken])
      (by rw [next, size]; exact ⟨rfl, rfl⟩) (Or.inr ?_)
    -- The payload length is what the messages are counted against.
    obtain ⟨m, ms, list⟩ := List.exists_cons_of_ne_nil f.nonempty
    rw [list]
    refine ⟨Parser.Awaits.body m ms (by rw [next]) ?_, by simp⟩
    rw [next, ← list]
    exact f.payload_length

/-- After a message the parser is done with the frame or in front of its next message. -/
theorem Parser.advance_next {p q : Parser} {m : Message 8 65} {ms : List (Message 8 65)}
    {bs rest : List Byte} {eof : Bool}
    (counted : p.hdrLen = p.total + (messageBytes (m :: ms)).length)
    (total : q.total = p.total + m.bytes.length) (hdrLen : q.hdrLen = p.hdrLen)
    (state : q.state =
      if p.hdrLen ≤ p.total + m.bytes.length ∨ eof = true then .hdr else .msg)
    (few : bs.length < 8) (remaining : bs ++ rest = messageBytes ms)
    (ended : eof = true → rest = []) :
    (ms = [] ∧ rest = [] ∧ bs = [] ∧ q.state = .hdr) ∨
      q.Awaits (ms.map fun m => .message m.bytes) ∧ ms ≠ [] := by
  rw [messageBytes_cons, List.length_append] at counted
  cases ms with
  | nil =>
    -- The last message closes the byte count of the frame.
    obtain ⟨nothing, finished⟩ := List.append_eq_nil_iff.mp remaining
    refine Or.inl ⟨rfl, finished, nothing, ?_⟩
    rw [state]
    exact if_pos (Or.inl (by simp at counted; omega))
  | cons n ms =>
    have more := n.lo_le
    have open_ : ¬ (p.hdrLen ≤ p.total + m.bytes.length ∨ eof = true) := by
      rintro (closed | ending)
      · simp at counted; omega
      · -- After eof nothing follows, and a whole message does not fit in what is left.
        have lengths := congrArg List.length remaining
        simp [ended ending] at lengths
        omega
    refine Or.inr ⟨Parser.Awaits.body n ms ?_ ?_, by simp⟩
    · rw [state]; exact if_neg open_
    · rw [hdrLen, total]; omega

/-- In the message state the next message is taken out once all its bytes are there. -/
theorem Parser.advance_message {p : Parser} (m : Message 8 65) (ms : List (Message 8 65))
    (state : p.state = .msg) (counted : p.hdrLen = p.total + (messageBytes (m :: ms)).length)
    {e : Elem} {bs rest : List Byte} (reads : p.Receives e bs)
    (room : bs.length < m.bytes.length + 8) (whole : bs ++ rest = messageBytes (m :: ms))
    (ended : e.eof = true → rest = []) :
    p.Advances e bs rest (.message m.bytes) (ms.map fun m => .message m.bytes) := by
  have low := m.lo_le
  have high := m.le_hi
  rw [messageBytes_cons] at whole
  by_cases started : bs = []
  · subst started
    obtain ⟨next, none⟩ := Parser.stepElem_msg_empty reads state
    refine .waits (by unfold Consumption.size Consumption.bytes; simp; omega) none ?_ ?_
    · rw [next]; exact ⟨rfl, rfl⟩
    · exact Parser.Awaits.body m ms (by rw [next]; exact state) (by rw [next]; exact counted)
  · -- The first buffered byte is the first byte of the message, hence its length.
    have first := (Message.front (by decide) (by decide) whole).1 started
    obtain ⟨b, bs, rfl⟩ := List.exists_cons_of_ne_nil started
    rw [List.getD_cons_zero] at first
    rcases Nat.lt_or_ge (b :: bs).length m.bytes.length with short | enough
    · obtain ⟨next, none⟩ := Parser.stepElem_msg_wait reads state (by omega)
      -- An eof element carries the end of the frame, so the message would be complete.
      have open_ : e.eof = false := by
        cases ending : e.eof with
        | false => rfl
        | true =>
          have lengths := congrArg List.length whole
          simp only [ended ending, List.length_append, List.length_nil] at lengths
          omega
      rw [open_] at next
      refine .waits short none ?_ ?_
      · rw [next]; exact ⟨rfl, rfl⟩
      · exact Parser.Awaits.body m ms (by rw [next]; rfl) (by rw [next]; exact counted)
    · obtain ⟨taken, remaining⟩ := first_arrived whole enough
      obtain ⟨next, some⟩ := Parser.stepElem_msg reads state (by omega) (by omega) (by omega)
      rw [first] at next some
      rw [taken] at some
      refine .takes enough some (by rw [next]; exact ⟨rfl, rfl⟩) ?_
      have few : ((b :: bs).drop m.bytes.length).length < 8 := by rw [List.length_drop]; omega
      have after := Parser.advance_next (q := (p.stepElem e).1) counted (by rw [next])
        (by rw [next]) (by rw [next]) few remaining ended
      simpa [Consumption.size, Consumption.bytes] using after

/-- One element takes out the awaited item, or leaves the parser waiting for it. -/
theorem Parser.Awaits.advance {p : Parser} {c : Consumption} {cs : List Consumption}
    (awaits : p.Awaits (c :: cs)) {e : Elem} {bs rest : List Byte} (reads : p.Receives e bs)
    (room : bs.length < c.size + 8) (whole : bs ++ rest = consumedBytes (c :: cs))
    (ended : e.eof = true → rest = []) : p.Advances e bs rest c cs := by
  -- A header is awaited between frames, and a message inside one.
  generalize same : c :: cs = all at awaits whole
  cases awaits with
  | header f state =>
    obtain ⟨rfl, rfl⟩ := List.cons.inj same
    have size : (Consumption.header f.payload.length f.header).size = 8 := f.header_length
    rw [size] at room
    exact Parser.advance_header f state reads room (whole.trans f.consumedBytes)
  | body m ms state counted =>
    obtain ⟨rfl, rfl⟩ := List.cons.inj same
    rw [consumedBytes_messages] at whole
    exact Parser.advance_message m ms state counted reads room whole ended

/-- Along every prefix the items taken out are those received in full, and the rest is held.

`held` is what the parser holds at the start and `todo` is what it has to take out. -/
structure Parser.Tracks (p : Parser) (held : List Byte) (todo : List Consumption)
    (es : List Elem) : Prop where
  consumed : ∀ k, k ≤ es.length → p.consumptions (es.take k) =
    takeWithin Consumption.size todo (held ++ received (es.take k)).length
  holding : ∀ k, k ≤ es.length → (p.feed (es.take k)).Holding
    ((held ++ received (es.take k)).drop (consumedBytes (p.consumptions (es.take k))).length)
  fits : ∀ k, k ≤ es.length → (p.feed (es.take k)).L ≤ 72
  cleared : ∀ k e, es[k]? = some e → e.eof = true →
    (p.feed (es.take (k + 1))).state = .hdr ∧ (p.feed (es.take (k + 1))).L = 0

/-- Before any element nothing has been taken out. -/
theorem Parser.Tracks.nil {p : Parser} {held : List Byte} {todo : List Consumption}
    (holding : p.Holding held) (fits : held.length ≤ 72)
    (waiting : takeWithin Consumption.size todo held.length = []) : p.Tracks held todo [] := by
  -- Only position zero has to be checked.
  refine ⟨fun k _ => ?_, fun k _ => ?_, fun k _ => ?_, fun k e found => by simp at found⟩
  · simp [Parser.consumptions, waiting]
  · simpa [Parser.consumptions, Parser.feed] using holding
  · simpa [Parser.feed, holding.L] using fits

/-- An element that completes no item only lengthens what is held. -/
theorem Parser.Tracks.wait {p : Parser} {held : List Byte} {todo : List Consumption} {e : Elem}
    {es : List Elem} (holding : p.Holding held) (fits : held.length ≤ 72)
    (waiting : takeWithin Consumption.size todo held.length = [])
    (none : p.consumption e = none)
    (ended : e.eof = true → (p.stepElem e).1.state = .hdr ∧ (p.stepElem e).1.L = 0)
    (tail : (p.stepElem e).1.Tracks (held ++ e.bytes) todo es) : p.Tracks held todo (e :: es) := by
  -- Position zero is the start itself, and every later position is one of the tail's.
  refine ⟨fun k within => ?_, fun k within => ?_, fun k within => ?_, fun k e' found eof => ?_⟩
  · cases k with
    | zero => simp [Parser.consumptions, waiting]
    | succ k =>
      have later := tail.consumed k (by simpa using within)
      simpa [Parser.consumptions, none] using later
  · cases k with
    | zero => simpa [Parser.consumptions, Parser.feed] using holding
    | succ k =>
      have later := tail.holding k (by simpa using within)
      simpa [Parser.consumptions, Parser.feed, none] using later
  · cases k with
    | zero => simpa [Parser.feed, holding.L] using fits
    | succ k => exact tail.fits k (by simpa using within)
  · cases k with
    | zero =>
      obtain rfl : e = e' := by simpa using found
      exact ended eof
    | succ k => exact tail.cleared k e' (by simpa using found) eof

/-- An element that completes the next item hands the remainder to the items behind it. -/
theorem Parser.Tracks.take {p : Parser} {held : List Byte} {c : Consumption}
    {todo : List Consumption} {e : Elem} {es : List Elem} (holding : p.Holding held)
    (fits : held.length ≤ 72) (short : held.length < c.size) (enough : c.size ≤ (held ++ e.bytes).length)
    (some : p.consumption e = some c)
    (ended : e.eof = true → (p.stepElem e).1.state = .hdr ∧ (p.stepElem e).1.L = 0)
    (tail : (p.stepElem e).1.Tracks ((held ++ e.bytes).drop c.size) todo es) :
    p.Tracks held (c :: todo) (e :: es) := by
  -- Position zero is the start, and later positions are those of the tail behind the item.
  have dropped : ∀ r : List Byte, (held ++ (e.bytes ++ r)).drop c.size =
      (held ++ e.bytes).drop c.size ++ r := by
    intro r
    rw [← List.append_assoc, List.drop_append_of_le_length enough]
  refine ⟨fun k within => ?_, fun k within => ?_, fun k within => ?_, fun k e' found eof => ?_⟩
  · cases k with
    | zero => simp [Parser.consumptions, takeWithin_none short]
    | succ k =>
      have later := tail.consumed k (by simpa using within)
      have fits : c.size ≤ (held ++ (e.bytes ++ received (es.take k))).length := by
        simp at enough ⊢; omega
      have remaining := congrArg List.length (dropped (received (es.take k)))
      rw [List.length_drop] at remaining
      simp only [List.take_succ_cons, Parser.consumptions, some, received_cons,
        takeWithin_some fits, later, Option.toList_some, List.singleton_append, remaining]
  · cases k with
    | zero => simpa [Parser.consumptions, Parser.feed] using holding
    | succ k =>
      have later := tail.holding k (by simpa using within)
      rw [← dropped, List.drop_drop] at later
      simpa [Parser.consumptions, Parser.feed, some, Consumption.size] using later
  · cases k with
    | zero => simpa [Parser.feed, holding.L] using fits
    | succ k => exact tail.fits k (by simpa using within)
  · cases k with
    | zero =>
      obtain rfl : e = e' := by simpa using found
      exact ended eof
    | succ k => exact tail.cleared k e' (by simpa using found) eof

/-- The items of a list of frames, in order. -/
def expected {lo hi : Nat} (fs : List (Frame lo hi)) : List Consumption :=
  fs.flatMap Frame.consumptions

/-- Where a run stands between two elements of a cut: between frames, or inside one. -/
inductive Parser.Stands (p : Parser) (held : List Byte) :
    List (List Byte) → List Consumption → Prop
  /-- Every frame has been delivered and taken out. -/
  | done : held = [] → p.state = .hdr → Stands p held [] []
  /-- Part of a frame is still to come, and less than the next item is held. -/
  | within (c : Consumption) (cs : List Consumption) (rest : List Byte) (fs : List (Frame 8 65)) :
      p.Awaits (c :: cs) → held.length < c.size → held ++ rest = consumedBytes (c :: cs) →
      rest ≠ [] → Stands p held (rest :: fs.map Frame.payload) (c :: cs ++ expected fs)

/-- Between frames the parser stands before the next one, if there is one. -/
theorem Parser.stands_between {p : Parser} (state : p.state = .hdr) (fs : List (Frame 8 65)) :
    p.Stands [] (fs.map Frame.payload) (expected fs) := by
  -- The header of the next frame is awaited, if there is one.
  cases fs with
  | nil => exact .done rfl state
  | cons f fs =>
    have size : (Consumption.header f.payload.length f.header).size = 8 := f.header_length
    refine .within _ _ f.payload fs (.header f state) (by rw [size]; exact Nat.zero_lt_succ 7)
      f.consumedBytes.symm fun empty => ?_
    have length := f.payload_length
    simp only [empty, List.length_nil] at length
    omega

/-- Where the run stands, no item is complete. -/
theorem Parser.Stands.waiting {p : Parser} {held : List Byte} {rests : List (List Byte)}
    {todo : List Consumption} (stands : p.Stands held rests todo) :
    takeWithin Consumption.size todo held.length = [] := by
  -- What is held is shorter than the first item.
  cases stands with
  | done => rfl
  | within c cs rest fs _ short => exact takeWithin_none short

/-- Where the run stands, the buffer has room for another word. -/
theorem Parser.Stands.fits {p : Parser} {held : List Byte} {rests : List (List Byte)}
    {todo : List Consumption} (stands : p.Stands held rests todo) : held.length ≤ 64 := by
  -- What is held is shorter than the longest item.
  cases stands with
  | done empty => simp [empty]
  | within c cs rest fs awaits short => have := awaits.size_le; omega

/-- From every standing point the rest of a cut is tracked to its end. -/
theorem Parser.Stands.tracks {rests : List (List Byte)} {es : List Elem} (cut : Cut rests es) :
    ∀ {p : Parser} {held : List Byte} {todo : List Consumption}, p.Holding held →
      p.Stands held rests todo → p.Tracks held todo es := by
  -- The induction follows the elements of the cut, one step of the parser for each.
  induction cut with
  | nil =>
    intro p held todo holding stands
    exact .nil holding (by have := stands.fits; omega) stands.waiting
  | idle e invalid open_ _ ih =>
    intro p held todo holding stands
    have reads := holding.receives_invalid invalid
    have room := stands.fits
    have same : held ++ e.bytes = held := by simp [Elem.bytes, invalid]
    cases stands with
    | done empty state =>
      subst empty
      obtain ⟨next, none⟩ := Parser.stepElem_header_wait reads state (by simp)
      refine .wait holding (by simp) rfl none (by simp [open_]) ?_
      rw [same, next]
      exact ih ⟨rfl, rfl⟩ (.done rfl state)
    | within c cs rest fs awaits short whole more =>
      rcases awaits.advance reads (by omega) whole (by simp [open_]) with
        ⟨_, none, holding', awaits'⟩ | ⟨enough⟩
      · refine .wait holding (by omega) (takeWithin_none short) none (by simp [open_]) ?_
        rw [same]
        exact ih holding' (.within c cs rest fs awaits' short whole more)
      · omega
  | @part rest rests es e valid keep nonempty open_ more _ ih =>
    intro p held todo holding stands
    have room := stands.fits
    generalize front : (e.bytes ++ rest) :: rests = remaining at stands
    cases stands with
    | done => cases front
    | within c cs whole fs awaits short tiled _ =>
      obtain ⟨rfl, rfl⟩ := List.cons.inj front
      have word := e.bytes_length_le
      have reads := holding.receives keep (by simp; omega)
      rw [← List.append_assoc] at tiled
      rcases awaits.advance reads (by simp; omega) tiled (by simp [open_]) with
        ⟨still, none, holding', awaits'⟩ | ⟨enough, some, holding', after⟩
      · exact .wait holding (by omega) (takeWithin_none short) none (by simp [open_])
          (ih holding' (.within c cs rest fs awaits' still tiled more))
      · refine .take holding (by omega) short enough some (by simp [open_]) (ih holding' ?_)
        rcases after with ⟨_, finished, _⟩ | ⟨awaits', left⟩
        · exact absurd finished more
        · obtain ⟨d, ds, rfl⟩ := List.exists_cons_of_ne_nil left
          refine .within d ds rest fs awaits' ?_ ?_ more
          · have := awaits'.size_ge
            simp at short ⊢; omega
          · exact (first_arrived tiled enough).2
  | @last rests es e valid keep nonempty ended _ ih =>
    intro p held todo holding stands
    have room := stands.fits
    generalize front : e.bytes :: rests = remaining at stands
    cases stands with
    | done => cases front
    | within c cs whole fs awaits short tiled _ =>
      obtain ⟨rfl, rfl⟩ := List.cons.inj front
      have word := e.bytes_length_le
      have reads := holding.receives keep (by simp; omega)
      have tiled' : held ++ e.bytes ++ [] = consumedBytes (c :: cs) := by simpa using tiled
      rcases awaits.advance reads (by simp; omega) tiled' (by simp) with
        ⟨still, _⟩ | ⟨enough, some, holding', after⟩
      · -- The end of the frame has arrived, so its next item cannot be incomplete.
        have lengths := congrArg List.length tiled
        simp only [consumedBytes_cons, List.length_append] at lengths still
        unfold Consumption.size at still
        omega
      · have back := congrArg (List.drop c.size) tiled
        rw [consumedBytes_cons, c.drop_size] at back
        rcases after with ⟨finished, _, none, state⟩ | ⟨awaits', left⟩
        · subst finished
          rw [none] at holding'
          refine .take holding (by omega) short enough some (fun _ => ⟨state, holding'.L⟩) ?_
          rw [none]
          exact ih holding' (Parser.stands_between state fs)
        · -- What remains is shorter than a word, so it cannot be another item.
          obtain ⟨d, ds, rfl⟩ := List.exists_cons_of_ne_nil left
          have more := awaits'.size_ge
          have lengths := congrArg List.length back
          simp only [consumedBytes_cons, List.length_append, List.length_drop] at lengths
          unfold Consumption.size at *
          omega

/-- A cut delivers the byte strings it is a cut of. -/
theorem Cut.received {rests : List (List Byte)} {es : List Elem} (cut : Cut rests es) :
    received es = rests.flatten := by
  -- Induction on the cut.
  induction cut with
  | nil => rfl
  | idle e invalid _ _ ih => simp [Elem.bytes, invalid, ih]
  | part e _ _ _ _ _ _ ih => simp [ih]
  | last e _ _ _ _ _ ih => simp [ih]

/-- The items of all frames take exactly the room of their payloads. -/
theorem expected_size {lo hi : Nat} (fs : List (Frame lo hi)) :
    ((expected fs).map Consumption.size).sum = (fs.map Frame.payload).flatten.length := by
  -- The consumptions of each frame tile its payload.
  have tiles : ∀ cs : List Consumption,
      (cs.map Consumption.size).sum = (consumedBytes cs).length := by
    intro cs
    induction cs with
    | nil => rfl
    | cons c cs ih => simp [ih, Consumption.size]
  induction fs with
  | nil => rfl
  | cons f fs ih =>
    rw [show expected (f :: fs) = f.consumptions ++ expected fs from rfl, List.map_append,
      List.sum_append, ih, tiles, f.consumedBytes]
    simp

/-- Frames cut into elements in any way are recovered exactly, item by item.

After every element the items taken out are the headers and messages received in full, the
header length register is that of the last header among them, the buffer holds the bytes received
and not yet taken out, and each eof leaves an empty buffer in the header state. -/
theorem stepElem_recovers (fs : List (Frame 8 65)) (es : List Elem)
    (cut : Cut (fs.map Frame.payload) es) :
    Parser.fresh.consumptions es = expected fs ∧
    (∀ k, k ≤ es.length →
      Parser.fresh.consumptions (es.take k) =
        takeWithin Consumption.size (expected fs) (received (es.take k)).length ∧
      (Parser.fresh.feed (es.take k)).hdrLen =
        recordedLength 0 (Parser.fresh.consumptions (es.take k)) ∧
      front (Parser.fresh.feed (es.take k)).buf (Parser.fresh.feed (es.take k)).L =
        (received (es.take k)).drop
          (consumedBytes (Parser.fresh.consumptions (es.take k))).length) ∧
    (∀ k e, es[k]? = some e → e.eof = true →
      (Parser.fresh.feed (es.take (k + 1))).state = .hdr ∧
        (Parser.fresh.feed (es.take (k + 1))).L = 0) := by
  -- The fresh parser stands in front of the first frame, and the whole cut is tracked from there.
  have tracks := Parser.Stands.tracks cut Parser.fresh_holding (Parser.stands_between rfl fs)
  refine ⟨?_, fun k within => ⟨?_, Parser.fresh.feed_hdrLen _, ?_⟩, tracks.cleared⟩
  · -- All bytes have been received at the end, so every item has been taken out.
    have final := tracks.consumed es.length (Nat.le_refl _)
    rw [List.take_length, takeWithin_all] at final
    · exact final
    · exact Nat.le_of_eq (by rw [expected_size, cut.received, List.nil_append])
  · simpa using tracks.consumed k within
  · have holding := tracks.holding k within
    have fits := tracks.fits k within
    have same := front_pack _ (Nat.le_refl _) (holding.L ▸ fits)
    rw [List.take_length, ← holding.L, ← holding.buf] at same
    simpa using same

/-- An eight-byte message of type 0x20. -/
def sampleMessage : Message 8 65 where
  bytes := [8, 0x20, 1, 2, 3, 4, 5, 6]
  lengthByte := by decide
  lo_le := by decide
  le_hi := by decide

/-- A sixteen-byte payload with that one message. -/
def sampleFrame : Frame 8 65 where
  header := [16, 0, 1, 1, 5, 0, 0, 0]
  messages := [sampleMessage]
  header_length := by decide
  nonempty := by decide
  lengthField := by decide

/-- The payload in two elements that both split an item, with an idle one between them. -/
def sampleElems : List Elem :=
  [⟨0, #v[16, 0, 1, 1, 5, 0xEE, 0xEE, 0xEE], 0x1F, true, false⟩,
   ⟨0, #v[0xEE, 0xEE, 0xEE, 0xEE, 0xEE, 0xEE, 0xEE, 0xEE], 0xFF, false, false⟩,
   ⟨0, #v[0, 0, 0, 8, 0x20, 1, 2, 0xEE], 0x7F, true, false⟩,
   ⟨0, #v[3, 4, 5, 6, 0xEE, 0xEE, 0xEE, 0xEE], 0x0F, true, true⟩]

/-- The recovery theorem at a frame whose header and message are both split. -/
theorem stepElem_recovers_sample :
    Parser.fresh.consumptions sampleElems = expected [sampleFrame] :=
  -- The frame is cut behind the fifth and the twelfth byte, with an idle element in between.
  (stepElem_recovers [sampleFrame] sampleElems
    (Cut.part ⟨0, #v[16, 0, 1, 1, 5, 0xEE, 0xEE, 0xEE], 0x1F, true, false⟩ rfl
      ⟨5, by decide⟩ (by decide) rfl
      (show [0, 0, 0, 8, 0x20, 1, 2, 3, 4, 5, 6] ≠ ([] : List Byte) by decide)
      (Cut.idle _ rfl rfl
        (Cut.part ⟨0, #v[0, 0, 0, 8, 0x20, 1, 2, 0xEE], 0x7F, true, false⟩ rfl
          ⟨7, by decide⟩ (by decide) rfl
          (show [3, 4, 5, 6] ≠ ([] : List Byte) by decide)
          (Cut.last ⟨0, #v[3, 4, 5, 6, 0xEE, 0xEE, 0xEE, 0xEE], 0x0F, true, true⟩ rfl
            ⟨4, by decide⟩ (by decide) rfl Cut.nil))))).1

end MarketData
