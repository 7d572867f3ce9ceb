import MarketData.Bats.Reference

/-! After a flush, nothing of what came before it reaches a later command. -/

namespace MarketData.Bats

/-- `add_data_to_buffer` appends nothing in a cycle without a valid word. -/
def AppendsOnlyValid (sub : Submodules) : Prop :=
  ∀ buf len data byteEnables, sub.addDataToBuffer buf len false data byteEnables = (buf, len)

/-- Two runs that flushed are in the same state, and agree on what can still reach a command. -/
structure Agree (r₁ r₂ : Regs) : Prop where
  state : r₁.state = r₂.state
  buffer : r₁.buffer = r₂.buffer
  bufferLength : r₁.bufferLength = r₂.bufferLength
  active : r₁.state ≠ .noop
  /-- The time of the last word is the same, or no word has come yet. -/
  waiting : r₁.state = .readUnitHdr → r₁.bufferLength = 0 ∨ r₁.recvTimeR = r₂.recvTimeR
  /-- The unit header set the counters in both runs. -/
  inUnit : r₁.state = .readMsg → r₁.totalCounter = r₂.totalCounter ∧
    r₁.nextSeqNo = r₂.nextSeqNo ∧ r₁.recvTimeR = r₂.recvTimeR

/-- An edge dispatches a Time message or is a reset. -/
def refreshes (sub : Submodules) (i : Inputs) (r : Regs) : Bool :=
  i.reset || (decide (r.state = .readMsg) && msgReady sub i r && decide (msgType sub i r = msgTime))

/-- One of these edges dispatches a Time message or is a reset. -/
def refreshed (sub : Submodules) : Regs → List Inputs → Bool
  | _, [] => false
  | r, i :: is => refreshes sub i r || refreshed sub (step sub i r) is

/-- The seconds are the same once they are refreshed; in ST_RESET they are about to be cleared. -/
def SecondsAgree (fresh : Bool) (r₁ r₂ : Regs) : Prop :=
  fresh = true → r₁.state = .reset ∨ r₁.secondsR = r₂.secondsR

/-- The same outputs, the seconds of a command apart until they are refreshed. -/
structure SameOutputs (fresh : Bool) (r₁ r₂ : Regs) : Prop where
  ready : readyForUdpInput r₁ = readyForUdpInput r₂
  valid : r₁.cmdValid = r₂.cmdValid
  command : r₁.cmdValid = true → { r₁.cmd with seconds := 0 } = { r₂.cmd with seconds := 0 }
  seconds : r₁.cmdValid = true → fresh = true → r₁.cmd.seconds = r₂.cmd.seconds

section Edge

variable {sub : Submodules} {i : Inputs} {r r₁ r₂ : Regs}

/-- The registers after the assignments in front of the state machine. -/
def latched (i : Inputs) (r : Regs) : Regs :=
  { r with
    cmdValid := false, dbgValid := false,
    recvTimeR := if i.dsDataValid then i.dsTimestamp else r.recvTimeR }

/-- A message is dispatched at this edge. -/
def dispatches (sub : Submodules) (i : Inputs) (r : Regs) : Bool :=
  !i.reset && decide (r.state = .readMsg) && msgReady sub i r

/-- The first assignments of an edge, as the source writes them. -/
theorem latched_eq (i : Inputs) (r : Regs) :
    (if i.dsDataValid then
        { { r with cmdValid := false, dbgValid := false } with recvTimeR := i.dsTimestamp }
      else { r with cmdValid := false, dbgValid := false }) = latched i r := by
  -- By whether a word is valid.
  unfold latched
  cases i.dsDataValid <;> rfl

/-- A reset edge keeps all other registers. -/
theorem step_of_reset (reset : i.reset = true) :
    step sub i r = { latched i r with state := .reset } := by
  -- The branch of the reset is all there is.
  rw [← latched_eq]
  simp only [step, reset, if_true]

/-- A bad end of frame overrides what the state machine does to the buffer and the state. -/
def discarded (i : Inputs) (r next : Regs) : Regs :=
  if i.dsDataValid ∧ i.dsEofBad ∧ r.state ≠ .reset then
    { next with buffer := 0, bufferLength := 0, state := .readUnitHdr }
  else next

/-- The edge behind a reset. -/
theorem step_of_init (running : i.reset = false) (mode : r.state = .reset) :
    step sub i r = discarded i r { latched i r with
      buffer := 0, bufferLength := 0, hdrLength := 0, totalCounter := 0, nextSeqNo := 0,
      secondsR := 0, dbgValid := true, dbgData := dbgReset, state := .readUnitHdr } := by
  -- The branch of ST_RESET.
  rw [← latched_eq]
  simp only [step, running, mode, Bool.false_eq_true, if_false, discarded]

/-- An edge that waits for a unit header or takes one. -/
theorem step_of_unitHdr (running : i.reset = false) (mode : r.state = .readUnitHdr) :
    step sub i r = discarded i r (
      if hdrReady sub i r then { latched i r with
        hdrLength := (sub.newUxxBe 0 2 (abuf sub i r)).setWidth 16
        totalCounter := (sub.newUxxBe 2 1 (abuf sub i r)).setWidth 16
        nextSeqNo := (sub.newUxxBe 4 4 (abuf sub i r)).setWidth 32
        dbgValid := true, dbgData := dbgReadHdr, state := .readMsg,
        buffer := cbuf sub i r, bufferLength := clen sub i r }
      else { latched i r with buffer := cbuf sub i r, bufferLength := clen sub i r }) := by
  -- The branch of ST_READ_UNIT_HDR.
  rw [← latched_eq]
  simp only [step, running, mode, Bool.false_eq_true, if_false, discarded]
  cases hdrReady sub i r <;> rfl

/-- An edge with a malformed message. -/
theorem step_of_malformed (running : i.reset = false) (mode : r.state = .readMsg)
    (malformed : msgMalformed sub i r = true) :
    step sub i r = discarded i r { latched i r with
      buffer := 0, bufferLength := 0, state := .readUnitHdr } := by
  -- The malformed branch of ST_READ_MSG.
  rw [← latched_eq]
  simp only [step, running, mode, malformed, if_true, Bool.false_eq_true, if_false, discarded]

/-- A ready message is not malformed. -/
theorem msgReady_formed (ready : msgReady sub i r = true) : msgMalformed sub i r = false := by
  -- It is one of the conditions.
  simp only [msgReady, Bool.and_eq_true, Bool.not_eq_true'] at ready
  exact ready.1.2

/-- An edge that dispatches a message. -/
theorem step_of_message (running : i.reset = false) (mode : r.state = .readMsg)
    (ready : msgReady sub i r = true) :
    step sub i r = discarded i r { dispatch sub i r (latched i r) with
      nextSeqNo := r.nextSeqNo + 1#32, totalCounter := r.totalCounter - 1#16,
      state := if r.totalCounter ≤ 1#16 then .readUnitHdr else .readMsg,
      buffer := cbuf sub i r, bufferLength := clen sub i r } := by
  -- The ready branch of ST_READ_MSG.
  rw [← latched_eq]
  simp only [step, running, mode, ready, msgReady_formed ready, if_true, Bool.false_eq_true,
    if_false, discarded]

/-- An edge that waits for the rest of a message. -/
theorem step_of_incomplete (running : i.reset = false) (mode : r.state = .readMsg)
    (formed : msgMalformed sub i r = false) (waits : msgReady sub i r = false) :
    step sub i r = discarded i r { latched i r with
      buffer := cbuf sub i r, bufferLength := clen sub i r } := by
  -- Neither branch of ST_READ_MSG.
  rw [← latched_eq]
  simp only [step, running, mode, formed, waits, Bool.false_eq_true, if_false, discarded]

/-- A discarded buffer leaves the other registers. -/
theorem discarded_kept (i : Inputs) (r next : Regs) :
    (discarded i r next).cmdValid = next.cmdValid ∧ (discarded i r next).cmd = next.cmd ∧
      (discarded i r next).secondsR = next.secondsR := by
  -- Only the buffer and the state are written.
  unfold discarded
  split <;> exact ⟨rfl, rfl, rfl⟩

/-- Two runs that agree up to a bad end of frame agree behind it. -/
theorem Agree.badEof {n₁ n₂ : Regs} (agree : Agree n₁ n₂) (same : r₁.state = r₂.state) :
    Agree (discarded i r₁ n₁) (discarded i r₂ n₂) := by
  -- Both runs discard the buffer, or neither does.
  unfold discarded
  rw [same]
  split
  · exact ⟨rfl, rfl, rfl, by simp, fun _ => .inl rfl, by simp⟩
  · exact agree

/-- Runs with the same buffer append the same word. -/
theorem Agree.append (agree : Agree r₁ r₂) (sub : Submodules) (i : Inputs) :
    abuf sub i r₁ = abuf sub i r₂ ∧ alen sub i r₁ = alen sub i r₂ := by
  -- The append is a function of the buffer and the inputs.
  unfold abuf alen
  rw [agree.buffer, agree.bufferLength]
  exact ⟨rfl, rfl⟩

/-- Runs that agree see the same message and the same header. -/
theorem Agree.wires (agree : Agree r₁ r₂) (sub : Submodules) (i : Inputs) :
    hdrReady sub i r₁ = hdrReady sub i r₂ ∧ msgMalformed sub i r₁ = msgMalformed sub i r₂ ∧
      msgReady sub i r₁ = msgReady sub i r₂ ∧ msgType sub i r₁ = msgType sub i r₂ := by
  -- The wires are functions of the appended buffer.
  obtain ⟨bytes, length⟩ := agree.append sub i
  simp only [hdrReady, msgMalformed, msgReady, msgKnown, msgType, Bats.msgLength, bytes, length]
  exact ⟨trivial, rfl, rfl, trivial⟩

/-- Runs that agree drop the same bytes. -/
theorem Agree.compress (agree : Agree r₁ r₂) (sub : Submodules) (i : Inputs) :
    cbuf sub i r₁ = cbuf sub i r₂ ∧ clen sub i r₁ = clen sub i r₂ := by
  -- What is consumed is a function of the state and the appended buffer.
  obtain ⟨bytes, length⟩ := agree.append sub i
  obtain ⟨header, _, message, _⟩ := agree.wires sub i
  have same : consume sub i r₁ = consume sub i r₂ := by
    simp only [consume, agree.state, header, message, Bats.msgLength, bytes]
  unfold cbuf clen
  rw [bytes, length, same]
  exact ⟨rfl, rfl⟩

/-- The time of the last word stays the same, or becomes so with a word. -/
theorem latched_recvTime (same : r₁.recvTimeR = r₂.recvTimeR) :
    (latched i r₁).recvTimeR = (latched i r₂).recvTimeR := by
  -- A word brings its own time.
  unfold latched
  rw [same]

/-- A dispatched message writes no time. -/
theorem dispatch_recvTime (next : Regs) : (dispatch sub i r next).recvTimeR = next.recvTimeR := by
  -- By the type of the message.
  unfold dispatch
  dsimp only
  split
  · rfl
  · split
    · rfl
    · split <;> rfl

/-- While no word comes, an empty buffer stays empty. -/
theorem empty_waits (appends : AppendsOnlyValid sub) (none : i.dsDataValid = false)
    (empty : r.bufferLength = 0) : alen sub i r = 0 ∧ hdrReady sub i r = false := by
  -- Nothing is appended to it.
  have length : alen sub i r = 0 := by rw [alen, none, appends, empty]
  exact ⟨length, by rw [hdrReady, length]; rfl⟩

/-- A header is taken with the time of a word that came since the flush. -/
theorem Agree.header (agree : Agree r₁ r₂) (appends : AppendsOnlyValid sub)
    (mode : r₁.state = .readUnitHdr) (ready : hdrReady sub i r₁ = true) :
    (latched i r₁).recvTimeR = (latched i r₂).recvTimeR := by
  -- Without a word since the flush there are no eight bytes.
  cases valid : i.dsDataValid with
  | true => simp only [latched, valid, if_true]
  | false =>
    rcases agree.waiting mode with empty | same
    · exact absurd ready (by rw [(empty_waits appends valid empty).2]; exact Bool.false_ne_true)
    · exact latched_recvTime same

/-- While no header is there, no word has come or the time of the last one is the same. -/
theorem Agree.waits (agree : Agree r₁ r₂) (appends : AppendsOnlyValid sub)
    (mode : r₁.state = .readUnitHdr) (waits : hdrReady sub i r₁ = false) :
    clen sub i r₁ = 0 ∨ (latched i r₁).recvTimeR = (latched i r₂).recvTimeR := by
  -- By whether a word comes now.
  cases valid : i.dsDataValid with
  | true => exact .inr (by simp only [latched, valid, if_true])
  | false =>
    rcases agree.waiting mode with empty | same
    · have none : consume sub i r₁ = 0#7 := by simp [consume, mode, waits]
      have length : alen sub i r₁ = 0 := (empty_waits appends valid empty).1
      exact .inl (by rw [clen, none, compress_zero]; exact length)
    · exact .inr (latched_recvTime same)

/-- Runs that agree agree behind every edge with the same inputs. -/
theorem Agree.edge (agree : Agree r₁ r₂) (appends : AppendsOnlyValid sub) (i : Inputs) :
    Agree (step sub i r₁) (step sub i r₂) := by
  -- By the state, and in it by what the appended buffer allows.
  cases running : i.reset with
  | true =>
    rw [step_of_reset running, step_of_reset running]
    exact ⟨rfl, agree.buffer, agree.bufferLength, by simp, by simp, by simp⟩
  | false =>
    obtain ⟨header, malformed, message, _⟩ := agree.wires sub i
    obtain ⟨bytes, _⟩ := agree.append sub i
    obtain ⟨rest, length⟩ := agree.compress sub i
    cases mode : r₁.state with
    | noop => exact absurd mode agree.active
    | reset =>
      have mode' : r₂.state = .reset := agree.state ▸ mode
      rw [step_of_init running mode, step_of_init running mode']
      exact Agree.badEof ⟨rfl, rfl, rfl, by simp, fun _ => .inl rfl, by simp⟩ agree.state
    | readUnitHdr =>
      have mode' : r₂.state = .readUnitHdr := agree.state ▸ mode
      rw [step_of_unitHdr running mode, step_of_unitHdr running mode', ← header, ← bytes, ← rest,
        ← length]
      cases ready : hdrReady sub i r₁ with
      | true =>
        have time := agree.header appends mode ready
        exact Agree.badEof ⟨rfl, rfl, rfl, by simp, by simp, fun _ => ⟨rfl, rfl, time⟩⟩ agree.state
      | false =>
        have time := agree.waits appends mode ready
        exact Agree.badEof ⟨agree.state, rfl, rfl, agree.active, fun _ => time,
          fun inUnit => absurd (mode.symm.trans inUnit) (by simp)⟩ agree.state
    | readMsg =>
      have mode' : r₂.state = .readMsg := agree.state ▸ mode
      obtain ⟨counter, seqNo, time⟩ := agree.inUnit mode
      cases bad : msgMalformed sub i r₁ with
      | true =>
        rw [step_of_malformed running mode bad,
          step_of_malformed running mode' (malformed.symm.trans bad)]
        exact Agree.badEof ⟨rfl, rfl, rfl, by simp, fun _ => .inl rfl, by simp⟩ agree.state
      | false =>
        cases ready : msgReady sub i r₁ with
        | true =>
          rw [step_of_message running mode ready,
            step_of_message running mode' (message.symm.trans ready), ← rest, ← length, ← counter,
            ← seqNo]
          have later : (dispatch sub i r₁ (latched i r₁)).recvTimeR =
              (dispatch sub i r₂ (latched i r₂)).recvTimeR := by
            rw [dispatch_recvTime, dispatch_recvTime]
            exact latched_recvTime time
          refine Agree.badEof ⟨rfl, rfl, rfl, ?_, fun _ => .inr later, fun _ => ⟨rfl, rfl, later⟩⟩
            agree.state
          dsimp only
          split <;> simp
        | false =>
          rw [step_of_incomplete running mode bad ready, step_of_incomplete running mode'
            (malformed.symm.trans bad) (message.symm.trans ready), ← rest, ← length]
          have later := latched_recvTime (i := i) time
          exact Agree.badEof ⟨agree.state, rfl, rfl, agree.active, fun _ => .inr later,
            fun _ => ⟨counter, seqNo, later⟩⟩ agree.state

/-- The command of an edge is that of the message it dispatches. -/
theorem step_dispatches (message : dispatches sub i r = true) :
    (step sub i r).cmdValid = (dispatch sub i r (latched i r)).cmdValid ∧
      (step sub i r).cmd = (dispatch sub i r (latched i r)).cmd ∧
      (step sub i r).secondsR = (dispatch sub i r (latched i r)).secondsR := by
  -- What is discarded with a bad end of frame is the buffer.
  simp only [dispatches, Bool.and_eq_true, Bool.not_eq_true', decide_eq_true_eq] at message
  obtain ⟨⟨running, mode⟩, ready⟩ := message
  rw [step_of_message running mode ready]
  exact discarded_kept i r _

/-- Without a message an edge has no command, and the seconds are cleared in ST_RESET only. -/
theorem step_quiet (quiet : dispatches sub i r = false) (active : r.state ≠ .noop) :
    (step sub i r).cmdValid = false ∧ (step sub i r).secondsR =
      if i.reset = false ∧ r.state = .reset then 0 else r.secondsR := by
  -- By the branch of the edge.
  cases running : i.reset with
  | true =>
    rw [step_of_reset running]
    exact ⟨rfl, by simp [latched]⟩
  | false =>
    cases mode : r.state with
    | noop => exact absurd mode active
    | reset =>
      rw [step_of_init running mode]
      obtain ⟨valid, _, seconds⟩ := discarded_kept i r { latched i r with
        buffer := 0, bufferLength := 0, hdrLength := 0, totalCounter := 0, nextSeqNo := 0,
        secondsR := 0, dbgValid := true, dbgData := dbgReset, state := .readUnitHdr }
      exact ⟨valid, by rw [seconds]; simp⟩
    | readUnitHdr =>
      rw [step_of_unitHdr running mode]
      cases ready : hdrReady sub i r with
      | true =>
        obtain ⟨valid, _, seconds⟩ := discarded_kept i r _
        exact ⟨valid, by rw [seconds]; simp [latched]⟩
      | false =>
        obtain ⟨valid, _, seconds⟩ := discarded_kept i r _
        exact ⟨valid, by rw [seconds]; simp [latched]⟩
    | readMsg =>
      have waits : msgReady sub i r = false := by simpa [dispatches, running, mode] using quiet
      cases bad : msgMalformed sub i r with
      | true =>
        rw [step_of_malformed running mode bad]
        obtain ⟨valid, _, seconds⟩ := discarded_kept i r _
        exact ⟨valid, by rw [seconds]; simp [latched]⟩
      | false =>
        rw [step_of_incomplete running mode bad waits]
        obtain ⟨valid, _, seconds⟩ := discarded_kept i r _
        exact ⟨valid, by rw [seconds]; simp [latched]⟩

/-- Runs that agree dispatch the same messages. -/
theorem Agree.both (agree : Agree r₁ r₂) (sub : Submodules) (i : Inputs) :
    dispatches sub i r₁ = dispatches sub i r₂ := by
  -- The state and the wire are the same.
  obtain ⟨_, _, message, _⟩ := agree.wires sub i
  simp only [dispatches, agree.state, message]

/-- The same message is the same command but for the seconds, and a Time message sets these. -/
theorem Agree.message (agree : Agree r₁ r₂) (mode : r₁.state = .readMsg) (sub : Submodules)
    (i : Inputs) :
    (dispatch sub i r₁ (latched i r₁)).cmdValid = (dispatch sub i r₂ (latched i r₂)).cmdValid ∧
      ((dispatch sub i r₁ (latched i r₁)).cmdValid = true →
        { (dispatch sub i r₁ (latched i r₁)).cmd with seconds := 0 } =
          { (dispatch sub i r₂ (latched i r₂)).cmd with seconds := 0 } ∧
        (dispatch sub i r₁ (latched i r₁)).cmd.seconds = r₁.secondsR ∧
        (dispatch sub i r₂ (latched i r₂)).cmd.seconds = r₂.secondsR ∧
        msgType sub i r₁ ≠ msgTime) ∧
      (msgType sub i r₁ = msgTime → (dispatch sub i r₁ (latched i r₁)).secondsR =
        (dispatch sub i r₂ (latched i r₂)).secondsR) ∧
      (msgType sub i r₁ ≠ msgTime → (dispatch sub i r₁ (latched i r₁)).secondsR = r₁.secondsR ∧
        (dispatch sub i r₂ (latched i r₂)).secondsR = r₂.secondsR) := by
  -- By the type of the message: every field but the type of a command is written first.
  obtain ⟨_, _, _, type⟩ := agree.wires sub i
  obtain ⟨bytes, _⟩ := agree.append sub i
  obtain ⟨_, seqNo, time⟩ := agree.inUnit mode
  unfold dispatch
  dsimp only
  rw [← type, ← bytes]
  by_cases isTime : msgType sub i r₁ = msgTime
  · rw [if_pos isTime, if_pos isTime]
    exact ⟨rfl, fun none => absurd none Bool.false_ne_true, fun _ => rfl, fun other => absurd isTime other⟩
  · rw [if_neg isTime, if_neg isTime]
    split
    · refine ⟨rfl, fun _ => ⟨?_, rfl, rfl, isTime⟩, fun is => absurd is isTime, fun _ => ⟨rfl, rfl⟩⟩
      simp only [freshCommand, seqNo, time]
    · split
      · refine ⟨rfl, fun _ => ⟨?_, rfl, rfl, isTime⟩, fun is => absurd is isTime, fun _ => ⟨rfl, rfl⟩⟩
        simp only [freshCommand, seqNo, time]
      · exact ⟨rfl, fun none => absurd none Bool.false_ne_true, fun is => absurd is isTime,
          fun _ => ⟨rfl, rfl⟩⟩

/-- The seconds that agree stay so, and a Time message or a reset makes them agree. -/
theorem Agree.seconds (agree : Agree r₁ r₂) {fresh : Bool} (seconds : SecondsAgree fresh r₁ r₂)
    (sub : Submodules) (i : Inputs) :
    SecondsAgree (fresh || refreshes sub i r₁) (step sub i r₁) (step sub i r₂) := by
  -- Without a dispatch the seconds are cleared in both runs or kept.
  intro now
  have same := agree.both sub i
  cases message : dispatches sub i r₁ with
  | true =>
    have parts := message
    simp only [dispatches, Bool.and_eq_true, Bool.not_eq_true', decide_eq_true_eq] at parts
    obtain ⟨⟨running, mode⟩, ready⟩ := parts
    obtain ⟨_, _, isTime, other⟩ := agree.message mode sub i
    right
    rw [(step_dispatches message).2.2, (step_dispatches (same.symm.trans message)).2.2]
    by_cases time : msgType sub i r₁ = msgTime
    · exact isTime time
    · rw [(other time).1, (other time).2]
      have earlier : fresh = true := by
        simpa [refreshes, running, mode, ready, time] using now
      rcases seconds earlier with reset | equal
      · exact absurd (mode.symm.trans reset) (by simp)
      · exact equal
  | false =>
    have active' : r₂.state ≠ .noop := agree.state ▸ agree.active
    cases running : i.reset with
    | true =>
      left
      rw [step_of_reset running]
    | false =>
      right
      rw [(step_quiet message agree.active).2, (step_quiet (same.symm.trans message) active').2,
        ← agree.state]
      split
      · rfl
      · rename_i notInit
        have earlier : fresh = true := by
          have none : refreshes sub i r₁ = false := by
            simp only [dispatches, running, Bool.not_false, Bool.true_and] at message
            simp [refreshes, running, message]
          simpa [none] using now
        rcases seconds earlier with reset | equal
        · exact absurd ⟨running, reset⟩ notInit
        · exact equal

/-- Runs that agree have the same outputs behind every edge with the same inputs. -/
theorem Agree.outputs (agree : Agree r₁ r₂) (appends : AppendsOnlyValid sub) {fresh : Bool}
    (seconds : SecondsAgree fresh r₁ r₂) (i : Inputs) :
    SameOutputs (fresh || refreshes sub i r₁) (step sub i r₁) (step sub i r₂) := by
  -- A command is that of the message dispatched at the edge.
  have later := agree.edge appends i
  have same := agree.both sub i
  have ready : readyForUdpInput (step sub i r₁) = readyForUdpInput (step sub i r₂) := by
    simp only [readyForUdpInput, later.state, later.bufferLength]
  cases message : dispatches sub i r₁ with
  | true =>
    have parts := message
    simp only [dispatches, Bool.and_eq_true, Bool.not_eq_true', decide_eq_true_eq] at parts
    obtain ⟨⟨running, mode⟩, _⟩ := parts
    obtain ⟨valid, command, _, _⟩ := agree.message mode sub i
    obtain ⟨valid₁, cmd₁, _⟩ := step_dispatches message
    obtain ⟨valid₂, cmd₂, _⟩ := step_dispatches (same.symm.trans message)
    refine ⟨ready, by rw [valid₁, valid₂, valid], fun given => ?_, fun given now => ?_⟩
    · rw [cmd₁, cmd₂]
      exact (command (valid₁.symm.trans given)).1
    · obtain ⟨_, left, right, notTime⟩ := command (valid₁.symm.trans given)
      rw [cmd₁, cmd₂, left, right]
      have earlier : fresh = true := by simpa [refreshes, running, mode, notTime] using now
      rcases seconds earlier with reset | equal
      · exact absurd (mode.symm.trans reset) (by simp)
      · exact equal
  | false =>
    have active' : r₂.state ≠ .noop := agree.state ▸ agree.active
    have none₁ := (step_quiet message agree.active).1
    have none₂ := (step_quiet (same.symm.trans message) active').1
    have silent {claim : Prop} (given : (step sub i r₁).cmdValid = true) : claim := by
      rw [none₁] at given
      exact absurd given Bool.false_ne_true
    exact ⟨ready, none₁.trans none₂.symm, fun given => silent given, fun given _ => silent given⟩

end Edge

/-- Two flushes leave runs that agree. -/
theorem agree_of_flushes {sub : Submodules} {i₁ i₂ : Inputs} {r₁ r₂ : Regs}
    (flush₁ : flushes sub i₁ r₁ = true) (flush₂ : flushes sub i₂ r₂ = true) :
    Agree (step sub i₁ r₁) (step sub i₂ r₂) := by
  -- Both wait for a unit header with an empty buffer.
  obtain ⟨state₁, buffer₁, length₁⟩ := step_flush flush₁
  obtain ⟨state₂, buffer₂, length₂⟩ := step_flush flush₂
  exact ⟨state₁.trans state₂.symm, buffer₁.trans buffer₂.symm, length₁.trans length₂.symm,
    by simp [state₁], fun _ => .inl length₁, by simp [state₁]⟩

/-- Runs that agree have the same outputs behind every later edge. -/
theorem Agree.later {sub : Submodules} (appends : AppendsOnlyValid sub) (later : List Inputs)
    (i : Inputs) : ∀ {r₁ r₂ : Regs} {fresh : Bool}, Agree r₁ r₂ → SecondsAgree fresh r₁ r₂ →
      SameOutputs (fresh || refreshed sub r₁ (later ++ [i]))
        (run sub r₁ (later ++ [i])) (run sub r₂ (later ++ [i])) := by
  -- Induction on the edges.
  induction later with
  | nil =>
    intro r₁ r₂ fresh agree seconds
    have outputs := agree.outputs appends seconds i
    simpa [refreshed, run] using outputs
  | cons j later ih =>
    intro r₁ r₂ fresh agree seconds
    have outputs := ih (agree.edge appends j) (agree.seconds seconds sub j)
    rw [Bool.or_assoc] at outputs
    exact outputs

/-- After a flush at the same edge, two runs with the same inputs have the same outputs. -/
theorem flush_independent (sub : Submodules) (appends : AppendsOnlyValid sub) (start₁ start₂ : Regs)
    (history₁ history₂ : List Inputs) (i₁ i₂ : Inputs)
    (flush₁ : flushes sub i₁ (run sub start₁ history₁) = true)
    (flush₂ : flushes sub i₂ (run sub start₂ history₂) = true) (later : List Inputs) (i : Inputs) :
    SameOutputs (refreshed sub (run sub start₁ (history₁ ++ [i₁])) (later ++ [i]))
      (run sub start₁ (history₁ ++ [i₁] ++ later ++ [i]))
      (run sub start₂ (history₂ ++ [i₂] ++ later ++ [i])) := by
  -- The flushes leave runs that agree.
  have split (start : Regs) (history : List Inputs) (j : Inputs) :
      run sub start (history ++ [j] ++ later ++ [i]) =
        run sub (step sub j (run sub start history)) (later ++ [i]) := by
    simp [run, List.foldl_append]
  have flushed (start : Regs) (history : List Inputs) (j : Inputs) :
      run sub start (history ++ [j]) = step sub j (run sub start history) := by
    simp [run, List.foldl_append]
  rw [split, split, flushed]
  have agree := agree_of_flushes flush₁ flush₂
  have seconds : SecondsAgree false (step sub i₁ (run sub start₁ history₁))
      (step sub i₂ (run sub start₂ history₂)) := fun now => absurd now Bool.false_ne_true
  exact Agree.later appends later i agree seconds

/-- A unit header, then a message of length zero, and before it the cycle behind a reset. -/
def malformedHistory : List Inputs :=
  [idle, word [8, 0, 1, 1, 5, 0, 0, 0]]

/-- A datagram that ends badly in its first word. -/
def badWord : Inputs :=
  { word [9, 9, 9] with dsEofBad := true }

/-- A malformed message and a bad end of frame have the same outputs behind them. -/
theorem flush_independent_malformed :
    SameOutputs (refreshed reference (run reference resetRegs (malformedHistory ++ [word [0, 0]]))
        ([] ++ [word [14, 0, 1, 1, 7, 0, 0, 0]]))
      (run reference resetRegs (malformedHistory ++ [word [0, 0]] ++ [] ++
        [word [14, 0, 1, 1, 7, 0, 0, 0]]))
      (run reference resetRegs ([idle] ++ [badWord] ++ [] ++ [word [14, 0, 1, 1, 7, 0, 0, 0]])) :=
  flush_independent reference reference_appends.identity resetRegs resetRegs malformedHistory [idle]
    (word [0, 0]) badWord (by decide +kernel) (by decide +kernel) [] (word [14, 0, 1, 1, 7, 0, 0, 0])

end MarketData.Bats
