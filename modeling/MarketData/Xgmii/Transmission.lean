import MarketData.Xgmii.Delivery
import MarketData.Xgmii.Sending

/-! Whole runs of `axis2xgmii`, and the two adapters back to back. -/

namespace MarketData.Xgmii

namespace Axis2Xgmii

/-- The columns that are sent after each clock edge without reset. -/
def columns : Axis2Xgmii → List AxisWord → List Column
  | _, [] => []
  | s, i :: is => (s.step false i).column :: columns (s.step false i) is

/-- The words that are taken from the stream. -/
def accepted : Axis2Xgmii → List AxisWord → List AxisWord
  | _, [] => []
  | s, i :: is => s.taken i ++ accepted (s.step false i) is

/-- The state behind some words of the stream. -/
def after (s : Axis2Xgmii) (is : List AxisWord) : Axis2Xgmii :=
  is.foldl (·.step false ·) s

/-- The payloads of the frames that were taken whole. -/
def payloads (s : Axis2Xgmii) (is : List AxisWord) : List (List Byte) :=
  (groupsFrom (·.tlast) [] (s.accepted is)).map keptBytes

/-- What was taken of a frame that is still open. -/
def pending (s : Axis2Xgmii) (is : List AxisWord) : List AxisWord :=
  openAfter (·.tlast) [] (s.accepted is)

variable {s : Axis2Xgmii}

/-- Inside a frame on the wire words of it have been taken, or its end is due; else nothing is. -/
theorem Sends.inside {front : List AxisWord} {due : Option (List Byte)} {p : Phase}
    (sends : Sends front due s p) :
    (p = .hunting → front = [] ∧ due = none) ∧
      (∀ lane sent, p = .data lane sent → front ≠ [] ∧ due = none ∨ front = [] ∧ due ≠ none) := by
  -- State by state: the registers say which phase the wire is in.
  cases fsm : s.fsm <;> rw [Sends, fsm] at sends
  case sres =>
    obtain ⟨rfl, rfl, rfl, -⟩ := sends
    exact ⟨fun _ => ⟨rfl, rfl⟩, by rintro lane sent ⟨⟩⟩
  case idleL0 | dwIdle =>
    obtain ⟨rfl, rfl, rfl⟩ := sends
    exact ⟨fun _ => ⟨rfl, rfl⟩, by rintro lane sent ⟨⟩⟩
  case qwIdle | tLane7 | tLane6 | tLane5 =>
    obtain ⟨rfl, rfl, rfl | rfl⟩ := sends
    · exact ⟨fun _ => ⟨rfl, rfl⟩, by rintro lane sent ⟨⟩⟩
    · exact ⟨fun _ => ⟨rfl, rfl⟩, by rintro lane sent ⟨⟩⟩
  case stLane0 | stLane4D =>
    obtain ⟨some, rfl, -, -, sent, rfl, -⟩ := sends
    exact ⟨by rintro ⟨⟩, fun _ _ _ => Or.inl ⟨some, rfl⟩⟩
  case stLane4 =>
    obtain ⟨-, -, -, -, rfl, -⟩ := sends
    exact ⟨by rintro ⟨⟩, by rintro lane sent ⟨⟩⟩
  all_goals
    obtain ⟨rfl, payload, lane, sent, rfl, -, rfl, -⟩ := sends
    exact ⟨by rintro ⟨⟩, fun _ _ _ => Or.inr ⟨rfl, by rintro ⟨⟩⟩⟩

/-- No frame is broken off. -/
theorem Sends.unbroken {front : List AxisWord} {due : Option (List Byte)} {p : Phase} {i : AxisWord}
    (sends : Sends front due s p) (advances : Advances front due s p i) :
    ¬ p.Breaks (s.step false i).column := by
  intro breaks
  cases p with
  | data lane sent =>
    -- Behind a broken frame nothing would be left of the words that have been taken.
    obtain ⟨control, missed⟩ := breaks
    obtain ⟨due', next, good, -⟩ := advances
    rw [Phase.next_breaks control missed] at next good
    obtain ⟨closed, rfl⟩ := next.inside.1 rfl
    have nothing : due.toList.map some ++
        ((groupsFrom (·.tlast) front (s.taken i)).map keptBytes).map some = [] := good.symm
    obtain ⟨noDue, noGroups⟩ := List.append_eq_nil_iff.mp nothing
    rw [List.map_eq_nil_iff, List.map_eq_nil_iff] at noGroups
    rcases sends.inside.2 lane sent rfl with ⟨some, -⟩ | ⟨-, some⟩
    · have all := @flatten_groupsFrom _ (·.tlast) front (s.taken i)
      rw [noGroups, closed] at all
      exact some (List.append_eq_nil_iff.mp all.symm).1
    · rw [List.map_eq_nil_iff, Option.toList_eq_nil_iff] at noDue
      exact some noDue
  | hunting => exact breaks
  | settling => exact breaks
  | preamble => exact breaks

/-- A run sends the frames that are taken. -/
theorem sends_run {front : List AxisWord} {due : Option (List Byte)} {p : Phase}
    (flag : s.tready = s.fsm.ready) (sends : Sends front due s p) (is : List AxisWord)
    (conforms : Conforms front s is) :
    (s.after is).tready = (s.after is).fsm.ready ∧
    ∃ due', Sends (openAfter (·.tlast) front (s.accepted is)) due' (s.after is)
        (understood p (s.columns is)) ∧
      (carried p (s.columns is)).map WireFrame.checked ++ due'.toList.map some =
        due.toList.map some ++
          ((groupsFrom (·.tlast) front (s.accepted is)).map keptBytes).map some ∧
      (∀ f ∈ carried p (s.columns is), ¬ f.Runt) ∧ Whole p (s.columns is) := by
  -- Word by word: a clock edge advances.
  induction is generalizing front due s p with
  | nil =>
    refine ⟨flag, due, sends, ?_, ?_, trivial⟩
    · exact (List.append_nil _).symm
    · rintro f ⟨⟩
  | cons i is ih =>
    obtain ⟨offer, later⟩ := conforms
    have advances := sends.next flag offer
    have unbroken := sends.unbroken advances
    obtain ⟨between, next, good, noRunt⟩ := advances
    obtain ⟨flags, due', rest, restGood, restNoRunt, whole⟩ :=
      ih (tready_kept flag false i) next later
    refine ⟨flags, due', ?_, ?_, ?_, unbroken, whole⟩
    · rw [accepted, openAfter_append]
      exact rest
    · rw [accepted, groupsFrom_append, columns, carried, List.map_append, List.append_assoc,
        restGood, ← List.append_assoc, good, List.map_append, List.map_append, List.append_assoc]
    · intro f member
      rcases List.mem_append.mp member with here | there
      · exact noRunt f (Option.mem_toList.mp here)
      · exact restNoRunt f there

/-- Behind a reset. -/
theorem sends_reset (s : Axis2Xgmii) (i : AxisWord) :
    (s.step true i).tready = (s.step true i).fsm.ready ∧ Sends [] none (s.step true i) .hunting :=
  ⟨rfl, rfl, rfl, rfl, rfl⟩

/-- When a word is asked for and no frame is open, nothing is still to be sent. -/
theorem Sends.ready {due : Option (List Byte)} {p : Phase} (sends : Sends [] due s p)
    (ready : s.fsm.ready = true) :
    due = none ∧ (s.fsm = .idleL0 ∨ s.fsm = .dwIdle) ∧ p = .hunting := by
  -- The states that take words and have none of a frame yet are those between frames.
  cases fsm : s.fsm <;> rw [fsm] at ready
  case idleL0 =>
    rw [Sends, fsm] at sends
    exact ⟨sends.2.1, Or.inl rfl, sends.2.2⟩
  case dwIdle =>
    rw [Sends, fsm] at sends
    exact ⟨sends.2.1, Or.inr rfl, sends.2.2⟩
  case stLane0 | stLane4D =>
    rw [Sends, fsm] at sends
    exact absurd rfl sends.1
  case stLane4 =>
    rw [Sends, fsm] at sends
    exact absurd sends.1 (by decide)
  all_goals exact absurd ready (by decide)

/-- When the next word is asked for and no frame is open, all that was taken is on the wire. -/
theorem sent_all (s : Axis2Xgmii) (first : AxisWord) (is : List AxisWord)
    (conforms : Conforms [] (s.step true first) is)
    (closed : (s.step true first).pending is = [])
    (ready : ((s.step true first).after is).tready = true) :
    (((s.step true first).after is).fsm = .idleL0 ∨ ((s.step true first).after is).fsm = .dwIdle) ∧
      understood .hunting ((s.step true first).columns is) = .hunting ∧
      (carried .hunting ((s.step true first).columns is)).map WireFrame.checked =
        ((s.step true first).payloads is).map some ∧
      (∀ f ∈ carried .hunting ((s.step true first).columns is), ¬ f.Runt) ∧
      Whole .hunting ((s.step true first).columns is) := by
  -- The run says what is due at its end, and here nothing is.
  obtain ⟨flag, sends⟩ := sends_reset s first
  obtain ⟨flags, due, rest, good, noRunt, whole⟩ := sends_run flag sends is conforms
  rw [pending] at closed
  rw [closed] at rest
  rw [flags] at ready
  obtain ⟨rfl, between, hunting⟩ := rest.ready ready
  exact ⟨between, hunting, (List.append_nil _).symm.trans good, noRunt, whole⟩

/-- The frames on the wire are the frames taken, in order, and each with its check sequence.

At the end of the run the last one may still be due, but not when the next word is asked for. -/
theorem sends_frames (s : Axis2Xgmii) (first : AxisWord) (is : List AxisWord)
    (conforms : Conforms [] (s.step true first) is) :
    ∃ due : Option (List Byte),
      (carried .hunting ((s.step true first).columns is)).map WireFrame.checked ++
          due.toList.map some = ((s.step true first).payloads is).map some ∧
      ((s.step true first).pending is = [] → ((s.step true first).after is).tready = true →
        due = none) := by
  -- The run says what is due at its end, and a transmitter that asks for a word owes nothing.
  obtain ⟨flag, sends⟩ := sends_reset s first
  obtain ⟨flags, due, rest, good, -⟩ := sends_run flag sends is conforms
  refine ⟨due, good, ?_⟩
  intro closed ready
  rw [flags] at ready
  rw [pending] at closed
  rw [closed] at rest
  exact (rest.ready ready).1

/-- The registers when the device starts: `fsm` has its initial value, the others may hold anything. -/
def powerUp : Axis2Xgmii where
  lane4Start := false
  tready := false
  fsm := .sres
  tdataI := 0
  tkeepI := 0
  d := 0
  c := 0
  auxDw := 0
  dic := 0
  crc32 := 0
  crc32_7B := 0
  crc32_6B := 0
  crc32_5B := 0
  crc32_4B := 0
  crc32_3B := 0
  crc32_2B := 0
  crc32_1B := 0
  auxVarCrc := 0
  calctedCrc4B := 0
  crcReg := 0

/-- A cycle without a word, a frame of nineteen bytes, and cycles without words. -/
def sampleWords : List AxisWord :=
  [.silent, ⟨0x0807060504030201, 0xFF, true, false, false⟩,
    ⟨0x100F0E0D0C0B0A09, 0xFF, true, false, false⟩, ⟨0x131211, 0x07, true, true, false⟩] ++
    List.replicate 6 .silent

/-- The bytes of the frame. -/
def samplePayload : List Byte :=
  [1, 2, 3, 4, 5, 6, 7, 8, 9, 10, 11, 12, 13, 14, 15, 16, 17, 18, 19]

/-- The sample frame is on the wire, and nothing else. -/
theorem sends_frames_sample :
    (carried .hunting ((powerUp.step true .silent).columns sampleWords)).map WireFrame.checked =
      [some samplePayload] := by
  obtain ⟨due, sent, idle⟩ := sends_frames powerUp .silent sampleWords (by decide +kernel)
  have taken : (powerUp.step true .silent).payloads sampleWords = [samplePayload] := by
    decide +kernel
  -- The transmitter asks for a word again, so nothing is due.
  rw [idle (by decide +kernel) (by decide +kernel), taken] at sent
  exact (List.append_nil _).symm.trans sent

/-- Runs one after the other are one run. -/
theorem run_append (is later : List AxisWord) :
    s.after (is ++ later) = (s.after is).after later ∧
      s.columns (is ++ later) = s.columns is ++ (s.after is).columns later ∧
      s.accepted (is ++ later) = s.accepted is ++ (s.after is).accepted later := by
  -- Word by word.
  induction is generalizing s with
  | nil => exact ⟨rfl, rfl, rfl⟩
  | cons i is ih =>
    obtain ⟨state, sent, taken⟩ := ih (s := s.step false i)
    refine ⟨state, ?_, ?_⟩
    · rw [List.cons_append, columns, sent]
      rfl
    · rw [List.cons_append, accepted, taken, accepted, List.append_assoc]
      rfl

/-- A source conforms in two parts. -/
theorem Conforms.append {front : List AxisWord} {is later : List AxisWord}
    (conforms : Conforms front s is)
    (more : Conforms (openAfter (·.tlast) front (s.accepted is)) (s.after is) later) :
    Conforms front s (is ++ later) := by
  -- Word by word.
  induction is generalizing front s with
  | nil => exact more
  | cons i is ih =>
    obtain ⟨offer, rest⟩ := conforms
    refine ⟨offer, ih rest ?_⟩
    rw [accepted, openAfter_append] at more
    exact more

/-- Between frames idle columns are sent. -/
theorem quiet_columns (fsm : s.fsm = .idleL0 ∨ s.fsm = .dwIdle) {quiet : List AxisWord}
    (none : ∀ q ∈ quiet, q.tvalid = false) :
    s.columns quiet = List.replicate quiet.length Column.idle := by
  -- Cycle by cycle: without a word both states send an idle column and wait in `IDLE_L0`.
  induction quiet generalizing s with
  | nil => rfl
  | cons q quiet ih =>
    obtain ⟨invalid, others⟩ := List.forall_mem_cons.mp none
    have notValid : ¬ q.tvalid = true := by
      rw [invalid]
      decide
    have next : (s.step false q).column = Column.idle ∧ (s.step false q).fsm = .idleL0 := by
      change (s.adapter q).column = _ ∧ (s.adapter q).fsm = _
      rcases fsm with fsm | fsm
      · rw [adapter, fsm]
        change (s.idleL0Step q).column = _ ∧ (s.idleL0Step q).fsm = _
        rw [idleL0Step, if_neg notValid]
        exact ⟨rfl, fsm⟩
      · rw [adapter, fsm]
        change (s.dwIdleStep q).column = _ ∧ (s.dwIdleStep q).fsm = _
        rw [dwIdleStep, if_neg notValid]
        exact ⟨rfl, rfl⟩
    rw [columns, next.1, ih (Or.inl next.2) others]
    rfl

end Axis2Xgmii

/-- The two adapters back to back, at one clock. -/
structure Loopback where
  tx : Axis2Xgmii
  rx : Xgmii2Axis

namespace Loopback

/-- One clock edge: the receiver sees the column that was sent by the edge before. -/
def step (m : Loopback) (rst : Bool) (i : AxisWord) : Loopback where
  tx := m.tx.step rst i
  rx := m.rx.step (!rst) m.tx.column

/-- The words that an output of the receiver shows after each clock edge without reset. -/
def delivered (port : Port) : Loopback → List AxisWord → List AxisWord
  | _, [] => []
  | m, i :: is =>
    (if ((m.step false i).rx.out port).tvalid then [(m.step false i).rx.out port] else []) ++
      delivered port (m.step false i) is

/-- The state behind some clock edges with reset. -/
def resetBy (m : Loopback) (is : List AxisWord) : Loopback :=
  is.foldl (·.step true ·) m

variable {m : Loopback}

/-- The receiver runs over the columns, the one that stands at the beginning first. -/
theorem delivered_columns (port : Port) (is : List AxisWord) (last : AxisWord) :
    delivered port m (is ++ [last]) =
      Xgmii2Axis.delivered port m.rx (m.tx.column :: m.tx.columns is) := by
  -- Word by word.
  induction is generalizing m with
  | nil => rfl
  | cons i is ih =>
    rw [List.cons_append, delivered, ih, Axis2Xgmii.columns, Xgmii2Axis.delivered]
    rfl

/-- A reset of both resets each. -/
theorem resetBy_parts (m : Loopback) {resets : List AxisWord} (some : resets ≠ []) :
    (∃ t i, (m.resetBy resets).tx = Axis2Xgmii.step t true i) ∧
      ∃ cols, cols ≠ [] ∧ (m.resetBy resets).rx = m.rx.resetBy cols := by
  -- Edge by edge.
  induction resets generalizing m with
  | nil => exact absurd rfl some
  | cons i resets ih =>
    cases resets with
    | nil => exact ⟨⟨m.tx, i, rfl⟩, [m.tx.column], List.cons_ne_nil _ _, rfl⟩
    | cons next resets =>
      obtain ⟨tx, cols, -, rx⟩ := ih (m.step true i) (List.cons_ne_nil next resets)
      exact ⟨tx, m.tx.column :: cols, List.cons_ne_nil _ _, rx⟩

/-- Behind a reset the receiver sees two idle columns, the frames that are taken, and idle columns.

The source conforms, and behind the last frame it is quiet. -/
theorem seen {resets : List AxisWord} (some : resets ≠ []) (is quiet : List AxisWord)
    (conforms : Axis2Xgmii.Conforms [] (m.resetBy resets).tx is)
    (closed : (m.resetBy resets).tx.pending is = [])
    (ready : ((m.resetBy resets).tx.after is).tready = true)
    (none : ∀ q ∈ quiet, q.tvalid = false) :
    ∃ cols sent, cols ≠ [] ∧ (m.resetBy resets).rx = m.rx.resetBy cols ∧
      (m.resetBy resets).tx.column :: (m.resetBy resets).tx.columns (is ++ quiet) =
        Column.idle :: Column.idle :: (sent ++ List.replicate quiet.length Column.idle) ∧
      (carried .hunting (sent ++ List.replicate quiet.length Column.idle)).map WireFrame.checked =
        ((m.resetBy resets).tx.payloads is).map Option.some ∧
      (∀ f ∈ carried .hunting (sent ++ List.replicate quiet.length Column.idle), ¬ f.Runt) ∧
      Whole .hunting (sent ++ List.replicate quiet.length Column.idle) := by
  obtain ⟨⟨t, i, tx⟩, cols, someCols, rx⟩ := resetBy_parts m some
  set l := m.resetBy resets
  -- The transmitter has sent all frames, and idle columns follow.
  rw [tx] at conforms closed ready
  obtain ⟨between, hunting, good, noRunt, whole⟩ :=
    Axis2Xgmii.sent_all t i is conforms closed ready
  rw [← tx] at between hunting good noRunt whole ready
  have idles := Axis2Xgmii.quiet_columns between none
  obtain ⟨-, nothing, unbroken⟩ := idles_between quiet.length
  -- The first two columns that the receiver sees are idle.
  have reset : l.tx.fsm = .sres ∧ l.tx.column = Column.idle := by
    rw [tx]
    exact ⟨rfl, rfl⟩
  cases is with
  | nil =>
    change l.tx.tready = true at ready
    rw [tx] at ready
    cases ready
  | cons j is =>
    have second : (l.tx.step false j).column = Column.idle := by
      have step : l.tx.adapter j = { l.tx with dic := 0, tready := true, fsm := .idleL0 } := by
        rw [Axis2Xgmii.adapter, reset.1]
      change (l.tx.adapter j).column = _
      rw [step]
      exact reset.2
    set sent := (l.tx.step false j).columns is with later
    have columns : l.tx.columns (j :: is) = Column.idle :: sent := by
      rw [Axis2Xgmii.columns, second]
    rw [columns] at hunting good noRunt whole
    have behind : understood .hunting sent = .hunting := hunting
    have frames : carried .hunting (sent ++ List.replicate quiet.length Column.idle) =
        carried .hunting (Column.idle :: sent) := by
      rw [carried_append, behind, nothing, List.append_nil]
      rfl
    refine ⟨cols, sent, someCols, rx, ?_, ?_, ?_, ?_⟩
    · rw [(Axis2Xgmii.run_append (j :: is) quiet).2.1, idles, columns, reset.2]
      rfl
    · rw [frames]
      exact good
    · rw [frames]
      exact noRunt
    · refine whole_append.mpr ⟨whole.2, ?_⟩
      rw [behind]
      exact unbroken

/-- What goes in at the transmitter comes out at the receiver, frame by frame and in order.

Both start from a reset in any states. The source conforms, and behind the last frame it is quiet for
four cycles. The beats are those that the generator writes for the frames. -/
theorem loopback_delivers (orderly : m.rx.Orderly) {resets : List AxisWord} (some : resets ≠ [])
    (is quiet : List AxisWord)
    (conforms : Axis2Xgmii.Conforms [] (m.resetBy resets).tx is)
    (closed : (m.resetBy resets).tx.pending is = [])
    (ready : ((m.resetBy resets).tx.after is).tready = true)
    (four : quiet.length = 4) (none : ∀ q ∈ quiet, q.tvalid = false) (port : Port) :
    ∃ words, (m.resetBy resets).delivered port (is ++ quiet) = m.rx.leftover ++ words ∧
      goodBeats words = genFrames ((m.resetBy resets).tx.payloads is) := by
  -- The receiver is a column behind, so of four quiet cycles it sees three.
  obtain ⟨three, last, rfl⟩ : ∃ three last, quiet = three ++ [last] :=
    ⟨quiet.dropLast, quiet.getLast (by rintro rfl; cases four),
      (List.dropLast_concat_getLast _).symm⟩
  have size : three.length = 3 := by
    rw [List.length_append, List.length_singleton] at four
    omega
  obtain ⟨cols, sent, someCols, rx, columns, good, noRunt, -⟩ := seen some is three conforms closed
    ready fun q member => none q (List.mem_append_left [last] member)
  rw [size] at columns good noRunt
  obtain ⟨words, same, beats, -⟩ := Xgmii2Axis.good_groups_delivered orderly someCols Column.idle
    Column.idle (by decide) sent port noRunt
  refine ⟨words, ?_, ?_⟩
  · rw [← List.append_assoc, delivered_columns, columns, rx]
    exact same
  -- The frames on the wire are the ones that were taken.
  · rw [goodPayloads, payloads_checked good] at beats
    exact goodBeats_eq beats

/-- The sample frame comes out at the receiver. -/
theorem loopback_delivers_sample :
    goodBeats ((resetBy ⟨.powerUp, .powerUp⟩ [.silent]).delivered .zy
      (Axis2Xgmii.sampleWords ++ List.replicate 4 .silent)) =
        genFrames [Axis2Xgmii.samplePayload] := by
  obtain ⟨words, same, good⟩ := loopback_delivers (m := ⟨.powerUp, .powerUp⟩)
    (fun _ => ⟨rfl, Or.inl rfl⟩) (List.cons_ne_nil AxisWord.silent []) Axis2Xgmii.sampleWords
    (List.replicate 4 .silent) (by decide +kernel) (by decide +kernel) (by decide +kernel) rfl
    (by decide) .zy
  have taken : (resetBy ⟨.powerUp, .powerUp⟩ [.silent]).tx.payloads Axis2Xgmii.sampleWords =
      [Axis2Xgmii.samplePayload] := by
    decide +kernel
  -- Nothing was left over by the reset.
  rw [taken] at good
  exact (congrArg goodBeats same).trans good

end Loopback

end MarketData.Xgmii
