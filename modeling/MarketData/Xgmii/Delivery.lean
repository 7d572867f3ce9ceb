import MarketData.Xgmii.Decoding

/-! Whole runs of `xgmii2axis`: what its two outputs deliver after a reset. -/

namespace MarketData.Xgmii

/-- A frame starts in the column. -/
def Column.Starts (col : Column) : Prop :=
  sofLane0 col.d col.c = true ∨ sofLane4 col.d col.c = true

instance (col : Column) : Decidable col.Starts :=
  inferInstanceAs (Decidable (_ ∨ _))

/-- The two output streams of the adapter. -/
inductive Port where
  | zy
  | lv
  deriving DecidableEq

/-- The beats of the good frames among some words, with the frames numbered from zero. -/
def goodBeats (words : List AxisWord) : List Row :=
  ((groupsFrom (·.tlast) [] words).filter fun ws => ws.getLast?.any (·.tuser)).zipIdx.flatMap
    fun g => g.1.map (AxisWord.row g.2)

/-- The beats of the good groups, group by group. -/
theorem goodRows_filterMap (groups : List (List AxisWord)) :
    groups.filterMap goodRows =
      (groups.filter fun ws => ws.getLast?.any (·.tuser)).map (List.map (AxisWord.row 0)) := by
  -- Group by group.
  induction groups with
  | nil => rfl
  | cons ws groups ih =>
    rw [List.filterMap_cons, List.filter_cons, goodRows]
    cases ws.getLast?.any (·.tuser) with
    | false => exact ih
    | true => exact congrArg (List.cons _) ih

/-- Good groups that are the beats of some frames are what the generator writes for them. -/
theorem goodBeats_eq {words : List AxisWord} {payloads : List (List Byte)}
    (good : (groupsFrom (·.tlast) [] words).filterMap goodRows = payloads.map (frameRows 0)) :
    goodBeats words = genFrames payloads := by
  -- The number of a frame is the same in all its beats, and put in afterwards.
  have wordRows : ∀ (n : Nat) (ws : List AxisWord),
      ws.map (AxisWord.row n) = (ws.map (AxisWord.row 0)).map fun r => { r with fno := n } := by
    intro n ws
    rw [List.map_map]
    rfl
  have byteRows : ∀ (n : Nat) (f : List Byte),
      frameRows n f = (frameRows 0 f).map fun r => { r with fno := n } := by
    intro n f
    rw [frameRows, frameRows, List.map_map]
    rfl
  have numbered : ∀ {α : Type} (rows : α → List Row) (xs : List α),
      (xs.zipIdx.flatMap fun g => (rows g.1).map fun r => { r with fno := g.2 }) =
        ((xs.map rows).zipIdx.flatMap fun g => g.1.map fun r => { r with fno := g.2 }) := by
    intro α rows xs
    rw [List.zipIdx_map, List.flatMap_map]
    rfl
  rw [goodRows_filterMap] at good
  have left := numbered (List.map (AxisWord.row 0))
    ((groupsFrom (·.tlast) [] words).filter fun ws => ws.getLast?.any (·.tuser))
  have right := numbered (frameRows 0) payloads
  simp only [← wordRows] at left
  simp only [← byteRows] at right
  rw [goodBeats, genFrames, left, right, good]

namespace Xgmii2Axis

/-- What stands on an output stream. -/
def out (s : Xgmii2Axis) : Port → AxisWord
  | .zy => s.zy
  | .lv => s.lv

/-- A word in the pipeline belongs to a frame that the adapter has noticed. -/
def Orderly (s : Xgmii2Axis) : Prop :=
  s.inboundFrame = false → s.tvalidD0 = false ∧ (s.fsm = .sres ∨ s.fsm = .idle)

/-- The word of a frame that a reset has cut off stays in the pipeline. -/
def leftover (s : Xgmii2Axis) : List AxisWord :=
  if s.tvalidD0 then
    [{ tdata := s.tdataD0, tkeep := s.tkeepI, tvalid := true, tlast := false, tuser := false }]
  else []

/-- The words that an output stream shows after each clock edge without reset. -/
def delivered (port : Port) : Xgmii2Axis → List Column → List AxisWord
  | _, [] => []
  | s, col :: cols =>
    (if ((s.step true col).out port).tvalid then [(s.step true col).out port] else []) ++
      delivered port (s.step true col) cols

/-- The state behind some columns without reset. -/
def after (s : Xgmii2Axis) (cols : List Column) : Xgmii2Axis :=
  cols.foldl (·.step true ·) s

/-- The state behind some clock edges with reset. -/
def resetBy (s : Xgmii2Axis) (cols : List Column) : Xgmii2Axis :=
  cols.foldl (·.step false ·) s

/-- The outputs follow the adapter. -/
def Synced (s : Xgmii2Axis) : Prop :=
  s.inboundFrame = false ∨ s.synch = true

variable {s : Xgmii2Axis}

/-- The outputs go on following the adapter, one cycle behind it. -/
theorem Synced.step (synced : s.Synced) (col : Column) :
    (s.step true col).Synced ∧ ∀ port, (s.step true col).out port = s.held := by
  -- The output block takes its first branch.
  have outputs : s.output true = (s.held, s.held, true) := by
    rcases synced with free | synch
    · simp [output, free]
    · simp [output, synch]
  constructor
  · apply Or.inr
    rw [Xgmii2Axis.step, outputs]
  · intro port
    cases port
    · rw [out, Xgmii2Axis.step, outputs]
    · rw [out, Xgmii2Axis.step, outputs]

/-- They follow it over a whole run. -/
theorem Synced.after (synced : s.Synced) (cols : List Column) : (s.after cols).Synced := by
  -- Column by column.
  induction cols generalizing s with
  | nil => exact synced
  | cons col cols ih => exact ih (synced.step col).1

/-- What is delivered first is the word that is held. -/
theorem Synced.delivered_cons (synced : s.Synced) (port : Port) (col : Column)
    (cols : List Column) :
    delivered port s (col :: cols) = s.heldWords ++ delivered port (s.step true col) cols := by
  rw [delivered, (synced.step col).2 port, heldWords]
  rfl

/-- A run delivers the words of the frames that the columns carry. -/
theorem delivered_run {front : List AxisWord} {p : Phase} (tracks : Tracks front s p)
    (synced : s.Synced) (port : Port) (cols : List Column)
    (noRunt : ∀ f ∈ carried p cols, ¬ f.Runt) :
    ∃ new, s.heldWords ++ s.flush ++ new =
        delivered port s cols ++ (s.after cols).heldWords ++ (s.after cols).flush ∧
      Tracks (openAfter (·.tlast) front new) (s.after cols) (understood p cols) ∧
      (groupsFrom (·.tlast) front new).filterMap goodRows =
        ((carried p cols).filterMap WireFrame.checked).map (frameRows 0) ∧
      (Whole p cols → (groupsFrom (·.tlast) front new).length ≤ (carried p cols).length) := by
  -- Column by column: the phases say what a column adds.
  induction cols generalizing front s p with
  | nil => exact ⟨[], by simp [delivered, after], tracks, rfl, fun _ => Nat.le_refl 0⟩
  | cons col cols ih =>
    have earlier : ∀ f ∈ (p.next col).2, ¬ f.Runt := fun f member =>
      noRunt f (List.mem_append_left _ (Option.mem_toList.mpr member))
    obtain ⟨new, words, next, good, few⟩ := tracks.next col earlier
    obtain ⟨rest, restWords, restNext, restGood, restFew⟩ := ih next.step
      (synced.step col).1 fun f member => noRunt f (List.mem_append_right _ member)
    have sameHeld : (s.step true col).heldWords = (s.adapter col).heldWords := rfl
    have sameFlush : (s.step true col).flush = (s.adapter col).flush := rfl
    rw [sameHeld, sameFlush, ← words] at restWords
    refine ⟨new ++ rest, ?_, ?_, ?_, ?_⟩
    · rw [synced.delivered_cons, List.append_assoc, ← List.append_assoc s.flush, ← List.append_assoc,
        List.append_assoc s.heldWords, restWords]
      simp only [List.append_assoc]
      rfl
    · rw [openAfter_append]
      exact restNext
    · rw [groupsFrom_append, List.filterMap_append, good, restGood, carried, List.filterMap_append,
        List.map_append]
    · rintro ⟨unbroken, whole⟩
      rw [groupsFrom_append, carried, List.length_append, List.length_append]
      exact Nat.add_le_add (few.resolve_left unbroken) (restFew whole)

/-- A reset stops the adapter and keeps its data registers. -/
theorem resetBy_eq (s : Xgmii2Axis) {cols : List Column} (some : cols ≠ []) :
    s.resetBy cols =
      { s with
        tvalidI := false, fsm := .sres, synch := false,
        zy := { s.zy with tvalid := false }, lv := { s.lv with tvalid := false } } := by
  -- The second edge of a reset changes nothing any more.
  induction cols generalizing s with
  | nil => exact absurd rfl some
  | cons col cols ih =>
    cases cols with
    | nil => rfl
    | cons next cols =>
      have more : (s.resetBy (col :: next :: cols)) = (s.step false col).resetBy (next :: cols) := rfl
      rw [more, ih _ (List.cons_ne_nil next cols)]
      rfl

/-- The first column behind a reset is passed over. -/
theorem adapter_sres (reset : s.fsm = .sres) (col : Column) :
    s.adapter col = { s.counted with goodFrames := 0, badFrames := 0, fsm := .idle } := by
  rw [adapter, reset]

/-- Without a start `IDLE` passes on what is in the pipeline, and waits. -/
theorem adapter_idle (idle : s.fsm = .idle) {col : Column} (noStart : ¬ col.Starts) :
    s.adapter col =
      { s.counted with
        tvalidD0 := false, tlastI := false, tuserI := false, crc32 := crcPreset, dReg := col.d,
        inboundFrame := false, fsm := .idle } := by
  -- Neither of the two comparisons holds, so no frame is on the way.
  obtain ⟨noZero, noFour⟩ := not_or.mp noStart
  rw [Bool.not_eq_true] at noZero noFour
  rw [adapter, idle]
  simp only [noZero, noFour]
  rfl

/-- The outputs stay quiet while the adapter holds nothing, or they do not follow it. -/
theorem out_quiet (empty : s.Synced → s.tvalidI = false)
    (quiet : ∀ port, (s.out port).tvalid = false) (col : Column) (port : Port) :
    ((s.step true col).out port).tvalid = false := by
  -- The outputs show the word that is held, or the second one stays and the first one is cleared.
  by_cases synced : s.Synced
  · rw [(synced.step col).2 port]
    exact empty synced
  · -- The output block takes its second branch.
    obtain ⟨inbound, synch⟩ := not_or.mp synced
    rw [Bool.not_eq_false] at inbound
    rw [Bool.not_eq_true] at synch
    have outputs : s.output true = (s.zy, { s.lv with tvalid := false }, s.synch) := by
      simp [output, inbound, synch]
    cases port with
    | zy =>
      change (s.output true).1.tvalid = false
      rw [outputs]
      exact quiet .zy
    | lv =>
      change (s.output true).2.1.tvalid = false
      rw [outputs]

/-- The first column behind a reset clears the counters, and the outputs stay quiet. -/
theorem first_passed (s : Xgmii2Axis) {resets : List Column} (some : resets ≠ []) (first : Column) :
    let q := (s.resetBy resets).step true first
    (q.fsm = .idle ∧ q.goodFrames = 0 ∧ q.badFrames = 0) ∧
      (q.tvalidI = s.tvalidD0 ∧ q.tvalidD0 = s.tvalidD0 ∧ q.tdataD0 = s.tdataD0 ∧
        q.tkeepI = s.tkeepI ∧ q.inboundFrame = s.inboundFrame) ∧
      (s.inboundFrame = true → q.synch = false) ∧ ∀ port, (q.out port).tvalid = false := by
  -- The reset leaves the data registers, and the column only shifts the pipeline.
  have cleared := resetBy_eq s some
  set r := s.resetBy resets
  have reset : r.adapter first = { r.counted with goodFrames := 0, badFrames := 0, fsm := .idle } :=
    adapter_sres (by rw [cleared]) first
  intro q
  have passed : q = { r.adapter first with
      zy := (r.output true).1, lv := (r.output true).2.1, synch := (r.output true).2.2 } := rfl
  refine ⟨?_, ?_, ?_, ?_⟩
  · rw [passed, reset]
    exact ⟨rfl, rfl, rfl⟩
  · rw [passed, reset, cleared]
    exact ⟨rfl, rfl, rfl, rfl, rfl⟩
  -- A frame that was on the way keeps the outputs out of step.
  · intro noticed
    rw [passed, cleared]
    simp [output, noticed]
  · intro port
    refine out_quiet (fun _ => by rw [cleared]) ?_ first port
    rw [cleared]
    rintro ⟨⟩
    · rfl
    · rfl

/-- Behind a reset and a column without a start the adapter hunts, with the leftover in front. -/
theorem resetBy_hunts (orderly : s.Orderly) {resets : List Column} (some : resets ≠ [])
    (first second : Column) (noStart : ¬ second.Starts) :
    let t := (s.resetBy resets).after [first, second]
    Tracks [] t .hunting ∧ t.Synced ∧ t.heldWords = s.leftover ∧ t.flush = [] ∧
      ∀ port, delivered port (s.resetBy resets) [first, second] = [] := by
  -- The first column is passed over, and the second one shows that no frame is on the way.
  obtain ⟨⟨waiting, -, -⟩, ⟨nextValid, valid, data, keep, inbound⟩, still, quiet⟩ :=
    first_passed s some first
  set q := (s.resetBy resets).step true first
  have passed := adapter_idle waiting noStart
  have empty : q.Synced → q.tvalidI = false := by
    intro synced
    rw [nextValid]
    cases noticed : s.inboundFrame with
    | false => exact (orderly noticed).1
    | true =>
      -- The outputs stand still, so they are not in step.
      rcases synced with free | synch
      · rw [inbound, noticed] at free
        cases free
      · rw [still noticed] at synch
        cases synch
  refine ⟨⟨rfl, Or.inl ⟨congrArg fsm passed, congrArg tvalidD0 passed⟩⟩,
    Or.inl (congrArg inboundFrame passed), ?_, ?_, ?_⟩
  · have words : (q.step true second).heldWords = (q.adapter second).heldWords := rfl
    change (q.step true second).heldWords = _
    rw [words, passed, leftover, ← data, ← keep, ← valid]
    have full : q.counted.tvalidI = q.tvalidD0 := rfl
    cases waits : q.tvalidD0 with
    | false => exact if_neg (by rw [full, waits]; decide)
    | true =>
      refine (if_pos (by rw [full, waits])).trans ?_
      rw [held, full, waits]
      rfl
  · have idle : (q.step true second).fsm = .idle := congrArg fsm passed
    change (q.step true second).flush = _
    rw [flush, idle, if_neg (by decide)]
  · intro port
    have later := out_quiet empty quiet second port
    rw [delivered, delivered, delivered]
    change (if (q.out port).tvalid then _ else _) ++ ((if ((q.step true second).out port).tvalid
      then _ else _) ++ _) = _
    rw [quiet port, later]
    rfl

/-- What the states that receive leave as it was, the counting of the last frame apart. -/
def Kept (s t : Xgmii2Axis) : Prop :=
  t.goodFrames = s.counted.goodFrames ∧ t.badFrames = s.counted.badFrames ∧
    t.inboundFrame = s.inboundFrame ∧ (t.fsm = s.fsm ∨ t.fsm ≠ .sres)

/-- No column of a frame touches the counters, nor whether a frame is on the way. -/
theorem Received.kept {word t : Xgmii2Axis} (receives : Received word t) (kept : Kept s word)
    (same : word.fsm = s.fsm) : Kept s t := by
  -- Each outcome of a column writes data registers and the state only.
  obtain ⟨good, bad, inbound, -⟩ := kept
  cases receives with
  | more => exact ⟨good, bad, inbound, Or.inl same⟩
  | ends keep verdict => exact ⟨good, bad, inbound, Or.inr (by rintro ⟨⟩)⟩
  | late keep rcved calcted tchar next =>
    refine ⟨good, bad, inbound, Or.inr ?_⟩
    rcases next with rfl | rfl <;> rintro ⟨⟩
  | breaks => exact ⟨good, bad, inbound, Or.inr (by rintro ⟨⟩)⟩

/-- A start does not lead to a reset. -/
theorem started (zero four : Bool) :
    (if zero then RxFsm.stLane0 else if four then .stLane4 else .idle) ≠ .sres := by
  cases zero <;> cases four <;> rintro ⟨⟩

/-- Only `SRES` clears the counters, and only `IDLE` looks whether a frame is on the way. -/
theorem adapter_kept (running : s.fsm ≠ .sres) (busy : s.fsm ≠ .idle) (col : Column) :
    Kept s (s.adapter col) := by
  -- State by state; the receiving ones have their common lemma.
  cases fsm : s.fsm with
  | sres => exact absurd fsm running
  | idle => exact absurd fsm busy
  | stLane0 =>
    rw [adapter, fsm]
    exact (received s col).1.kept ⟨rfl, rfl, rfl, Or.inl rfl⟩ rfl
  | dLane4 =>
    rw [adapter, fsm]
    exact (received s col).2.kept ⟨rfl, rfl, rfl, Or.inl rfl⟩ rfl
  | fin =>
    rw [adapter, fsm]
    exact ⟨rfl, rfl, rfl, Or.inr (started (false && sofLane0 col.d col.c) (sofLane4 col.d col.c))⟩
  | finL4 =>
    rw [adapter, fsm]
    exact ⟨rfl, rfl, rfl, Or.inr (started (true && sofLane0 col.d col.c) (sofLane4 col.d col.c))⟩
  | stLane4 =>
    rw [adapter, fsm]
    refine ⟨rfl, rfl, rfl, Or.inr ?_⟩
    change (if col.c = 0x00#8 then RxFsm.dLane4 else .idle) ≠ .sres
    split <;> rintro ⟨⟩

/-- Every clock edge keeps the pipeline orderly, with or without reset. -/
theorem Orderly.step (orderly : s.Orderly) (aresetn : Bool) (col : Column) :
    (s.step aresetn col).Orderly := by
  -- The flag can become clear only in `IDLE`, where nothing is on the way any more.
  cases aresetn with
  | false => exact fun free => ⟨(orderly free).1, Or.inl rfl⟩
  | true =>
    intro free
    change (s.adapter col).inboundFrame = false at free
    change (s.adapter col).tvalidD0 = false ∧
      ((s.adapter col).fsm = .sres ∨ (s.adapter col).fsm = .idle)
    by_cases idle : s.fsm = .idle
    · -- Without a start the adapter stays there.
      have noStart : ¬ col.Starts := by
        rw [adapter, idle] at free
        change (sofLane0 col.d col.c || sofLane4 col.d col.c) = false at free
        rw [Bool.or_eq_false_iff] at free
        rintro (zero | four)
        · rw [free.1] at zero
          cases zero
        · rw [free.2] at four
          cases four
      rw [adapter_idle idle noStart]
      exact ⟨rfl, Or.inr rfl⟩
    · -- The flag has been clear before, so this is the first cycle behind a reset.
      by_cases reset : s.fsm = .sres
      · rw [adapter_sres reset] at free ⊢
        exact ⟨(orderly free).1, Or.inr rfl⟩
      · rw [(adapter_kept reset idle col).2.2.1] at free
        rcases (orderly free).2 with other | other
        · exact absurd other reset
        · exact absurd other idle

/-- The pipeline is empty, and no frame is on the way. -/
structure Still (s : Xgmii2Axis) : Prop where
  fsm : s.fsm = .idle
  none : s.tvalidI = false
  empty : s.tvalidD0 = false

/-- Then nothing is left to be delivered. -/
theorem Still.nothing (still : s.Still) : s.heldWords = [] ∧ s.flush = [] := by
  -- Neither a word is held nor does the state keep one back.
  constructor
  · rw [heldWords, still.none, if_neg Bool.false_ne_true]
  · rw [flush, still.fsm, if_neg (by decide)]

/-- Between frames two idle columns empty the pipeline. -/
theorem drained {front : List AxisWord} (tracks : Tracks front s .hunting) :
    (s.after [Column.idle, Column.idle]).Still := by
  -- The first one passes on a last word that waits, and neither starts a frame.
  have noStart : ¬ Column.idle.Starts := by decide
  have passed : (s.step true Column.idle).fsm = .idle ∧
      (s.step true Column.idle).tvalidD0 = false := by
    change (s.adapter Column.idle).fsm = _ ∧ (s.adapter Column.idle).tvalidD0 = _
    obtain ⟨-, ⟨idle, -⟩ | ⟨last, -⟩⟩ := tracks
    · rw [adapter_idle idle noStart]
      exact ⟨rfl, rfl⟩
    · rw [adapter, last]
      exact ⟨rfl, rfl⟩
  have next := adapter_idle passed.1 noStart
  refine ⟨?_, ?_, ?_⟩
  · exact congrArg Xgmii2Axis.fsm next
  · exact (congrArg tvalidI next).trans passed.2
  · exact congrArg tvalidD0 next

/-- Runs one after the other are one run. -/
theorem after_append (cols later : List Column) :
    s.after (cols ++ later) = (s.after cols).after later := by
  rw [after, List.foldl_append]
  rfl

/-- What a run delivers is what its parts deliver. -/
theorem delivered_append (port : Port) (cols later : List Column) :
    delivered port s (cols ++ later) = delivered port s cols ++ delivered port (s.after cols) later := by
  -- Column by column.
  induction cols generalizing s with
  | nil => rfl
  | cons col cols ih =>
    rw [List.cons_append, delivered, ih, delivered, List.append_assoc]
    rfl

/-- Behind a reset the words of the good frames are delivered. -/
theorem good_groups_delivered (orderly : s.Orderly) {resets : List Column} (some : resets ≠ [])
    (first second : Column) (noStart : ¬ second.Starts) (cols : List Column) (port : Port)
    (noRunt : ∀ f ∈ carried .hunting (cols ++ List.replicate 3 Column.idle), ¬ f.Runt) :
    ∃ words, delivered port (s.resetBy resets)
        (first :: second :: cols ++ List.replicate 3 Column.idle) = s.leftover ++ words ∧
      (groupsFrom (·.tlast) [] words).filterMap goodRows =
        (goodPayloads (cols ++ List.replicate 3 Column.idle)).map (frameRows 0) ∧
      openAfter (·.tlast) [] words = [] ∧
      (Whole .hunting (cols ++ List.replicate 3 Column.idle) →
        (groupsFrom (·.tlast) [] words).length ≤
          (carried .hunting (cols ++ List.replicate 3 Column.idle)).length) ∧
      ((s.resetBy resets).after (first :: second :: cols ++ List.replicate 3 Column.idle)).Still := by
  obtain ⟨tracks, synced, held, waits, nothing⟩ :=
    resetBy_hunts orderly some first second noStart
  set t := (s.resetBy resets).after [first, second] with start
  -- The start is found behind two columns, with the leftover delivered.
  have parts : cols ++ List.replicate 3 Column.idle =
      (cols ++ [Column.idle]) ++ [Column.idle, Column.idle] := by
    rw [List.append_assoc]
    rfl
  -- The first of the three idle columns leaves the adapter between frames.
  have earlier : ∀ f ∈ carried .hunting (cols ++ [Column.idle]), ¬ f.Runt := by
    intro f member
    rw [parts, carried_append] at noRunt
    exact noRunt f (List.mem_append_left _ member)
  obtain ⟨_, -, between, -, -⟩ := delivered_run tracks synced port _ earlier
  have ended : understood .hunting (cols ++ [Column.idle]) = .hunting :=
    (understood_idle .hunting cols 0).1
  rw [ended] at between
  -- So the other two empty the pipeline, and everything has been delivered.
  obtain ⟨words, same, final, good, few⟩ := delivered_run tracks synced port _ noRunt
  have still := drained between
  obtain ⟨noneHeld, noneWaits⟩ := still.nothing
  rw [(understood_idle .hunting cols 2).1] at final
  have all : first :: second :: cols ++ List.replicate 3 Column.idle =
      [first, second] ++ ((cols ++ [Column.idle]) ++ [Column.idle, Column.idle]) := by
    rw [← parts]
    rfl
  refine ⟨words, ?_, good, final.1, few, ?_⟩
  · rw [parts, after_append, noneHeld, noneWaits, List.append_nil, List.append_nil, held, waits,
      List.append_nil] at same
    rw [all, delivered_append, nothing, List.nil_append, ← start, same]
  · rw [all, after_append, after_append]
    exact still

/-- After a reset the good frames of the stream are delivered, in order and on both outputs.

The stream may hold anything between and in the frames. Only the word of a frame that the reset has
cut off comes in front. The beats are those that the generator writes for the payloads. -/
theorem good_frames_delivered (orderly : s.Orderly) {resets : List Column} (some : resets ≠ [])
    (first second : Column) (noStart : ¬ second.Starts) (cols : List Column) (port : Port)
    (noRunt : ∀ f ∈ carried .hunting (cols ++ List.replicate 3 Column.idle), ¬ f.Runt) :
    ∃ words, delivered port (s.resetBy resets)
        (first :: second :: cols ++ List.replicate 3 Column.idle) = s.leftover ++ words ∧
      goodBeats words = genFrames (goodPayloads (cols ++ List.replicate 3 Column.idle)) := by
  -- The beats of the groups, one after the other, are those of the frames.
  obtain ⟨words, same, good, -⟩ :=
    good_groups_delivered orderly some first second noStart cols port noRunt
  exact ⟨words, same, goodBeats_eq good⟩

/-- The registers when the device starts: `fsm` has its initial value, the others may hold anything. -/
def powerUp : Xgmii2Axis where
  goodFrames := 0
  badFrames := 0
  zy := .silent
  lv := .silent
  synch := false
  fsm := .sres
  tdataI := 0
  tkeepI := 0
  lastTkeepI := 0
  tvalidI := false
  tlastI := false
  tuserI := false
  tdataD0 := 0
  tvalidD0 := false
  dReg := 0
  inboundFrame := false
  auxDw := 0
  chkTchar := false
  crc32 := 0
  crc32_7B := 0
  crc32_6B := 0
  crc32_5B := 0
  crc32_4B := 0
  rcvedCrc := 0
  calctedCrc := 0

/-- A frame from lane 0 with the right check sequence, and one from lane 4 with a wrong one. -/
def sampleColumns : List Column :=
  [⟨preambleLane0D, preambleLane0C⟩, ⟨0x0807060504030201, 0⟩, ⟨0x925FC6550C0B0A09, 0⟩,
    ⟨0x07070707070707FD, 0xFF⟩, ⟨preambleLane4D, preambleLane4C⟩, ⟨0x04030201D5555555, 0⟩,
    ⟨0x070707FD04030201, 0xF0⟩]

/-- The bytes of the first of the two frames. -/
def samplePayload : List Byte :=
  [1, 2, 3, 4, 5, 6, 7, 8, 9, 10, 11, 12]

/-- Of the two frames the good one is delivered. -/
theorem good_frames_delivered_sample :
    goodBeats (delivered .lv (powerUp.resetBy [Column.idle]) (Column.idle :: Column.idle ::
      sampleColumns ++ List.replicate 3 Column.idle)) = genFrames [samplePayload] := by
  obtain ⟨words, same, good⟩ := good_frames_delivered (s := powerUp) (fun _ => ⟨rfl, Or.inl rfl⟩)
    (List.cons_ne_nil Column.idle []) Column.idle Column.idle (by decide) sampleColumns .lv
    (by decide +kernel)
  have payloads : goodPayloads (sampleColumns ++ List.replicate 3 Column.idle) = [samplePayload] := by
    decide +kernel
  -- Nothing was left over by the reset.
  rw [payloads] at good
  exact (congrArg goodBeats same).trans good

/-- What the last word on the first output adds to a counter, once it is counted. -/
def tally (p : AxisWord → Bool) (w : AxisWord) : BitVec 32 :=
  if w.tvalid && w.tlast && p w then 1 else 0

end Xgmii2Axis

end MarketData.Xgmii
