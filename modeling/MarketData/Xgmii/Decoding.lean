import MarketData.Xgmii.ReceiverLaws

/-! `xgmii2axis` delivers the frames that the stream carries, whatever else is on the wire. -/

namespace MarketData.Xgmii

/-- The frame from lane 0 behind at least one of its columns. -/
structure ZeroData (received : List Byte) (front : List AxisWord) (s : Xgmii2Axis) : Prop where
  full : ∀ w ∈ front, w.Full
  valid : s.tvalidD0 = true
  column : s.dReg = s.tdataD0
  bytes : received = wordBytes front ++ bytesLE 8 s.dReg
  sums : ∀ k, 4 ≤ k → k ≤ 8 →
    s.partialCrc k = crcBytes crcPreset (wordBytes front ++ (bytesLE 8 s.dReg).take k)

/-- The frame from lane 4 behind at least one column and the end of its preamble. -/
structure FourData (received : List Byte) (front : List AxisWord) (s : Xgmii2Axis) : Prop where
  full : ∀ w ∈ front, w.Full
  valid : s.tvalidD0 = true
  column : bytesLE 8 s.dReg = (bytesLE 8 s.tdataD0).drop 4 ++ bytesLE 4 s.auxDw
  half : s.dReg.extractLsb' 32 32 = s.auxDw
  bytes : received = wordBytes front ++ bytesLE 8 s.tdataD0 ++ bytesLE 4 s.auxDw
  sums : ∀ k, 4 ≤ k → k ≤ 8 → s.partialCrc k =
    crcBytes crcPreset (wordBytes front ++ (bytesLE 8 s.tdataD0).take 4 ++ (bytesLE 8 s.dReg).take k)

/-- The registers hold what has been understood; `front` is what was delivered of an open frame. -/
def Tracks (front : List AxisWord) (s : Xgmii2Axis) : Phase → Prop
  | .hunting => front = [] ∧
      (s.fsm = .idle ∧ s.tvalidD0 = false ∨ s.fsm = .finL4 ∧ s.tvalidD0 = true)
  | .settling => front = [] ∧ s.fsm = .fin ∧ s.tvalidD0 = true
  | .preamble => front = [] ∧ s.fsm = .stLane4 ∧ s.tvalidD0 = false ∧ s.crc32 = crcPreset
  | .data .zero received => s.fsm = .stLane0 ∧ s.crc32 = crcBytes crcPreset received ∧
      (front = [] ∧ received = [] ∧ s.tvalidD0 = false ∨ ZeroData received front s)
  | .data .four received => s.fsm = .dLane4 ∧ s.crc32 = crcBytes crcPreset received ∧
      s.tlastI = false ∧ s.tuserI = false ∧
      (front = [] ∧ received = bytesLE 4 s.auxDw ∧ s.tvalidD0 = false ∨ FourData received front s)

/-- After a column the registers hold what is understood then, and good frames were delivered.

No other frame was delivered, unless one has broken off. -/
def Follows (p : Phase) (front : List AxisWord) (s : Xgmii2Axis) (col : Column) : Prop :=
  ∃ new, s.flush ++ new = (s.adapter col).heldWords ++ (s.adapter col).flush ∧
    Tracks (openAfter (·.tlast) front new) (s.adapter col) (p.next col).1 ∧
    (groupsFrom (·.tlast) front new).filterMap goodRows =
      ((p.next col).2.toList.filterMap WireFrame.checked).map (frameRows 0) ∧
    (p.Breaks col ∨ (groupsFrom (·.tlast) front new).length ≤ (p.next col).2.toList.length)

variable {front : List AxisWord} {s : Xgmii2Axis} {received : List Byte} {col : Column}

open Xgmii2Axis

/-- The words that the adapter adds, and where the column leaves it. -/
theorem Follows.of_step {p q : Phase} {f : Option WireFrame} {t : Xgmii2Axis}
    (step : s.adapter col = t) (next : p.next col = (q, f)) (new : List AxisWord)
    (words : s.flush ++ new = t.heldWords ++ t.flush)
    (tracks : Tracks (openAfter (·.tlast) front new) t q)
    (good : (groupsFrom (·.tlast) front new).filterMap goodRows =
      (f.toList.filterMap WireFrame.checked).map (frameRows 0))
    (few : p.Breaks col ∨ (groupsFrom (·.tlast) front new).length ≤ f.toList.length) :
    Follows p front s col := by
  -- The parts are stated of the next state and of the next phase.
  refine ⟨new, ?_, ?_, ?_, ?_⟩
  · rw [step]
    exact words
  · rw [step, next]
    exact tracks
  · rw [next]
    exact good
  · rw [next]
    exact few

/-- Between frames a column starts a frame or not; a last word that waits is delivered. -/
theorem Tracks.hunting_next (tracks : Tracks front s .hunting) (col : Column) :
    Follows .hunting front s col := by
  -- Either nothing is in the pipeline, or exactly the word that `flush` gives.
  obtain ⟨rfl, ⟨fsm, empty⟩ | ⟨fsm, valid⟩⟩ := tracks
  -- With an empty pipeline only the start of a frame matters.
  -- The word that waits is delivered, whether a frame starts or not.
  · refine ⟨[], ?_, ?_, rfl, Or.inr (Nat.zero_le _)⟩
    · cases zero : sofLane0 col.d col.c <;> cases four : sofLane4 col.d col.c <;>
        simp [flush, heldWords, adapter, fsm, counted, empty, zero, four]
    · cases zero : sofLane0 col.d col.c <;> cases four : sofLane4 col.d col.c <;>
        simp [Phase.next, adapter, fsm, Tracks, openAfter, zero, four]
  · refine ⟨[], ?_, ?_, rfl, Or.inr (Nat.zero_le _)⟩
    · cases zero : sofLane0 col.d col.c <;> cases four : sofLane4 col.d col.c <;>
        simp [flush, heldWords, held, adapter, fsm, finStep, counted, valid, zero, four]
    · cases zero : sofLane0 col.d col.c <;> cases four : sofLane4 col.d col.c <;>
        simp [Phase.next, adapter, fsm, finStep, Tracks, openAfter, zero, four]

/-- Behind a late end the last word of the frame is delivered. -/
theorem Tracks.settling_next (tracks : Tracks front s .settling) (col : Column) :
    Follows .settling front s col := by
  -- The adapter looks for a start in lane 4 only, and so does the phase.
  obtain ⟨rfl, fsm, valid⟩ := tracks
  refine ⟨[], ?_, ?_, rfl, Or.inr (Nat.zero_le _)⟩
  · cases four : sofLane4 col.d col.c <;>
      simp [flush, heldWords, held, adapter, fsm, finStep, counted, valid, four]
  · cases four : sofLane4 col.d col.c <;>
      simp [Phase.next, adapter, fsm, finStep, Tracks, openAfter, four]

/-- The second column of a frame from lane 4 has four bytes behind the preamble. -/
theorem Tracks.preamble_next (tracks : Tracks front s .preamble) (col : Column) :
    Follows .preamble front s col := by
  -- The half that is held back and the checksum over it are begun together.
  obtain ⟨rfl, fsm, empty, preset⟩ := tracks
  refine ⟨[], ?_, ?_, rfl, Or.inr (Nat.zero_le _)⟩
  · by_cases data : col.c = 0#8 <;>
      simp [flush, heldWords, adapter, fsm, counted, empty, data]
  · by_cases data : col.c = 0#8 <;>
      simp [Phase.next, adapter, fsm, counted, Tracks, openAfter, empty, data, preset, crc4B_eq]

/-- The last word of a frame closes its group, which is delivered as good if the frame is. -/
theorem delivered_closed {held : List AxisWord} (full : ∀ w ∈ front ++ held, w.Full) {w : AxisWord}
    {k : Nat} (some : 0 < k) (small : k ≤ 8) (keep : w.tkeep = (1#8 <<< k) - 1#8)
    (last : w.tlast = true) (lane : Lane) (rcved : BitVec 32) (tchar : Bool)
    (behind : received = wordBytes (front ++ held) ++ (bytesLE 8 w.tdata).take k ++ bytesLE 4 rcved)
    (user : w.tuser =
      accepts rcved (crcBytes crcPreset (wordBytes (front ++ held) ++ (bytesLE 8 w.tdata).take k))
        tchar) :
    openAfter (·.tlast) front (held ++ [w]) = [] ∧
      (groupsFrom (·.tlast) front (held ++ [w])).filterMap goodRows =
        ([WireFrame.mk lane received tchar].filterMap WireFrame.checked).map (frameRows 0) ∧
      (groupsFrom (·.tlast) front (held ++ [w])).length ≤ 1 := by
  -- The words in front are full, so the last word is the first that can close the group.
  have inner : ∀ v ∈ held, v.tlast = false :=
    fun v member => (full v (List.mem_append_right front member)).2
  obtain ⟨groups, rest⟩ := groupsFrom_closed inner last front
  have good := goodRows_closed full some small keep last lane rcved tchar behind user
  refine ⟨rest, ?_, ?_⟩
  · rw [groups, List.filterMap_cons, good, List.filterMap_cons]
    -- The verdict on the group is the one on the frame.
    cases (WireFrame.mk lane received tchar).checked <;> rfl
  · rw [groups]
    exact Nat.le_refl 1

/-- A frame that breaks off is not delivered as good. -/
theorem delivered_broken {held : List AxisWord} (inner : ∀ w ∈ held, w.tlast = false) {w : AxisWord}
    (last : w.tlast = true) (bad : w.tuser = false) :
    openAfter (·.tlast) front (held ++ [w]) = [] ∧
      (groupsFrom (·.tlast) front (held ++ [w])).filterMap goodRows = [] := by
  -- The group is closed by a word whose verdict is bad.
  obtain ⟨groups, rest⟩ := groupsFrom_closed inner last front
  refine ⟨rest, ?_⟩
  rw [groups, List.filterMap_cons, goodRows, List.getLast?_concat]
  simp [bad]

/-- What was held back of a frame from lane 0 is a full word when a column comes. -/
theorem Tracks.zero_held (tracks : Tracks front s (.data .zero received)) (d : BitVec 64) :
    (∀ w ∈ front ++ (s.lane0Word d).heldWords, w.Full) ∧
      received = wordBytes (front ++ (s.lane0Word d).heldWords) := by
  -- Either the frame has just started, or exactly one word is held back.
  obtain ⟨-, -, ⟨rfl, rfl, empty⟩ | behind⟩ := tracks
  · simp [heldWords, lane0Word, summed, counted, empty, wordBytes]
  · -- The word is the last column.
    have word : (s.lane0Word d).heldWords = [(s.lane0Word d).held] := by
      simp [heldWords, lane0Word, summed, counted, behind.valid]
    rw [word]
    constructor
    · intro w member
      rcases List.mem_append.mp member with earlier | last
      · exact behind.full w earlier
      · rw [List.mem_singleton.mp last]
        exact ⟨rfl, rfl⟩
    · rw [wordBytes_snoc, behind.bytes, behind.column]
      rfl

/-- A frame from lane 0 that ends in one of the first five lanes. -/
theorem Tracks.zero_early (tracks : Tracks front s (.data .zero received)) {r : Nat}
    (ends : endLane col.c = some r) (early : r ≤ 4) :
    Follows (.data .zero received) front s col := by
  -- All of the check sequence that is in this column is in its first four bytes, so the word before
  -- ends the frame.
  obtain ⟨small, control⟩ := endLane_some ends
  obtain ⟨rcved, check, word⟩ := stLane0Step_early (s := s) early control
  obtain ⟨fsm, -, begun⟩ := tracks
  have step : s.adapter col = s.stLane0Step col := by
    rw [adapter, fsm]
  have still : s.flush = [] := by simp [flush, fsm]
  have next := Phase.next_ends ends .zero received
  have settled : Lane.zero.behind r = .hunting := by
    rw [Lane.behind, if_neg (by omega)]
  rw [settled] at next
  rcases begun with ⟨rfl, rfl, empty⟩ | behind
  · -- No word was held back, and what came is no frame.
    refine Follows.of_step (step.trans word) next [] ?_ ⟨rfl, Or.inl ⟨rfl, rfl⟩⟩ ?_
      (Or.inr (Nat.zero_le 1))
    · rw [still]
      simp [heldWords, flush, ended, lane0Word, summed, counted, empty]
    · have short : ((bytesLE 8 col.d).take r).length ≤ 4 := by
        rw [List.length_take, length_bytesLE]
        omega
      rw [List.nil_append, Option.toList_some, List.filterMap_cons, WireFrame.checked_short short]
      rfl
  · -- The word that was held back is the last one.
    have before : (bytesLE 8 s.dReg).take (4 + r) ++ (bytesLE 8 s.dReg).drop (4 + r) =
        bytesLE 8 s.dReg := List.take_append_drop _ _
    have verdict := @delivered_closed front (received ++ (bytesLE 8 col.d).take r) []
      (by simpa using behind.full) ⟨s.tdataD0, (1#8 <<< (4 + r)) - 1#8, true, true,
        accepts rcved (s.partialCrc (4 + r)) (isTchar (byteLE col.d r))⟩ (4 + r)
      (by omega) (by omega) rfl rfl .zero rcved (isTchar (byteLE col.d r)) ?_ ?_
    -- One group is delivered, whose verdict is that on the frame.
    · refine Follows.of_step (step.trans word) next _ ?_ ?_ verdict.2.1 (Or.inr verdict.2.2)
      · rw [still]
        simp [heldWords, flush, held, ended, lane0Word, summed, counted, behind.valid]
      · rw [verdict.1]
        exact ⟨rfl, Or.inl ⟨rfl, rfl⟩⟩
    -- What was received is the words and the rest of the column that is held.
    · rw [List.append_nil, behind.bytes, check, ← behind.column]
      simp only [List.append_assoc]
      rw [← List.append_assoc ((bytesLE 8 s.dReg).take (4 + r)), before]
    -- The checksum over so many lanes was kept with the column.
    · rw [List.append_nil, ← behind.column, behind.sums (4 + r) (by omega) (by omega)]

/-- A frame from lane 0 that ends in a later lane. -/
theorem Tracks.zero_late (tracks : Tracks front s (.data .zero received)) {r : Nat}
    (ends : endLane col.c = some r) (late : 5 ≤ r) :
    Follows (.data .zero received) front s col := by
  -- The word before is full, and this column has the last bytes.
  obtain ⟨full, whole⟩ := tracks.zero_held col.d
  obtain ⟨small, control⟩ := endLane_some ends
  obtain ⟨rcved, check, word⟩ := stLane0Step_late (s := s) late small control
  obtain ⟨fsm, sum, -⟩ := tracks
  have step : s.adapter col = s.stLane0Step col := by
    rw [adapter, fsm]
  have still : s.flush = [] := by simp [flush, fsm]
  have next := Phase.next_ends ends .zero received
  have settled : Lane.zero.behind r = .settling := by
    rw [Lane.behind, if_pos late]
  rw [settled] at next
  -- The column is the last word, and four of its bytes are the check sequence.
  have split : (bytesLE 8 col.d).take r =
      (bytesLE 8 col.d).take (r - 4) ++ ((bytesLE 8 col.d).drop (r - 4)).take 4 := by
    rw [← List.take_add, show r - 4 + 4 = r by omega]
  have verdict := @delivered_closed front (received ++ (bytesLE 8 col.d).take r)
    (s.lane0Word col.d).heldWords full ⟨col.d, (1#8 <<< (r - 4)) - 1#8, true, true,
      accepts rcved (crcBytes s.crc32 ((bytesLE 8 col.d).take (r - 4)))
        (isTchar (byteLE col.d r))⟩ (r - 4)
    (by omega) (by omega) rfl rfl .zero rcved (isTchar (byteLE col.d r)) ?_ ?_
  · refine Follows.of_step (step.trans word) next _ ?_ ?_ verdict.2.1 (Or.inr verdict.2.2)
    · rw [still]
      rfl
    · rw [verdict.1]
      exact ⟨rfl, rfl, rfl⟩
  -- The end of what was received is the check sequence.
  · rw [split, check, ← whole, List.append_assoc]
  · rw [sum, ← whole, crcBytes_append]

/-- A column of a frame from lane 0. -/
theorem Tracks.zero_next (tracks : Tracks front s (.data .zero received)) (col : Column) :
    Follows (.data .zero received) front s col := by
  -- A column is data, ends the frame, or breaks it off.
  obtain ⟨full, whole⟩ := tracks.zero_held col.d
  by_cases data : col.c = 0#8
  · -- The column is held back, and what was held back before it is a full word.
    obtain ⟨fsm, sum, -⟩ := tracks
    have step : s.adapter col = s.stLane0Step col := by
      rw [adapter, fsm]
    have word : s.stLane0Step col = s.lane0Word col.d := by simp [stLane0Step, data]
    have still : s.flush = [] := by simp [flush, fsm]
    have wordFsm : (s.lane0Word col.d).fsm = .stLane0 := fsm
    have stillNext : (s.lane0Word col.d).flush = [] := by
      rw [flush, wordFsm, if_neg (by decide)]
    have inner : ∀ w ∈ (s.lane0Word col.d).heldWords, w.tlast = false :=
      fun w member => (full w (List.mem_append_right front member)).2
    obtain ⟨groups, rest⟩ := openAfter_of_inner inner front
    refine Follows.of_step (step.trans word) (Phase.next_data data .zero received)
      (s.lane0Word col.d).heldWords ?_ ?_ ?_ (Or.inr (by rw [groups]; exact Nat.le_refl 0))
    · rw [still, stillNext, List.nil_append, List.append_nil]
    · rw [rest]
      -- The checksums go on over the column that is held back now.
      refine ⟨wordFsm, ?_, Or.inr ⟨full, rfl, rfl, ?_, ?_⟩⟩
      · rw [crcBytes_append, ← sum, ← crc8B_eq]
        rfl
      · rw [whole]
        rfl
      · intro k least most
        rw [crcBytes_append, ← whole, ← sum]
        exact partialCrc_summed s col.d _ least most
    · rw [groups]
      rfl
  · cases ends : endLane col.c with
    | none =>
      -- The frame breaks off with the word that was held back, or with a stale one.
      obtain ⟨fsm, -, -⟩ := tracks
      have step : s.adapter col = s.stLane0Step col := by
        rw [adapter, fsm]
      have word := (step_broken (s := s) data ends).1
      have still : s.flush = [] := by simp [flush, fsm]
      have verdict := @delivered_broken front [] (by rintro w ⟨⟩) (broken (s.lane0Word col.d)).held rfl rfl
      refine Follows.of_step (step.trans word) (Phase.next_breaks data ends .zero received) _ ?_ ?_
        verdict.2 (Or.inl ⟨data, ends⟩)
      · rw [still]
        rfl
      · rw [verdict.1]
        exact ⟨rfl, Or.inl ⟨rfl, rfl⟩⟩
    | some r =>
      by_cases early : r ≤ 4
      · exact tracks.zero_early ends early
      · exact tracks.zero_late ends (by omega)

/-- What was held back of a frame from lane 4 is a full word when a column comes. -/
theorem Tracks.four_held (tracks : Tracks front s (.data .four received)) (d : BitVec 64) :
    (∀ w ∈ front ++ (s.lane4Word d).heldWords, w.Full) ∧
      received = wordBytes (front ++ (s.lane4Word d).heldWords) ++ bytesLE 4 s.auxDw := by
  -- As from lane 0, and half a column waits behind the word.
  obtain ⟨-, -, notLast, -, ⟨rfl, rfl, empty⟩ | behind⟩ := tracks
  · simp [heldWords, lane4Word, summed, counted, empty, wordBytes]
  · have word : (s.lane4Word d).heldWords = [(s.lane4Word d).held] := by
      simp [heldWords, lane4Word, summed, counted, behind.valid]
    rw [word]
    constructor
    · intro w member
      rcases List.mem_append.mp member with earlier | last
      · exact behind.full w earlier
      · rw [List.mem_singleton.mp last]
        exact ⟨rfl, notLast⟩
    · rw [wordBytes_snoc, behind.bytes]
      rfl

/-- A frame from lane 4 that ends in lane 0. -/
theorem Tracks.four_first (tracks : Tracks front s (.data .four received))
    (ends : endLane col.c = some 0) : Follows (.data .four received) front s col := by
  -- The end in lane 0 leaves no byte of the frame in this column.
  obtain ⟨-, control⟩ := endLane_some ends
  have word : s.dLane4Step col = _ := dLane4Step_first control
  obtain ⟨fsm, -, notLast, notGood, begun⟩ := tracks
  have step : s.adapter col = s.dLane4Step col := by
    rw [adapter, fsm]
  have still : s.flush = [] := by simp [flush, fsm]
  have next := Phase.next_ends ends .four received
  have settled : Lane.four.behind 0 = .hunting := rfl
  rw [settled, List.take_zero, List.append_nil] at next
  rcases begun with ⟨rfl, rfl, empty⟩ | behind
  · -- No word was held back, and what came is no frame.
    refine Follows.of_step (step.trans word) next [] ?_ ⟨rfl, Or.inl ⟨rfl, rfl⟩⟩ ?_
      (Or.inr (Nat.zero_le 1))
    · rw [still]
      simp [heldWords, flush, ended, lane4Word, summed, counted, empty]
    · have short : (bytesLE 4 s.auxDw).length ≤ 4 := Nat.le_of_eq (length_bytesLE 4 s.auxDw)
      rw [Option.toList_some, List.filterMap_cons, WireFrame.checked_short short]
      rfl
  · -- The word that was held back is the last one, and the whole check sequence is behind it.
    have eight : (bytesLE 8 s.tdataD0).take 8 = bytesLE 8 s.tdataD0 :=
      List.take_of_length_le (Nat.le_of_eq (length_bytesLE 8 s.tdataD0))
    -- The column before has the end of the word and the check sequence.
    have four : (bytesLE 8 s.dReg).take 4 = (bytesLE 8 s.tdataD0).drop 4 := by
      rw [behind.column]
      rfl
    have verdict := @delivered_closed front received [] (by simpa using behind.full)
      ⟨s.tdataD0, 0xFF#8, true, true,
        accepts (s.dReg.extractLsb' 32 32) (s.partialCrc 4) (isTchar (byteLE col.d 0))⟩ 8
      (by omega) (by omega) rfl rfl .four (s.dReg.extractLsb' 32 32) (isTchar (byteLE col.d 0)) ?_ ?_
    · refine Follows.of_step (step.trans word) next _ ?_ ?_ verdict.2.1 (Or.inr verdict.2.2)
      · rw [still]
        simp [heldWords, flush, held, ended, lane4Word, summed, counted, behind.valid, notGood]
      · rw [verdict.1]
        exact ⟨rfl, Or.inl ⟨rfl, rfl⟩⟩
    · rw [List.append_nil, behind.bytes, behind.half, eight]
    -- The checksum was kept over its first half.
    · rw [List.append_nil, eight, behind.sums 4 (by omega) (by omega), four, List.append_assoc,
        List.take_append_drop]

/-- The word that is put together from two columns starts with the half of the earlier one. -/
theorem bytesLE_halves (aux : BitVec 32) (d : BitVec 64) :
    bytesLE 8 (d.extractLsb' 0 32 ++ aux) = bytesLE 4 aux ++ (bytesLE 8 d).take 4 := by
  rw [bytesLE_append 4 4 rfl, bytesLE_low (by decide) rfl]

/-- A frame from lane 4 that ends in lanes 1 to 3 and is no runt. -/
theorem Tracks.four_early (tracks : Tracks front s (.data .four received)) {r : Nat}
    (ends : endLane col.c = some r) (some : 1 ≤ r) (early : r ≤ 3) (long : received.length ≠ 4) :
    Follows (.data .four received) front s col := by
  -- The half that waits and this column give a last word with as many bytes as the end is lanes
  -- away.
  obtain ⟨full, whole⟩ := tracks.four_held col.d
  obtain ⟨small, control⟩ := endLane_some ends
  obtain ⟨rcved, check, word⟩ := dLane4Step_early (s := s) some early control
  obtain ⟨fsm, -, notLast, notGood, begun⟩ := tracks
  have step : s.adapter col = s.dLane4Step col := by
    rw [adapter, fsm]
  have still : s.flush = [] := by simp [flush, fsm]
  have next := Phase.next_ends ends .four received
  have settled : Lane.four.behind r = .hunting := by
    rw [Lane.behind, if_neg (by omega)]
  rw [settled] at next
  rcases begun with ⟨-, rfl, -⟩ | behind
  · -- With nothing held back the frame would be a runt.
    exact absurd (length_bytesLE 4 s.auxDw) long
  -- What was delivered and what was received agree up to the half that waits.
  · have same : wordBytes (front ++ (s.lane4Word col.d).heldWords) =
        wordBytes front ++ bytesLE 8 s.tdataD0 :=
      List.append_cancel_right (whole.symm.trans behind.bytes)
    -- The kept bytes are the first ones of that half, the check sequence is behind them.
    have kept : (bytesLE 8 (col.d.extractLsb' 0 32 ++ s.auxDw)).take r =
        (bytesLE 4 s.auxDw).take r := by
      rw [bytesLE_halves, List.take_append_of_le_length]
      rw [length_bytesLE]
      omega
    have verdict := @delivered_closed front (received ++ (bytesLE 8 col.d).take r)
      (s.lane4Word col.d).heldWords full
      ⟨col.d.extractLsb' 0 32 ++ s.auxDw, (1#8 <<< r) - 1#8, true, true,
        accepts rcved (s.partialCrc (4 + r)) (isTchar (byteLE col.d r))⟩ r
      (by omega) (by omega) rfl rfl .four rcved (isTchar (byteLE col.d r)) ?_ ?_
    · refine Follows.of_step (step.trans word) next _ ?_ ?_ verdict.2.1 (Or.inr verdict.2.2)
      · rw [still]
        simp [heldWords, flush, held, postponed, lane4Word, summed, counted, notGood]
      · rw [verdict.1]
        exact ⟨rfl, Or.inr ⟨rfl, rfl⟩⟩
    · rw [kept, whole, check]
      simp only [List.append_assoc]
      rw [← List.append_assoc ((bytesLE 4 s.auxDw).take r), List.take_append_drop]
    -- The checksum is the one over so many lanes of the column before.
    · have upTo : (bytesLE 8 s.tdataD0).take 4 ++ (bytesLE 8 s.dReg).take (4 + r) =
          bytesLE 8 s.tdataD0 ++ (bytesLE 4 s.auxDw).take r := by
        have half : ((bytesLE 8 s.tdataD0).drop 4).length = 4 := rfl
        have all : ((bytesLE 8 s.tdataD0).drop 4).take (4 + r) = (bytesLE 8 s.tdataD0).drop 4 :=
          List.take_of_length_le (by omega)
        rw [behind.column, List.take_append, all, half, Nat.add_sub_cancel_left,
          ← List.append_assoc, List.take_append_drop]
      rw [kept, same, behind.sums (4 + r) (by omega) (by omega), List.append_assoc, upTo,
        List.append_assoc]

/-- A frame from lane 4 that ends in a later lane. -/
theorem Tracks.four_late (tracks : Tracks front s (.data .four received)) {r : Nat}
    (ends : endLane col.c = some r) (late : 4 ≤ r) :
    Follows (.data .four received) front s col := by
  -- The half that waits is part of the last word, with up to four bytes of this column.
  obtain ⟨full, whole⟩ := tracks.four_held col.d
  obtain ⟨small, control⟩ := endLane_some ends
  obtain ⟨rcved, check, word⟩ := dLane4Step_late (s := s) late small control
  obtain ⟨fsm, sum, notLast, notGood, -⟩ := tracks
  have step : s.adapter col = s.dLane4Step col := by
    rw [adapter, fsm]
  have still : s.flush = [] := by simp [flush, fsm]
  have next := Phase.next_ends ends .four received
  have settled : Lane.four.behind r = .settling := by
    rw [Lane.behind, if_pos late]
  rw [settled] at next
  -- The last word is put together from the column before and the bytes that are kept of this one.
  have split : (bytesLE 8 col.d).take r =
      (bytesLE 8 col.d).take (r - 4) ++ ((bytesLE 8 col.d).drop (r - 4)).take 4 := by
    rw [← List.take_add, show r - 4 + 4 = r by omega]
  have kept : (bytesLE 8 (col.d.extractLsb' 0 32 ++ s.auxDw)).take r =
      bytesLE 4 s.auxDw ++ (bytesLE 8 col.d).take (r - 4) := by
    rw [bytesLE_halves, List.take_append, length_bytesLE, List.take_of_length_le, List.take_take,
      Nat.min_eq_left (by omega)]
    rw [length_bytesLE]
    exact late
  have verdict := @delivered_closed front (received ++ (bytesLE 8 col.d).take r)
    (s.lane4Word col.d).heldWords full
    ⟨col.d.extractLsb' 0 32 ++ s.auxDw, (1#8 <<< r) - 1#8, true, true,
      accepts rcved (crcBytes s.crc32 ((bytesLE 8 col.d).take (r - 4)))
        (isTchar (byteLE col.d r))⟩ r
    (by omega) (by omega) rfl rfl .four rcved (isTchar (byteLE col.d r)) ?_ ?_
  · refine Follows.of_step (step.trans word) next _ ?_ ?_ verdict.2.1 (Or.inr verdict.2.2)
    · rw [still]
      simp [heldWords, flush, held, postponed, lane4Word, summed, counted, notGood]
    · rw [verdict.1]
      exact ⟨rfl, rfl, rfl⟩
  · rw [split, check, kept, whole]
    simp only [List.append_assoc]
  · rw [kept, sum, whole, ← crcBytes_append, List.append_assoc]

/-- A column of a frame from lane 4 that is no runt. -/
theorem Tracks.four_next (tracks : Tracks front s (.data .four received)) (col : Column)
    (noRunt : ∀ f ∈ (Phase.next (.data .four received) col).2, ¬ f.Runt) :
    Follows (.data .four received) front s col := by
  -- A column is data, ends the frame, or breaks it off.
  obtain ⟨full, whole⟩ := tracks.four_held col.d
  by_cases data : col.c = 0#8
  · -- Half of the column waits for the next one.
    obtain ⟨fsm, sum, notLast, notGood, -⟩ := tracks
    have step : s.adapter col = s.dLane4Step col := by
      rw [adapter, fsm]
    have word : s.dLane4Step col = s.lane4Word col.d := by simp [dLane4Step, data]
    have still : s.flush = [] := by simp [flush, fsm]
    have wordFsm : (s.lane4Word col.d).fsm = .dLane4 := fsm
    have stillNext : (s.lane4Word col.d).flush = [] := by
      rw [flush, wordFsm, if_neg (by decide)]
    have inner : ∀ w ∈ (s.lane4Word col.d).heldWords, w.tlast = false :=
      fun w member => (full w (List.mem_append_right front member)).2
    obtain ⟨groups, rest⟩ := openAfter_of_inner inner front
    -- The word held back has the half that waited in front, and the other half waits now.
    have low : (bytesLE 8 (s.lane4Word col.d).tdataD0).take 4 = bytesLE 4 s.auxDw := by
      rw [lane4Word, summed, bytesLE_halves]
      rfl
    have high : bytesLE 8 col.d =
        (bytesLE 8 (s.lane4Word col.d).tdataD0).drop 4 ++ bytesLE 4 (s.lane4Word col.d).auxDw := by
      rw [lane4Word, summed, bytesLE_halves, bytesLE_extract 8 4 4 rfl rfl (by decide)]
      rfl
    refine Follows.of_step (step.trans word) (Phase.next_data data .four received)
      (s.lane4Word col.d).heldWords ?_ ?_ ?_ (Or.inr (by rw [groups]; exact Nat.le_refl 0))
    · rw [still, stillNext, List.nil_append, List.append_nil]
    · rw [rest]
      refine ⟨wordFsm, ?_, notLast, notGood, Or.inr ⟨full, rfl, high, rfl, ?_, ?_⟩⟩
      · rw [crcBytes_append, ← sum, ← crc8B_eq]
        rfl
      · rw [whole, high, ← low]
        simp only [List.append_assoc]
        rw [← List.append_assoc ((bytesLE 8 (s.lane4Word col.d).tdataD0).take 4),
          List.take_append_drop]
      · intro k least most
        rw [low, ← whole, crcBytes_append, ← sum]
        exact partialCrc_summed s col.d _ least most
    · rw [groups]
      rfl
  · cases ends : endLane col.c with
    | none =>
      -- The frame breaks off with the word that was held back, or with a stale one.
      obtain ⟨fsm, -, -, notGood, -⟩ := tracks
      have step : s.adapter col = s.dLane4Step col := by
        rw [adapter, fsm]
      have word := (step_broken (s := s) data ends).2
      have still : s.flush = [] := by simp [flush, fsm]
      have verdict := @delivered_broken front [] (by rintro w ⟨⟩) (broken (s.lane4Word col.d)).held rfl notGood
      refine Follows.of_step (step.trans word) (Phase.next_breaks data ends .four received) _ ?_ ?_
        verdict.2 (Or.inl ⟨data, ends⟩)
      · rw [still]
        rfl
      · rw [verdict.1]
        exact ⟨rfl, Or.inl ⟨rfl, rfl⟩⟩
    | some r =>
      -- Only an end in lanes 1 to 3 right behind the start would be a runt.
      rw [Phase.next_ends ends] at noRunt
      have long := noRunt _ rfl
      rcases Nat.eq_zero_or_pos r with rfl | some
      · exact tracks.four_first ends
      · by_cases early : r ≤ 3
        · refine tracks.four_early ends some early fun four => long ⟨rfl, ?_⟩
          rw [List.length_append, List.length_take, length_bytesLE, four]
          omega
        · exact tracks.four_late ends (by omega)

/-- Every column is followed, unless it ends a runt. -/
theorem Tracks.next {p : Phase} (tracks : Tracks front s p) (col : Column)
    (noRunt : ∀ f ∈ (p.next col).2, ¬ f.Runt) : Follows p front s col := by
  -- Phase by phase; the lane matters only inside a frame.
  cases p with
  | hunting => exact tracks.hunting_next col
  | settling => exact tracks.settling_next col
  | preamble => exact tracks.preamble_next col
  | data lane received =>
    cases lane with
    | zero => exact tracks.zero_next col
    | four => exact tracks.four_next col noRunt

/-- The outputs are no part of what has been understood. -/
theorem Tracks.step {p : Phase} (tracks : Tracks front (s.adapter col) p) :
    Tracks front (s.step true col) p := by
  -- Each phase speaks of the registers of the pipeline alone.
  cases p with
  | hunting => exact tracks
  | settling => exact tracks
  | preamble => exact tracks
  | data lane received =>
    cases lane with
    | zero =>
      obtain ⟨fsm, sum, begun⟩ := tracks
      refine ⟨fsm, sum, begun.imp_right fun behind => ?_⟩
      exact ⟨behind.full, behind.valid, behind.column, behind.bytes, behind.sums⟩
    | four =>
      obtain ⟨fsm, sum, notLast, notGood, begun⟩ := tracks
      refine ⟨fsm, sum, notLast, notGood, begun.imp_right fun behind => ?_⟩
      exact ⟨behind.full, behind.valid, behind.column, behind.half, behind.bytes, behind.sums⟩

end MarketData.Xgmii
