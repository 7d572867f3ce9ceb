import MarketData.Xgmii.ReceiverLaws
import MarketData.Xgmii.Transmitter

/-! What `axis2xgmii` sends is the frames that it takes from the stream. -/

namespace MarketData.Xgmii

/-- The states in which the transmitter takes words from the stream. -/
def TxFsm.ready : TxFsm → Bool
  | .idleL0 | .stLane0 | .dwIdle | .stLane4 | .stLane4D => true
  | _ => false

/-- The states that send the end of a frame in lane `r`, behind a part of its check sequence. -/
def TxFsm.Tail (fsm : TxFsm) (r : Nat) : Prop :=
  fsm = .tLane3 ∧ r = 3 ∨ fsm = .tLane2 ∧ r = 2 ∨ fsm = .tLane1 ∧ r = 1

/-- The states behind a frame that has ended with `k` bytes and its check sequence in one column. -/
def TxFsm.Behind (fsm : TxFsm) (k : Nat) : Prop :=
  fsm = .tLane7 ∧ k = 3 ∨ fsm = .tLane6 ∧ k = 2 ∨ fsm = .tLane5 ∧ k = 1

/-- Of the first three lanes the highest one that is kept is the `k`-th. -/
def Highest (tkeep : BitVec 8) (k : Nat) : Prop :=
  tkeep.getLsbD (k - 1) = true ∧ ∀ j < 3, k ≤ j → tkeep.getLsbD j = false

/-- The bytes that the words of a frame keep. -/
def keptBytes (ws : List AxisWord) : List Byte :=
  ws.flatMap AxisWord.bytes

/-- A word that continues a frame, or ends one behind at least two others. -/
def AxisWord.Proper (front : List AxisWord) (i : AxisWord) : Prop :=
  i.tuser = false ∧
    if i.tlast then 2 ≤ front.length ∧ ∃ k, k < 8 ∧ i.tkeep = (1#8 <<< (k + 1)) - 1#8
    else i.tkeep = 0xFF#8

instance (front : List AxisWord) (i : AxisWord) : Decidable (i.Proper front) :=
  inferInstanceAs (Decidable (_ ∧ _))

/-- Full words and another one. -/
theorem full_snoc {front : List AxisWord} (full : ∀ w ∈ front, w.Full) {i : AxisWord} (next : i.Full) :
    ∀ w ∈ front ++ [i], w.Full := by
  -- The words before are full already, and the new one is named.
  intro w member
  rcases List.mem_append.mp member with earlier | last
  · exact full w earlier
  · rw [List.mem_singleton.mp last]
    exact next

/-- Full words keep all their bytes, and the last one keeps its first. -/
theorem keptBytes_last {front : List AxisWord} (full : ∀ w ∈ front, w.Full) {i : AxisWord} {k : Nat}
    (small : k ≤ 8) (keep : i.tkeep = (1#8 <<< k) - 1#8) :
    keptBytes (front ++ [i]) = wordBytes front ++ (bytesLE 8 i.tdata).take k := by
  -- A full word keeps all eight bytes, so the front keeps whole words.
  have whole : keptBytes front = wordBytes front := by
    refine List.flatMap_congr fun w member => ?_
    rw [w.bytes_lowKeep (Nat.le_refl 8) ((full w member).1), List.take_of_length_le]
    exact Nat.le_of_eq (length_bytesLE 8 w.tdata)
  have last := i.bytes_lowKeep small keep
  rw [keptBytes, List.flatMap_append, ← keptBytes, whole, List.flatMap_cons, List.flatMap_nil,
    List.append_nil, last]

/-- The words of a frame have eight bytes each. -/
theorem length_wordBytes (ws : List AxisWord) : (wordBytes ws).length = 8 * ws.length := by
  -- Each word contributes its eight little-endian bytes.
  have words : wordBytes ws = (ws.map AxisWord.tdata).flatMap (bytesLE 8) := by
    rw [List.flatMap_map]
    rfl
  rw [words, length_flatMap_bytesLE, List.length_map]

/-- The first words of a frame are full ones. -/
theorem AxisWord.Proper.first {front : List AxisWord} {i : AxisWord} (proper : i.Proper front)
    (few : front.length < 2) : i.Full := by
  -- A last word has at least two others in front of it.
  obtain ⟨-, keep⟩ := proper
  cases last : i.tlast with
  | false =>
    rw [last, if_neg Bool.false_ne_true] at keep
    exact ⟨keep, last⟩
  | true =>
    rw [last, if_pos rfl] at keep
    omega

namespace Axis2Xgmii

/-- The source offers proper words, and inside a frame it has one whenever one is asked for. -/
def Conforms : List AxisWord → Axis2Xgmii → List AxisWord → Prop
  | _, _, [] => True
  | front, s, i :: is =>
    (s.tready = true → (front ≠ [] → i.tvalid = true) ∧ (i.tvalid = true → i.Proper front)) ∧
      Conforms (openAfter (·.tlast) front (s.taken i)) (s.step false i) is

/-- Whether a source conforms is decided word by word. -/
def decidableConforms :
    (front : List AxisWord) → (s : Axis2Xgmii) → (is : List AxisWord) → Decidable (Conforms front s is)
  | _, _, [] => .isTrue trivial
  | front, s, i :: is =>
    have := decidableConforms (openAfter (·.tlast) front (s.taken i)) (s.step false i) is
    inferInstanceAs (Decidable (_ ∧ _))

instance (front : List AxisWord) (s : Axis2Xgmii) (is : List AxisWord) :
    Decidable (Conforms front s is) :=
  decidableConforms front s is

/-- The register of the checksum over the first `k` lanes of the last word. -/
def sumOf (s : Axis2Xgmii) (k : Nat) : BitVec 32 :=
  if k = 1 then s.crc32_1B else if k = 2 then s.crc32_2B else if k = 3 then s.crc32_3B
  else if k = 4 then s.crc32_4B else if k = 5 then s.crc32_5B else if k = 6 then s.crc32_6B
  else if k = 7 then s.crc32_7B else s.crc32

/-- How the end of a frame is still to be sent, when `sent` of it has been. -/
def Ending (s : Axis2Xgmii) (sent payload : List Byte) : Prop :=
  match s.fsm with
  | .l0Fin8B => payload = sent ++ bytesLE 8 s.tdataI ∧ s.crc32 = crcBytes crcPreset payload
  | .l0Fin7B6B5B => ∃ k, 5 ≤ k ∧ k ≤ 7 ∧ s.tkeepI = (1#8 <<< k) - 1#8 ∧
      payload = sent ++ (bytesLE 8 s.tdataI).take k ∧ s.sumOf k = crcBytes crcPreset payload
  | .l0Fin4B => payload = sent ++ (bytesLE 8 s.tdataI).take 4 ∧
      s.crc32_4B = crcBytes crcPreset payload
  | .l0Fin3B2B1B => ∃ k, 1 ≤ k ∧ k ≤ 3 ∧ (∀ j < 3, s.tkeepI.getLsbD j = decide (j < k)) ∧
      payload = sent ++ (bytesLE 8 s.tdataI).take k ∧ s.sumOf k = crcBytes crcPreset payload
  | .l4Fin8B => payload = sent ++ bytesLE 4 s.auxDw ++ bytesLE 8 s.tdataI ∧
      s.crc32 = crcBytes crcPreset payload
  | .l4Fin7B6B5B => ∃ k, 5 ≤ k ∧ k ≤ 7 ∧ s.tkeepI = (1#8 <<< k) - 1#8 ∧
      payload = sent ++ bytesLE 4 s.auxDw ++ (bytesLE 8 s.tdataI).take k ∧
      s.sumOf k = crcBytes crcPreset payload
  | .l4Fin4B => payload = sent ++ bytesLE 4 s.auxDw ++ (bytesLE 8 s.tdataI).take 4 ∧
      s.crc32_4B = crcBytes crcPreset payload
  | .l4Fin3B2B1B => ∃ k, 1 ≤ k ∧ k ≤ 3 ∧ (∀ j < 3, s.tkeepI.getLsbD j = decide (j < k)) ∧
      payload = sent ++ bytesLE 4 s.auxDw ++ (bytesLE 8 s.tdataI).take k ∧
      s.sumOf k = crcBytes crcPreset payload
  | .tLane4 => sent = payload ∧ s.calctedCrc4B = fcs payload
  | .tLane3 => sent = payload ++ (bytesLE 4 (fcs payload)).take (4 - 3) ∧ s.crcReg = fcs payload
  | .tLane2 => sent = payload ++ (bytesLE 4 (fcs payload)).take (4 - 2) ∧ s.crcReg = fcs payload
  | .tLane1 => sent = payload ++ (bytesLE 4 (fcs payload)).take (4 - 1) ∧ s.crcReg = fcs payload
  | .tLane0 => sent = payload ++ bytesLE 4 (fcs payload)
  | _ => False

/-- The registers hold what is not yet sent of the words taken.

`front` is what was taken of an open frame, `due` a whole frame whose end is still to be sent. -/
def Sends (front : List AxisWord) (due : Option (List Byte)) (s : Axis2Xgmii) (p : Phase) : Prop :=
  match s.fsm with
  | .sres => front = [] ∧ due = none ∧ p = .hunting ∧ s.column = Column.idle
  | .idleL0 | .dwIdle => front = [] ∧ due = none ∧ p = .hunting
  | .qwIdle | .tLane7 | .tLane6 | .tLane5 =>
    front = [] ∧ due = none ∧ (p = .hunting ∨ p = .settling)
  | .stLane0 => front ≠ [] ∧ due = none ∧ (∀ w ∈ front, w.Full) ∧
      s.crc32 = crcBytes crcPreset (wordBytes front) ∧
      ∃ sent, p = .data .zero sent ∧ wordBytes front = sent ++ bytesLE 8 s.tdataI
  | .stLane4 => front.length = 1 ∧ due = none ∧ (∀ w ∈ front, w.Full) ∧
      s.crc32 = crcBytes crcPreset (wordBytes front) ∧
      p = .preamble ∧ wordBytes front = bytesLE 8 s.tdataI
  | .stLane4D => front ≠ [] ∧ due = none ∧ (∀ w ∈ front, w.Full) ∧
      s.crc32 = crcBytes crcPreset (wordBytes front) ∧
      ∃ sent, p = .data .four sent ∧
        wordBytes front = sent ++ bytesLE 4 s.auxDw ++ bytesLE 8 s.tdataI
  | _ => front = [] ∧ ∃ payload lane sent, due = some payload ∧ 4 ≤ payload.length ∧
      p = .data lane sent ∧ s.Ending sent payload

/-- After a clock edge the registers hold what is not yet sent then, and good frames were sent. -/
def Advances (front : List AxisWord) (due : Option (List Byte)) (s : Axis2Xgmii) (p : Phase)
    (i : AxisWord) : Prop :=
  ∃ due', Sends (openAfter (·.tlast) front (s.taken i)) due' (s.step false i)
      (p.next (s.step false i).column).1 ∧
    (p.next (s.step false i).column).2.toList.map WireFrame.checked ++ due'.toList.map some =
      due.toList.map some ++
        ((groupsFrom (·.tlast) front (s.taken i)).map keptBytes).map some ∧
    ∀ f ∈ (p.next (s.step false i).column).2, ¬ f.Runt

variable {front : List AxisWord} {due : Option (List Byte)} {s : Axis2Xgmii} {p : Phase}
  {i : AxisWord}

/-- Whatever the last keep is, the frame is finished without taking words. -/
theorem finish_not_ready (tkeep : BitVec 8) :
    (finish tkeep .l0Fin8B .l0Fin7B6B5B .l0Fin4B .l0Fin3B2B1B).ready = false ∧
      (finish tkeep .l4Fin8B .l4Fin7B6B5B .l4Fin4B .l4Fin3B2B1B).ready = false := by
  -- The keep is looked at in three lanes only.
  unfold finish
  cases tkeep.getLsbD 7 <;> cases tkeep.getLsbD 4 <;> cases tkeep.getLsbD 3 <;> exact ⟨rfl, rfl⟩

/-- The ready flag is on exactly in the states that take words. -/
theorem tready_kept (flag : s.tready = s.fsm.ready) (rst : Bool) (i : AxisWord) :
    (s.step rst i).tready = (s.step rst i).fsm.ready := by
  -- State by state: a branch either writes the flag along with its next state or leaves both.
  cases rst with
  | true => rfl
  | false =>
    change (s.adapter i).tready = (s.adapter i).fsm.ready
    cases fsm : s.fsm <;> rw [fsm] at flag <;> simp only [adapter, fsm]
    case idleL0 =>
      rw [idleL0Step]
      split
      · exact flag
      · exact flag.trans (congrArg TxFsm.ready fsm).symm
    case stLane0 =>
      rw [stLane0Step]
      split
      · rfl
      · split
        · exact (congrArg TxFsm.ready fsm).symm
        · exact (finish_not_ready i.tkeep).1.symm
    -- The ends of a frame go on between states that are all busy.
    case l0Fin7B6B5B =>
      rw [l0Fin7B6B5BStep]
      split <;> [skip; split <;> [skip; split]]
      · exact flag
      · exact flag
      · exact flag
      · exact flag.trans (congrArg TxFsm.ready fsm).symm
    case l0Fin3B2B1B =>
      rw [l0Fin3B2B1BStep]
      split <;> [skip; split <;> [skip; split]]
      · exact flag
      · exact flag
      · exact flag
      · exact flag.trans (congrArg TxFsm.ready fsm).symm
    case l4Fin3B2B1B =>
      rw [l4Fin3B2B1BStep]
      split <;> [skip; split <;> [skip; split]]
      · exact flag
      · exact flag
      · exact flag
      · exact flag.trans (congrArg TxFsm.ready fsm).symm
    case dwIdle =>
      rw [dwIdleStep]
      split
      · exact flag
      · exact flag
    case stLane4 =>
      rw [stLane4Step]
      split
      · rfl
      · exact flag
    -- Behind a last word the flag is off, and whatever its keep is the next state is busy.
    case stLane4D =>
      rw [stLane4DStep]
      split
      · rfl
      · split
        · exact (congrArg TxFsm.ready fsm).symm
        · exact (finish_not_ready i.tkeep).2.symm
    case tLane3 | tLane2 | tLane1 =>
      split
      · rfl
      · exact flag
    case tLane7 | tLane6 | tLane5 =>
      split
      · rfl
      · rfl
    case tLane0 | sres | qwIdle => rfl
    all_goals exact flag

/-- Outside the states that take words nothing is taken. -/
theorem taken_none (flag : s.tready = s.fsm.ready) (busy : s.fsm.ready = false) (i : AxisWord) :
    s.taken i = [] := by
  -- A word is taken only while the flag is on.
  rw [taken, flag, busy]
  rfl

/-- A step that takes nothing and ends no frame. -/
theorem Advances.silent {t : Axis2Xgmii} {q : Phase} (step : s.adapter i = t) (taken : s.taken i = [])
    (next : p.next t.column = (q, none)) (sends : Sends front due t q) :
    Advances front due s p i := by
  -- The open frame, the one that is due and the frames sent stay as they are.
  have edge : s.step false i = t := step
  refine ⟨due, ?_, ?_, ?_⟩
  · rw [edge, taken, next]
    exact sends
  · rw [edge, taken, next]
    exact (List.append_nil _).symm
  · rw [edge, next]
    rintro f ⟨⟩

/-- A step that takes a word in the middle of a frame and ends none. -/
theorem Advances.more {t : Axis2Xgmii} {q : Phase} (step : s.adapter i = t) (taken : s.taken i = [i])
    (inner : i.tlast = false) (next : p.next t.column = (q, none))
    (sends : Sends (front ++ [i]) due t q) : Advances front due s p i := by
  -- A word that is not the last one is put behind the open frame.
  have edge : s.step false i = t := step
  obtain ⟨groups, rest⟩ := @openAfter_of_inner _ (·.tlast) [i] (by simpa using inner) front
  refine ⟨due, ?_, ?_, ?_⟩
  · rw [edge, taken, next, rest]
    exact sends
  · rw [edge, taken, next, groups]
    exact (List.append_nil _).symm
  · rw [edge, next]
    rintro f ⟨⟩

/-- A step that takes the last word of a frame and ends none. -/
theorem Advances.last {t : Axis2Xgmii} {q : Phase} (step : s.adapter i = t) (taken : s.taken i = [i])
    (last : i.tlast = true) (next : p.next t.column = (q, none))
    (sends : Sends [] (some (keptBytes (front ++ [i]))) t q) : Advances front none s p i := by
  -- The frame that was open is closed by its last word, and is now due.
  have edge : s.step false i = t := step
  have closed := @groupsFrom_closed _ (·.tlast) [] (fun x member => absurd member List.not_mem_nil) i last front
  rw [List.nil_append, List.append_nil] at closed
  refine ⟨some (keptBytes (front ++ [i])), ?_, ?_, ?_⟩
  · rw [edge, taken, next, closed.2]
    exact sends
  · rw [edge, taken, next, closed.1]
    rfl
  · rw [edge, next]
    rintro f ⟨⟩

/-- A column that ends a frame with the rest of its check sequence. -/
theorem Advances.ends {t : Axis2Xgmii} {payload sent : List Byte} (lo rest : List Byte) {lane : Lane}
    (step : s.adapter i = t) (taken : s.taken i = [])
    (bytes : bytesLE 8 t.d = lo ++ T :: rest) (control : t.c = 0xFF#8 <<< lo.length)
    (long : 4 ≤ payload.length) (whole : sent ++ lo = payload ++ bytesLE 4 (fcs payload))
    (sends : Sends front none t (lane.behind lo.length)) :
    Advances front (some payload) s (.data lane sent) i := by
  have edge : s.step false i = t := step
  have small : lo.length < 8 := by
    have size := length_bytesLE 8 t.d
    rw [bytes, List.length_append, List.length_cons] at size
    omega
  -- The frame is what was sent before, and the rest of the check sequence.
  have behind : (bytesLE 8 t.d).take lo.length = lo := by
    rw [bytes, List.take_left]
  have terminated : isTchar (byteLE t.d lo.length) = true := by
    have lane : (bytesLE 8 t.d)[lo.length]? = some T := by
      rw [bytes, List.getElem?_append_right (Nat.le_refl _), Nat.sub_self, List.getElem?_cons_zero]
    rw [bytesLE, List.getElem?_map, List.getElem?_range small, Option.map_some,
      Option.some.injEq] at lane
    rw [lane]
    rfl
  have next := @Phase.next_ends t.column _ (endLane_lanes small control) lane sent
  have column : t.column.d = t.d := rfl
  rw [column, behind, terminated, whole] at next
  have nonempty : payload ≠ [] := List.ne_nil_of_length_pos (by omega)
  have good : (WireFrame.mk lane (payload ++ bytesLE 4 (fcs payload)) true).checked =
      some payload := by
    rw [checked_accepts lane nonempty, Xgmii2Axis.accepts, ← fcs]
    simp
  refine ⟨none, ?_, ?_, ?_⟩
  · rw [edge, taken, next]
    exact sends
  · rw [edge, taken, next]
    change [WireFrame.checked _] ++ [] = _
    rw [good]
    rfl
  · rw [edge, next]
    rintro f ⟨⟩ ⟨-, -, short⟩
    rw [List.length_append, length_bytesLE] at short
    omega

/-- An idle column is sent between frames. -/
theorem Advances.idle {t : Axis2Xgmii} (step : s.adapter i = t) (taken : s.taken i = [])
    (between : p = .hunting ∨ p = .settling) (column : t.column = Column.idle)
    (sends : Sends front due t .hunting) : Advances front due s p i := by
  -- An idle column neither starts a frame nor ends one, in both phases between frames.
  refine Advances.silent step taken ?_ sends
  rw [column]
  rcases between with rfl | rfl
  · rfl
  · rfl

/-- Behind the reset and between frames. -/
theorem Sends.rests (flag : s.tready = s.fsm.ready) (sends : Sends front due s p)
    (fsm : s.fsm = .qwIdle ∨ s.fsm = .tLane7 ∨ s.fsm = .tLane6 ∨ s.fsm = .tLane5) (i : AxisWord) :
    Advances front due s p i := by
  -- These states send idle columns, whatever the source offers.
  have between : front = [] ∧ due = none ∧ (p = .hunting ∨ p = .settling) := by
    rcases fsm with fsm | fsm | fsm | fsm <;> rw [Sends, fsm] at sends <;> exact sends
  obtain ⟨rfl, rfl, quiet⟩ := between
  have taken : s.taken i = [] := by
    refine taken_none flag ?_ i
    rcases fsm with fsm | fsm | fsm | fsm <;> rw [fsm] <;> rfl
  -- The deficit only decides which state is next.
  refine Advances.idle rfl taken quiet ?_ ?_
  · rcases fsm with fsm | fsm | fsm | fsm <;> simp only [adapter, fsm] <;> [skip; split; split; split]
      <;> rfl
  · rcases fsm with fsm | fsm | fsm | fsm <;> simp only [adapter, fsm] <;> [skip; split; split; split]
      <;> exact ⟨rfl, rfl, rfl⟩

/-- The end of a frame in lane 4. -/
theorem Sends.tLane4 (flag : s.tready = s.fsm.ready) (sends : Sends front due s p)
    (fsm : s.fsm = .tLane4) (i : AxisWord) : Advances front due s p i := by
  -- Behind the checksum stand the end of the frame and three idle lanes.
  rw [Sends, fsm] at sends
  obtain ⟨rfl, payload, lane, sent, rfl, long, rfl, ending⟩ := sends
  rw [Ending, fsm] at ending
  obtain ⟨rfl, sum⟩ := ending
  have taken := taken_none flag (by rw [fsm]; rfl) i
  have step : s.adapter i =
      { s with d := I.replicate 3 ++ T ++ s.calctedCrc4B, c := 0xF0, fsm := .qwIdle } := by
    rw [adapter, fsm]
  refine Advances.ends (bytesLE 4 s.calctedCrc4B) (bytesLE 3 (I.replicate 3)) step taken ?_
    (by rw [length_bytesLE]; rfl) long ?_ ?_
  · rw [bytesLE_append 4 4 rfl, bytesLE_append 1 3 rfl]
    rfl
  · rw [sum]
  · refine ⟨rfl, rfl, ?_⟩
    -- A frame from either lane is over before the next column.
    cases lane
    · exact Or.inl rfl
    · exact Or.inr rfl

/-- The rest of the check sequence is sent, and the end of the frame behind it. -/
theorem tail_column {r : Nat} (fsm : s.fsm.Tail r) (i : AxisWord) :
    bytesLE 8 (s.adapter i).d =
        (bytesLE 4 s.crcReg).drop (4 - r) ++ T :: List.replicate (7 - r) I ∧
      (s.adapter i).c = 0xFF#8 <<< r ∧
      ((s.adapter i).fsm = .dwIdle ∨ (s.adapter i).fsm = .qwIdle) := by
  -- The deficit says how many idle columns follow, but does not matter for this one.
  rcases fsm with ⟨fsm, rfl⟩ | ⟨fsm, rfl⟩ | ⟨fsm, rfl⟩
  · have sent : (s.adapter i).d = I.replicate 4 ++ T ++ s.crcReg.extractLsb' 8 24 := by
      simp only [adapter, fsm]
      split <;> rfl
    refine ⟨?_, ?_⟩
    · rw [sent, bytesLE_append 3 5 rfl, bytesLE_append 1 4 rfl, bytesLE_extract 4 1 3 rfl rfl
        (by decide)]
      rfl
    · simp only [adapter, fsm]
      split
      · exact ⟨rfl, Or.inl rfl⟩
      · exact ⟨rfl, Or.inr rfl⟩
  · have sent : (s.adapter i).d = I.replicate 5 ++ T ++ s.crcReg.extractLsb' 16 16 := by
      simp only [adapter, fsm]
      split <;> rfl
    refine ⟨?_, ?_⟩
    · rw [sent, bytesLE_append 2 6 rfl, bytesLE_append 1 5 rfl, bytesLE_extract 4 2 2 rfl rfl
        (by decide)]
      rfl
    · simp only [adapter, fsm]
      split
      · exact ⟨rfl, Or.inl rfl⟩
      · exact ⟨rfl, Or.inr rfl⟩
  · have sent : (s.adapter i).d = I.replicate 6 ++ T ++ s.crcReg.extractLsb' 24 8 := by
      simp only [adapter, fsm]
      split <;> rfl
    refine ⟨?_, ?_⟩
    · rw [sent, bytesLE_append 1 7 rfl, bytesLE_append 1 6 rfl, bytesLE_extract 4 3 1 rfl rfl
        (by decide)]
      rfl
    · simp only [adapter, fsm]
      split
      · exact ⟨rfl, Or.inl rfl⟩
      · exact ⟨rfl, Or.inr rfl⟩

/-- What is still to be sent in such a state. -/
theorem Sends.of_tail {t : Axis2Xgmii} {r : Nat} (fsm : t.fsm.Tail r) :
    Sends front due t p ↔
      front = [] ∧ ∃ payload lane, due = some payload ∧ 4 ≤ payload.length ∧
        p = .data lane (payload ++ (bytesLE 4 (fcs payload)).take (4 - r)) ∧
        t.crcReg = fcs payload := by
  -- The three states hold the same register, and differ in how much of it was sent.
  rcases fsm with ⟨fsm, rfl⟩ | ⟨fsm, rfl⟩ | ⟨fsm, rfl⟩ <;>
  · rw [Sends, fsm]
    constructor
    · rintro ⟨none, payload, lane, sent, whole, long, data, ending⟩
      rw [Ending, fsm] at ending
      obtain ⟨rfl, sum⟩ := ending
      exact ⟨none, payload, lane, whole, long, data, sum⟩
    · rintro ⟨none, payload, lane, whole, long, data, sum⟩
      refine ⟨none, payload, lane, _, whole, long, data, ?_⟩
      rw [Ending, fsm]
      exact ⟨rfl, sum⟩

/-- The end of a frame in lane 3, 2 or 1. -/
theorem Sends.tail (flag : s.tready = s.fsm.ready) (sends : Sends front due s p) {r : Nat}
    (fsm : s.fsm.Tail r) (i : AxisWord) : Advances front due s p i := by
  -- The column has the rest of the check sequence, and what was sent before has its front.
  obtain ⟨rfl, payload, lane, rfl, long, rfl, sum⟩ := (Sends.of_tail fsm).mp sends
  obtain ⟨bytes, control, next⟩ := tail_column fsm i
  have busy : s.fsm.ready = false ∧ 1 ≤ r ∧ r ≤ 3 := by
    rcases fsm with ⟨fsm, rfl⟩ | ⟨fsm, rfl⟩ | ⟨fsm, rfl⟩ <;> rw [fsm] <;> decide
  have size : ((bytesLE 4 s.crcReg).drop (4 - r)).length = r := by
    rw [List.length_drop, length_bytesLE]
    omega
  refine Advances.ends _ _ rfl (taken_none flag busy.1 i) bytes (by rw [size]; exact control) long ?_ ?_
  · rw [sum, List.append_assoc, List.take_append_drop]
  -- An end in one of the lower lanes leaves room to look for the next start.
  · have behind : lane.behind r = .hunting := by
      cases lane
      · exact if_neg (by omega)
      · exact if_neg (by omega)
    rw [size, behind]
    rcases next with fsm | fsm
    · rw [Sends, fsm]
      exact ⟨rfl, rfl, rfl⟩
    · rw [Sends, fsm]
      exact ⟨rfl, rfl, Or.inl rfl⟩

/-- The end of a frame in lane 0, behind its whole check sequence. -/
theorem Sends.tLane0 (flag : s.tready = s.fsm.ready) (sends : Sends front due s p)
    (fsm : s.fsm = .tLane0) (i : AxisWord) : Advances front due s p i := by
  -- The check sequence was sent whole, so the column begins with the end of the frame.
  rw [Sends, fsm] at sends
  obtain ⟨rfl, payload, lane, sent, rfl, long, rfl, ending⟩ := sends
  rw [Ending, fsm] at ending
  have taken := taken_none flag (by rw [fsm]; rfl) i
  have step : s.adapter i =
      { s with d := I.replicate 7 ++ T, c := 0xFF, tready := true, fsm := .dwIdle } := by
    rw [adapter, fsm]
  refine Advances.ends [] (bytesLE 7 (I.replicate 7)) step taken ?_ rfl long ?_ ?_
  · rw [bytesLE_append 1 7 rfl]
    rfl
  · rw [List.append_nil, ending]
  · refine ⟨rfl, rfl, ?_⟩
    cases lane
    · rfl
    · rfl

/-- A column of data that ends no frame. -/
theorem Advances.data {t : Axis2Xgmii} {sent : List Byte} {lane : Lane} (step : s.adapter i = t)
    (taken : s.taken i = []) (column : t.c = 0)
    (sends : Sends front due t (.data lane (sent ++ bytesLE 8 t.d))) :
    Advances front due s (.data lane sent) i :=
  Advances.silent step taken (Phase.next_data column lane sent) sends

/-- The last word of a frame from lane 0 with eight bytes. -/
theorem Sends.l0Fin8B (flag : s.tready = s.fsm.ready) (sends : Sends front due s p)
    (fsm : s.fsm = .l0Fin8B) (i : AxisWord) : Advances front due s p i := by
  -- The last word is sent, and the check sequence of the whole payload is latched.
  rw [Sends, fsm] at sends
  obtain ⟨rfl, payload, lane, sent, rfl, long, rfl, ending⟩ := sends
  rw [Ending, fsm] at ending
  obtain ⟨rfl, sum⟩ := ending
  have taken := taken_none flag (by rw [fsm]; rfl) i
  have step : s.adapter i =
      { s with d := s.tdataI, c := 0, calctedCrc4B := ~~~ crcRev s.crc32, fsm := .tLane4 } := by
    rw [adapter, fsm]
  refine Advances.data step taken rfl ⟨rfl, _, lane, _, rfl, long, rfl, rfl, ?_⟩
  rw [fcs, ← sum]

/-- The last word of a frame with four bytes, and the check sequence. -/
theorem Sends.l0Fin4B (flag : s.tready = s.fsm.ready) (sends : Sends front due s p)
    (fsm : s.fsm = .l0Fin4B) (i : AxisWord) : Advances front due s p i := by
  -- Half of the column is payload, the other half is its check sequence.
  rw [Sends, fsm] at sends
  obtain ⟨rfl, payload, lane, sent, rfl, long, rfl, ending⟩ := sends
  rw [Ending, fsm] at ending
  obtain ⟨whole, sum⟩ := ending
  have taken := taken_none flag (by rw [fsm]; rfl) i
  have step : s.adapter i =
      { s with d := ~~~ crcRev s.crc32_4B ++ s.tdataI.extractLsb' 0 32, c := 0, fsm := .tLane0 } := by
    rw [adapter, fsm]
  refine Advances.data step taken rfl ⟨rfl, _, lane, _, rfl, long, rfl, ?_⟩
  rw [Ending, bytesLE_append 4 4 rfl, bytesLE_low (by decide) rfl, sum, ← fcs, ← List.append_assoc,
    ← whole]

/-- The last words of a frame from lane 4 with four bytes at the end. -/
theorem Sends.l4Fin4B (flag : s.tready = s.fsm.ready) (sends : Sends front due s p)
    (fsm : s.fsm = .l4Fin4B) (i : AxisWord) : Advances front due s p i := by
  -- The waiting half and the last four bytes fill the column.
  rw [Sends, fsm] at sends
  obtain ⟨rfl, payload, lane, sent, rfl, long, rfl, ending⟩ := sends
  rw [Ending, fsm] at ending
  obtain ⟨rfl, sum⟩ := ending
  have taken := taken_none flag (by rw [fsm]; rfl) i
  have step : s.adapter i =
      { s with d := s.straddled, c := 0, calctedCrc4B := ~~~ crcRev s.crc32_4B, fsm := .tLane4 } := by
    rw [adapter, fsm]
  refine Advances.data step taken rfl ⟨rfl, _, lane, _, rfl, long, rfl, ?_, ?_⟩
  · rw [straddled, bytesLE_append 4 4 rfl, bytesLE_low (by decide) rfl, List.append_assoc]
  · rw [fcs, ← sum]

/-- The last words of a frame from lane 4 with eight bytes at the end. -/
theorem Sends.l4Fin8B (flag : s.tready = s.fsm.ready) (sends : Sends front due s p)
    (fsm : s.fsm = .l4Fin8B) (i : AxisWord) : Advances front due s p i := by
  -- Twelve bytes are left, of which eight fit into the column.
  rw [Sends, fsm] at sends
  obtain ⟨rfl, payload, lane, sent, rfl, long, rfl, ending⟩ := sends
  rw [Ending, fsm] at ending
  obtain ⟨whole, sum⟩ := ending
  have taken := taken_none flag (by rw [fsm]; rfl) i
  have step : s.adapter i = { s with
      d := s.straddled, c := 0, tdataI := s.tdataI.extractLsb' 32 32 ++ s.tdataI.extractLsb' 32 32,
      crc32_4B := s.crc32, fsm := .l0Fin4B } := by
    rw [adapter, fsm]
  refine Advances.data step taken rfl ⟨rfl, _, lane, _, rfl, long, rfl, ?_, sum⟩
  -- The upper half waits for the next column.
  have half : (bytesLE 8 s.tdataI).drop 4 = ((bytesLE 8 s.tdataI).drop 4).take 4 := rfl
  rw [straddled, bytesLE_append 4 4 rfl, bytesLE_append 4 4 rfl, bytesLE_low (by decide) rfl,
    bytesLE_extract 8 4 4 rfl rfl (by decide), ← half, whole]
  have low : ((bytesLE 8 s.tdataI).drop 4 ++ (bytesLE 8 s.tdataI).drop 4).take 4 =
      (bytesLE 8 s.tdataI).drop 4 := rfl
  simp only [List.append_assoc]
  rw [low, List.take_append_drop]

/-- The lanes of a last word that ends in the upper half. -/
theorem upper_lanes {k : Nat} (least : 5 ≤ k) (most : k ≤ 7)
    (keep : s.tkeepI = (1#8 <<< k) - 1#8) :
    (s.tkeepI.getLsbD 6 = decide (7 ≤ k)) ∧ (s.tkeepI.getLsbD 5 = decide (6 ≤ k)) ∧
      s.tkeepI.getLsbD 4 = true := by
  -- Three lengths are possible, each with its own keep.
  have cases : k = 5 ∨ k = 6 ∨ k = 7 := by omega
  rw [keep]
  rcases cases with rfl | rfl | rfl <;> decide

/-- The last bytes of a frame, and the first bytes of the check sequence. -/
theorem l0Fin7B6B5B_column {k : Nat} (least : 5 ≤ k) (most : k ≤ 7)
    (keep : s.tkeepI = (1#8 <<< k) - 1#8) :
    bytesLE 8 s.l0Fin7B6B5BStep.d =
        (bytesLE 8 s.tdataI).take k ++ (bytesLE 4 (~~~ crcRev (s.sumOf k))).take (8 - k) ∧
      s.l0Fin7B6B5BStep.c = 0 ∧ s.l0Fin7B6B5BStep.crcReg = ~~~ crcRev (s.sumOf k) ∧
      s.l0Fin7B6B5BStep.fsm.Tail (k - 4) := by
  -- The column is filled up with as much of the check sequence as it has room for.
  obtain ⟨six, five, four⟩ := upper_lanes least most keep
  have cases : k = 5 ∨ k = 6 ∨ k = 7 := by omega
  rcases cases with rfl | rfl | rfl
  -- Five bytes of the word, and three of the check sequence.
  -- Six and two.
  -- Seven and one.
  · have step : s.l0Fin7B6B5BStep = { s with
        auxVarCrc := ~~~ crcRev s.crc32_5B
        d := (~~~ crcRev s.crc32_5B).extractLsb' 0 24 ++ s.tdataI.extractLsb' 0 40
        c := 0, crcReg := ~~~ crcRev s.crc32_5B, fsm := .tLane1 } := by
      rw [l0Fin7B6B5BStep, six, five, four]
      rfl
    rw [step]
    refine ⟨?_, rfl, rfl, Or.inr (Or.inr ⟨rfl, rfl⟩)⟩
    rw [bytesLE_append 5 3 rfl, bytesLE_low (by decide) rfl, bytesLE_extract 4 0 3 rfl rfl (by decide)]
    rfl
  · have step : s.l0Fin7B6B5BStep = { s with
        auxVarCrc := ~~~ crcRev s.crc32_6B
        d := (~~~ crcRev s.crc32_6B).extractLsb' 0 16 ++ s.tdataI.extractLsb' 0 48
        c := 0, crcReg := ~~~ crcRev s.crc32_6B, fsm := .tLane2 } := by
      rw [l0Fin7B6B5BStep, six, five]
      rfl
    rw [step]
    refine ⟨?_, rfl, rfl, Or.inr (Or.inl ⟨rfl, rfl⟩)⟩
    rw [bytesLE_append 6 2 rfl, bytesLE_low (by decide) rfl, bytesLE_extract 4 0 2 rfl rfl (by decide)]
    rfl
  · have step : s.l0Fin7B6B5BStep = { s with
        auxVarCrc := ~~~ crcRev s.crc32_7B
        d := (~~~ crcRev s.crc32_7B).extractLsb' 0 8 ++ s.tdataI.extractLsb' 0 56
        c := 0, crcReg := ~~~ crcRev s.crc32_7B, fsm := .tLane3 } := by
      rw [l0Fin7B6B5BStep, six]
      rfl
    rw [step]
    refine ⟨?_, rfl, rfl, Or.inl ⟨rfl, rfl⟩⟩
    rw [bytesLE_append 7 1 rfl, bytesLE_low (by decide) rfl, bytesLE_extract 4 0 1 rfl rfl (by decide)]
    rfl

/-- The last word of a frame from lane 0 with five to seven bytes. -/
theorem Sends.l0Fin7B6B5B (flag : s.tready = s.fsm.ready) (sends : Sends front due s p)
    (fsm : s.fsm = .l0Fin7B6B5B) (i : AxisWord) : Advances front due s p i := by
  -- The column has the end of the payload and begins the check sequence, the rest is still due.
  rw [Sends, fsm] at sends
  obtain ⟨rfl, payload, lane, sent, rfl, long, rfl, ending⟩ := sends
  rw [Ending, fsm] at ending
  obtain ⟨k, least, most, keep, whole, sum⟩ := ending
  have taken := taken_none flag (by rw [fsm]; rfl) i
  have step : s.adapter i = s.l0Fin7B6B5BStep := by
    rw [adapter, fsm]
  obtain ⟨bytes, control, register, tail⟩ := l0Fin7B6B5B_column least most keep
  rw [sum, ← fcs] at bytes register
  refine Advances.data step taken control ((Sends.of_tail tail).mpr ?_)
  refine ⟨rfl, payload, lane, rfl, long, ?_, register⟩
  rw [bytes, ← List.append_assoc, ← whole, show 4 - (k - 4) = 8 - k by omega]

/-- The highest of the first lanes. -/
theorem highest_lanes {k : Nat} (least : 1 ≤ k) (most : k ≤ 3)
    (lanes : ∀ j < 3, s.tkeepI.getLsbD j = decide (j < k)) : Highest s.tkeepI k := by
  -- The lanes that are kept are the first `k`.
  constructor
  · rw [lanes (k - 1) (by omega), decide_eq_true (by omega)]
  · intro j small beyond
    rw [lanes j small, decide_eq_false (by omega)]

/-- The last bytes of a frame from lane 4, and the first bytes of the check sequence. -/
theorem l4Fin3B2B1B_column {k : Nat} (least : 1 ≤ k) (most : k ≤ 3) (highest : Highest s.tkeepI k) :
    bytesLE 8 s.l4Fin3B2B1BStep.d = bytesLE 4 s.auxDw ++ (bytesLE 8 s.tdataI).take k ++
        (bytesLE 4 (~~~ crcRev (s.sumOf k))).take (4 - k) ∧
      s.l4Fin3B2B1BStep.c = 0 ∧ s.l4Fin3B2B1BStep.crcReg = ~~~ crcRev (s.sumOf k) ∧
      s.l4Fin3B2B1BStep.fsm.Tail k := by
  -- Behind the waiting half are the last bytes, and then the check sequence as far as it fits.
  obtain ⟨kept, above⟩ := highest
  have cases : k = 1 ∨ k = 2 ∨ k = 3 := by omega
  rcases cases with rfl | rfl | rfl
  -- One byte of the word, and three of the check sequence.
  -- Two and two.
  -- Three and one.
  · have step : s.l4Fin3B2B1BStep = { s with
        auxVarCrc := ~~~ crcRev s.crc32_1B
        d := (~~~ crcRev s.crc32_1B).extractLsb' 0 24 ++ s.tdataI.extractLsb' 0 8 ++ s.auxDw
        c := 0, crcReg := ~~~ crcRev s.crc32_1B, fsm := .tLane1 } := by
      rw [l4Fin3B2B1BStep, above 2 (by decide) (by decide), above 1 (by decide) (by decide), kept]
      rfl
    rw [step]
    refine ⟨?_, rfl, rfl, Or.inr (Or.inr ⟨rfl, rfl⟩)⟩
    rw [bytesLE_append 4 4 rfl, bytesLE_append 1 3 rfl, bytesLE_low (by decide) rfl,
      bytesLE_extract 4 0 3 rfl rfl (by decide), List.append_assoc]
    rfl
  · have step : s.l4Fin3B2B1BStep = { s with
        auxVarCrc := ~~~ crcRev s.crc32_2B
        d := (~~~ crcRev s.crc32_2B).extractLsb' 0 16 ++ s.tdataI.extractLsb' 0 16 ++ s.auxDw
        c := 0, crcReg := ~~~ crcRev s.crc32_2B, fsm := .tLane2 } := by
      rw [l4Fin3B2B1BStep, above 2 (by decide) (by decide), kept]
      rfl
    rw [step]
    refine ⟨?_, rfl, rfl, Or.inr (Or.inl ⟨rfl, rfl⟩)⟩
    rw [bytesLE_append 4 4 rfl, bytesLE_append 2 2 rfl, bytesLE_low (by decide) rfl,
      bytesLE_extract 4 0 2 rfl rfl (by decide), List.append_assoc]
    rfl
  · have step : s.l4Fin3B2B1BStep = { s with
        auxVarCrc := ~~~ crcRev s.crc32_3B
        d := (~~~ crcRev s.crc32_3B).extractLsb' 0 8 ++ s.tdataI.extractLsb' 0 24 ++ s.auxDw
        c := 0, crcReg := ~~~ crcRev s.crc32_3B, fsm := .tLane3 } := by
      rw [l4Fin3B2B1BStep, kept]
      rfl
    rw [step]
    refine ⟨?_, rfl, rfl, Or.inl ⟨rfl, rfl⟩⟩
    rw [bytesLE_append 4 4 rfl, bytesLE_append 3 1 rfl, bytesLE_low (by decide) rfl,
      bytesLE_extract 4 0 1 rfl rfl (by decide), List.append_assoc]
    rfl

/-- The last words of a frame from lane 4 with one to three bytes at the end. -/
theorem Sends.l4Fin3B2B1B (flag : s.tready = s.fsm.ready) (sends : Sends front due s p)
    (fsm : s.fsm = .l4Fin3B2B1B) (i : AxisWord) : Advances front due s p i := by
  -- As from lane 0, with four bytes more in front.
  rw [Sends, fsm] at sends
  obtain ⟨rfl, payload, lane, sent, rfl, long, rfl, ending⟩ := sends
  rw [Ending, fsm] at ending
  obtain ⟨k, least, most, lanes, whole, sum⟩ := ending
  have taken := taken_none flag (by rw [fsm]; rfl) i
  have step : s.adapter i = s.l4Fin3B2B1BStep := by
    rw [adapter, fsm]
  obtain ⟨bytes, control, register, tail⟩ := l4Fin3B2B1B_column least most (highest_lanes least most lanes)
  rw [sum, ← fcs] at bytes register
  refine Advances.data step taken control ((Sends.of_tail tail).mpr ?_)
  refine ⟨rfl, payload, lane, rfl, long, ?_, register⟩
  rw [bytes, whole]
  simp only [List.append_assoc]

/-- The last words of a frame from lane 4 with five to seven bytes at the end. -/
theorem Sends.l4Fin7B6B5B (flag : s.tready = s.fsm.ready) (sends : Sends front due s p)
    (fsm : s.fsm = .l4Fin7B6B5B) (i : AxisWord) : Advances front due s p i := by
  -- Nine to eleven bytes are left, of which eight fit into the column.
  rw [Sends, fsm] at sends
  obtain ⟨rfl, payload, lane, sent, rfl, long, rfl, ending⟩ := sends
  rw [Ending, fsm] at ending
  obtain ⟨k, least, most, keep, whole, sum⟩ := ending
  have taken := taken_none flag (by rw [fsm]; rfl) i
  have step : s.adapter i = { s with
      d := s.straddled, c := 0, tdataI := s.tdataI.extractLsb' 32 32 ++ s.tdataI.extractLsb' 32 32,
      tkeepI := s.tkeepI.extractLsb' 3 5 ++ s.tkeepI.extractLsb' 4 3,
      crc32_1B := s.crc32_5B, crc32_2B := s.crc32_6B, crc32_3B := s.crc32_7B,
      fsm := .l0Fin3B2B1B } := by
    rw [adapter, fsm]
  have cases : k = 5 ∨ k = 6 ∨ k = 7 := by omega
  -- The upper half of the word waits for the next column.
  refine Advances.data step taken rfl ⟨rfl, payload, lane, _, rfl, long, rfl, k - 4, by omega,
    by omega, ?_, ?_, ?_⟩
  -- The keep is shifted along with the word.
  · intro j small
    change (s.tkeepI.extractLsb' 3 5 ++ s.tkeepI.extractLsb' 4 3).getLsbD j = _
    rw [BitVec.getLsbD_append, if_pos small, BitVec.getLsbD_extractLsb', keep]
    have lanes : j = 0 ∨ j = 1 ∨ j = 2 := by omega
    rcases cases with rfl | rfl | rfl <;> rcases lanes with rfl | rfl | rfl <;> rfl
  -- What was sent and what still waits are the whole payload.
  · have split : (bytesLE 8 s.tdataI).take k =
        (bytesLE 8 s.tdataI).take 4 ++ ((bytesLE 8 s.tdataI).drop 4).take (k - 4) := by
      rw [← List.take_add, show 4 + (k - 4) = k by omega]
    have half : (bytesLE 8 s.tdataI).drop 4 = ((bytesLE 8 s.tdataI).drop 4).take 4 := rfl
    have size : ((bytesLE 8 s.tdataI).drop 4).length = 4 := rfl
    rw [straddled, bytesLE_append 4 4 rfl, bytesLE_append 4 4 rfl, bytesLE_low (by decide) rfl,
      bytesLE_extract 8 4 4 rfl rfl (by decide), ← half, List.take_append_of_le_length (by omega),
      whole, split]
    simp only [List.append_assoc]
  -- So are the checksums, which are chosen by the number of lanes.
  · rcases cases with rfl | rfl | rfl <;> exact sum

/-- The last bytes of a frame, the check sequence, and the end. -/
theorem l0Fin3B2B1B_column {k : Nat} (least : 1 ≤ k) (most : k ≤ 3) (highest : Highest s.tkeepI k) :
    bytesLE 8 s.l0Fin3B2B1BStep.d =
        ((bytesLE 8 s.tdataI).take k ++ bytesLE 4 (~~~ crcRev (s.sumOf k))) ++
          T :: List.replicate (3 - k) I ∧
      s.l0Fin3B2B1BStep.c = 0xFF#8 <<< (k + 4) ∧ s.l0Fin3B2B1BStep.fsm.Behind k := by
  -- One to three bytes leave room for the whole check sequence and the end of the frame.
  obtain ⟨kept, above⟩ := highest
  have cases : k = 1 ∨ k = 2 ∨ k = 3 := by omega
  rcases cases with rfl | rfl | rfl
  -- The end is in lane 5.
  -- In lane 6.
  -- In lane 7.
  · have step : s.l0Fin3B2B1BStep = { s with
        d := I.replicate 2 ++ T ++ ~~~ crcRev s.crc32_1B ++ s.tdataI.extractLsb' 0 8
        c := 0xE0, fsm := .tLane5 } := by
      rw [l0Fin3B2B1BStep, above 2 (by decide) (by decide), above 1 (by decide) (by decide), kept]
      rfl
    rw [step]
    refine ⟨?_, rfl, Or.inr (Or.inr ⟨rfl, rfl⟩)⟩
    rw [bytesLE_append 1 7 rfl, bytesLE_append 4 3 rfl, bytesLE_append 1 2 rfl,
      bytesLE_low (by decide) rfl, List.append_assoc]
    rfl
  · have step : s.l0Fin3B2B1BStep = { s with
        d := I ++ T ++ ~~~ crcRev s.crc32_2B ++ s.tdataI.extractLsb' 0 16
        c := 0xC0, fsm := .tLane6 } := by
      rw [l0Fin3B2B1BStep, above 2 (by decide) (by decide), kept]
      rfl
    rw [step]
    refine ⟨?_, rfl, Or.inr (Or.inl ⟨rfl, rfl⟩)⟩
    rw [bytesLE_append 2 6 rfl, bytesLE_append 4 2 rfl, bytesLE_append 1 1 rfl,
      bytesLE_low (by decide) rfl, List.append_assoc]
    rfl
  · have step : s.l0Fin3B2B1BStep = { s with
        d := T ++ ~~~ crcRev s.crc32_3B ++ s.tdataI.extractLsb' 0 24, c := 0x80, fsm := .tLane7 } := by
      rw [l0Fin3B2B1BStep, kept]
      rfl
    rw [step]
    refine ⟨?_, rfl, Or.inl ⟨rfl, rfl⟩⟩
    rw [bytesLE_append 3 5 rfl, bytesLE_append 4 1 rfl, bytesLE_low (by decide) rfl,
      List.append_assoc]
    rfl

/-- The last column of a frame with one to three bytes more, the check sequence and the end. -/
theorem Sends.l0Fin3B2B1B (flag : s.tready = s.fsm.ready) (sends : Sends front due s p)
    (fsm : s.fsm = .l0Fin3B2B1B) (i : AxisWord) : Advances front due s p i := by
  -- The column ends the frame, with all of the check sequence behind the last bytes.
  rw [Sends, fsm] at sends
  obtain ⟨rfl, payload, lane, sent, rfl, long, rfl, ending⟩ := sends
  rw [Ending, fsm] at ending
  obtain ⟨k, least, most, lanes, whole, sum⟩ := ending
  have taken := taken_none flag (by rw [fsm]; rfl) i
  have step : s.adapter i = s.l0Fin3B2B1BStep := by
    rw [adapter, fsm]
  obtain ⟨bytes, control, next⟩ := l0Fin3B2B1B_column least most (highest_lanes least most lanes)
  rw [sum, ← fcs] at bytes
  have size : ((bytesLE 8 s.tdataI).take k ++ bytesLE 4 (fcs payload)).length = k + 4 := by
    rw [List.length_append, List.length_take, length_bytesLE, length_bytesLE]
    omega
  refine Advances.ends _ _ step taken bytes (by rw [size]; exact control) long ?_ ?_
  · rw [whole]
    simp only [List.append_assoc]
  · -- A start in lane 0 directly behind would not be seen, but an idle column follows.
    have behind : lane.behind (k + 4) = .settling := by
      cases lane
      · rw [Lane.behind, if_pos (by omega)]
      · rw [Lane.behind, if_pos (by omega)]
    rw [size, behind, Sends]
    rcases next with ⟨fsm, -⟩ | ⟨fsm, -⟩ | ⟨fsm, -⟩ <;> rw [fsm] <;> exact ⟨rfl, rfl, Or.inr rfl⟩

/-- The first cycle behind a reset. -/
theorem Sends.sres (flag : s.tready = s.fsm.ready) (sends : Sends front due s p)
    (fsm : s.fsm = .sres) (i : AxisWord) : Advances front due s p i := by
  -- The registers hold an idle column from the reset.
  rw [Sends, fsm] at sends
  obtain ⟨rfl, rfl, rfl, idle⟩ := sends
  have step : s.adapter i = { s with dic := 0, tready := true, fsm := .idleL0 } := by
    rw [adapter, fsm]
  exact Advances.idle step (taken_none flag (by rw [fsm]; rfl) i) (Or.inl rfl) idle ⟨rfl, rfl, rfl⟩

/-- A word that is offered when one is asked for is taken. -/
theorem taken_one (flag : s.tready = s.fsm.ready) (ready : s.fsm.ready = true)
    (valid : i.tvalid = true) : s.taken i = [i] := by
  rw [taken, flag, ready, valid]
  rfl

/-- No word is offered. -/
theorem taken_idle (invalid : i.tvalid = false) : s.taken i = [] := by
  rw [taken, invalid, Bool.and_false]
  rfl

/-- The checksum of the first word. -/
theorem crc_first (i : AxisWord) :
    crc8B crcPreset i.tdata = crcBytes crcPreset (wordBytes [i]) := by
  rw [crc8B_eq, wordBytes, List.flatMap_cons, List.flatMap_nil, List.append_nil]

/-- The preambles that are sent are understood. -/
theorem next_preambles :
    Phase.hunting.next ⟨preambleLane0D, preambleLane0C⟩ = (.data .zero [], none) ∧
      Phase.hunting.next ⟨preambleLane4D, preambleLane4C⟩ = (.preamble, none) := by
  constructor
  · rw [Phase.next, if_pos (by decide)]
  · rw [Phase.next, if_neg (by decide), if_pos (by decide)]

/-- A state between frames. -/
theorem Sends.of_between {t : Axis2Xgmii} (fsm : t.fsm = .idleL0 ∨ t.fsm = .dwIdle) :
    Sends [] none t .hunting := by
  rcases fsm with fsm | fsm <;> rw [Sends, fsm] <;> exact ⟨rfl, rfl, rfl⟩

/-- Between frames a frame starts in lane 0 or an idle column is sent. -/
theorem Sends.idleL0 (flag : s.tready = s.fsm.ready) (sends : Sends front due s p)
    (fsm : s.fsm = .idleL0) (offer : i.tvalid = true → i.Proper front) :
    Advances front due s p i := by
  -- Without a word the column is idle; with one it is a preamble, and the word waits.
  rw [Sends, fsm] at sends
  obtain ⟨rfl, rfl, rfl⟩ := sends
  cases valid : i.tvalid with
  | false =>
    have step : s.adapter i = { s.quiet.loaded i with
        lane4Start := false, dic := if s.dic ≠ 0 then s.dic - 1 else s.dic } := by
      rw [adapter, fsm]
      change s.idleL0Step i = _
      rw [idleL0Step, if_neg (by rw [valid]; decide)]
    exact Advances.idle step (taken_idle valid) (Or.inl rfl) rfl (Sends.of_between (Or.inl fsm))
  | true =>
    -- The first word of a frame is full, so no end can be due yet.
    have full := (offer valid).first (by decide)
    have step : s.adapter i = { s.quiet.loaded i with
        lane4Start := false, crc32 := crc8B crcPreset i.tdata, d := preambleLane0D,
        c := preambleLane0C, fsm := .stLane0 } := by
      rw [adapter, fsm]
      change s.idleL0Step i = _
      rw [idleL0Step, if_pos valid]
    refine Advances.more step (taken_one flag (by rw [fsm]; rfl) valid) full.2
      next_preambles.1 ⟨List.cons_ne_nil i [], rfl, ?_, crc_first i, [], rfl, ?_⟩
    · intro w member
      rw [List.mem_singleton.mp member]
      exact full
    · rw [List.nil_append]
      exact List.append_nil _

/-- Between frames a frame starts in lane 4 or an idle column is sent. -/
theorem Sends.dwIdle (flag : s.tready = s.fsm.ready) (sends : Sends front due s p)
    (fsm : s.fsm = .dwIdle) (offer : i.tvalid = true → i.Proper front) :
    Advances front due s p i := by
  -- As before, but a preamble in lane 4 leaves its second half to the next column.
  rw [Sends, fsm] at sends
  obtain ⟨rfl, rfl, rfl⟩ := sends
  cases valid : i.tvalid with
  | false =>
    have step : s.adapter i = { s.quiet.loaded i with fsm := .idleL0 } := by
      rw [adapter, fsm]
      change s.dwIdleStep i = _
      rw [dwIdleStep, if_neg (by rw [valid]; decide)]
    exact Advances.idle step (taken_idle valid) (Or.inl rfl) rfl (Sends.of_between (Or.inl rfl))
  | true =>
    have full := (offer valid).first (by decide)
    have step : s.adapter i = { s.quiet.loaded i with
        crc32 := crc8B crcPreset i.tdata, d := preambleLane4D, c := preambleLane4C,
        fsm := .stLane4 } := by
      rw [adapter, fsm]
      change s.dwIdleStep i = _
      rw [dwIdleStep, if_pos valid]
    refine Advances.more step (taken_one flag (by rw [fsm]; rfl) valid) full.2 next_preambles.2
      ⟨rfl, rfl, ?_, crc_first i, rfl, ?_⟩
    · intro w member
      rw [List.mem_singleton.mp member]
      exact full
    · exact List.append_nil _

/-- The second word of a frame from lane 4. -/
theorem Sends.stLane4 (flag : s.tready = s.fsm.ready) (sends : Sends front due s p)
    (fsm : s.fsm = .stLane4) (offer : (front ≠ [] → i.tvalid = true) ∧
      (i.tvalid = true → i.Proper front)) : Advances front due s p i := by
  rw [Sends, fsm] at sends
  obtain ⟨single, rfl, full, sum, rfl, whole⟩ := sends
  have valid := offer.1 (List.ne_nil_of_length_pos (by omega))
  have proper := offer.2 valid
  have next := proper.first (by omega)
  have step : s.adapter i = { s.loaded i with
      auxDw := s.tdataI.extractLsb' 32 32, d := s.tdataI.extractLsb' 0 32 ++ preambleLane4EndD,
      c := preambleLane4EndC, crc32 := crc8B s.crc32 i.tdata, lane4Start := true,
      fsm := .stLane4D } := by
    rw [adapter, fsm]
    change s.stLane4Step i = _
    rw [stLane4Step, if_neg (by rw [proper.1]; decide)]
  -- The lower half of the first word is behind the preamble.
  have low : (s.tdataI.extractLsb' 0 32 ++ preambleLane4EndD).extractLsb' 32 32 =
      s.tdataI.extractLsb' 0 32 := by
    rw [BitVec.extractLsb'_append_eq_left]
  have halves : bytesLE 8 s.tdataI =
      bytesLE 4 (s.tdataI.extractLsb' 0 32) ++ bytesLE 4 (s.tdataI.extractLsb' 32 32) := by
    rw [bytesLE_low (by decide) rfl, bytesLE_extract 8 4 4 rfl rfl (by decide)]
    rfl
  have appended := full_snoc full next
  refine Advances.more step (taken_one flag (by rw [fsm]; rfl) valid) next.2
    (q := .data .four (bytesLE 4 (s.tdataI.extractLsb' 0 32))) ?_
    ⟨by simp, rfl, appended, ?_, _, rfl, ?_⟩
  · change (Phase.data .four (bytesLE 4 ((s.tdataI.extractLsb' 0 32 ++
      preambleLane4EndD).extractLsb' 32 32)), none) = _
    rw [low]
  · rw [wordBytes_snoc, crcBytes_append, ← sum, ← crc8B_eq]
  · rw [wordBytes_snoc, whole, halves]
    rfl

/-- The checksums of a word continue those of the words before. -/
theorem sumOf_summed (i : AxisWord) {k : Nat} (least : 1 ≤ k) (most : k ≤ 8) :
    (s.summed i).sumOf k = crcBytes s.crc32 ((bytesLE 8 i.tdata).take k) := by
  -- Each register belongs to one number of lanes.
  have cases : k = 1 ∨ k = 2 ∨ k = 3 ∨ k = 4 ∨ k = 5 ∨ k = 6 ∨ k = 7 ∨ k = 8 := by omega
  rcases cases with rfl | rfl | rfl | rfl | rfl | rfl | rfl | rfl
  · rw [← bytesLE_low (m := 1) (by decide) rfl, ← crc1B_eq]
    rfl
  · rw [← bytesLE_low (m := 2) (by decide) rfl, ← crc2B_eq]
    rfl
  · rw [← bytesLE_low (m := 3) (by decide) rfl, ← crc3B_eq]
    rfl
  · rw [← bytesLE_low (m := 4) (by decide) rfl, ← crc4B_eq]
    rfl
  · rw [← bytesLE_low (m := 5) (by decide) rfl, ← crc5B_eq]
    rfl
  · rw [← bytesLE_low (m := 6) (by decide) rfl, ← crc6B_eq]
    rfl
  · rw [← bytesLE_low (m := 7) (by decide) rfl, ← crc7B_eq]
    rfl
  · rw [List.take_of_length_le (Nat.le_of_eq (length_bytesLE 8 i.tdata)), ← crc8B_eq]
    rfl

/-- The state behind a last word with so many bytes. -/
theorem finish_lanes {k : Nat} (small : k < 8) (a b c d : TxFsm) :
    finish ((1#8 <<< (k + 1)) - 1#8) a b c d =
      if k = 7 then a else if 4 ≤ k then b else if k = 3 then c else d := by
  have cases : k = 0 ∨ k = 1 ∨ k = 2 ∨ k = 3 ∨ k = 4 ∨ k = 5 ∨ k = 6 ∨ k = 7 := by omega
  rcases cases with rfl | rfl | rfl | rfl | rfl | rfl | rfl | rfl <;> rfl

/-- The first lanes of a last word that ends in the lower half. -/
theorem lower_lanes {k : Nat} (small : k < 3) :
    ∀ j < 3, ((1#8 <<< (k + 1)) - 1#8).getLsbD j = decide (j < k + 1) := by
  have cases : k = 0 ∨ k = 1 ∨ k = 2 := by omega
  rcases cases with rfl | rfl | rfl <;> decide

/-- A frame whose end is still to be sent is due. -/
theorem Sends.of_ending {t : Axis2Xgmii} {payload sent : List Byte} {lane : Lane}
    (long : 4 ≤ payload.length) (ending : t.Ending sent payload) :
    Sends [] (some payload) t (.data lane sent) := by
  -- No other state has an ending.
  have ends := ending
  rw [Ending] at ends
  cases fsm : t.fsm <;> rw [fsm] at ends <;> rw [Sends, fsm]
  case sres | idleL0 | dwIdle | qwIdle | tLane7 | tLane6 | tLane5 | stLane0 | stLane4 | stLane4D =>
    exact ends.elim
  all_goals exact ⟨rfl, payload, lane, sent, rfl, long, rfl, ending⟩

/-- Behind the last word of a frame from lane 0 the end of the frame is to be sent. -/
theorem Sends.of_finish {t : Axis2Xgmii} {k : Nat} (small : k < 8)
    (keep : t.tkeepI = (1#8 <<< (k + 1)) - 1#8)
    (fsm : t.fsm = finish t.tkeepI .l0Fin8B .l0Fin7B6B5B .l0Fin4B .l0Fin3B2B1B)
    {payload sent : List Byte} {lane : Lane} (long : 4 ≤ payload.length)
    (whole : payload = sent ++ (bytesLE 8 t.tdataI).take (k + 1))
    (sum : t.sumOf (k + 1) = crcBytes crcPreset payload) :
    Sends [] (some payload) t (.data lane sent) := by
  -- The number of bytes chooses the state, and what is left is as this state wants it.
  rw [keep, finish_lanes small] at fsm
  refine Sends.of_ending long ?_
  rw [Ending]
  split at fsm
  case isTrue eight =>
    subst eight
    rw [fsm]
    rw [List.take_of_length_le (Nat.le_of_eq (length_bytesLE 8 t.tdataI))] at whole
    exact ⟨whole, sum⟩
  · split at fsm
    · rw [fsm]
      exact ⟨k + 1, by omega, by omega, keep, whole, sum⟩
    · split at fsm
      case isTrue four =>
        subst four
        rw [fsm]
        exact ⟨whole, sum⟩
      · rw [fsm]
        refine ⟨k + 1, by omega, by omega, ?_, whole, sum⟩
        rw [keep]
        exact lower_lanes (by omega)

/-- Behind the last word of a frame from lane 4 the end of the frame is to be sent. -/
theorem Sends.of_finish_four {t : Axis2Xgmii} {k : Nat} (small : k < 8)
    (keep : t.tkeepI = (1#8 <<< (k + 1)) - 1#8)
    (fsm : t.fsm = finish t.tkeepI .l4Fin8B .l4Fin7B6B5B .l4Fin4B .l4Fin3B2B1B)
    {payload sent : List Byte} {lane : Lane} (long : 4 ≤ payload.length)
    (whole : payload = sent ++ bytesLE 4 t.auxDw ++ (bytesLE 8 t.tdataI).take (k + 1))
    (sum : t.sumOf (k + 1) = crcBytes crcPreset payload) :
    Sends [] (some payload) t (.data lane sent) := by
  -- As from lane 0, with the half that waits in front of the last bytes.
  rw [keep, finish_lanes small] at fsm
  refine Sends.of_ending long ?_
  rw [Ending]
  split at fsm
  case isTrue eight =>
    subst eight
    rw [fsm]
    rw [List.take_of_length_le (Nat.le_of_eq (length_bytesLE 8 t.tdataI))] at whole
    exact ⟨whole, sum⟩
  · split at fsm
    · rw [fsm]
      exact ⟨k + 1, by omega, by omega, keep, whole, sum⟩
    · split at fsm
      case isTrue four =>
        subst four
        rw [fsm]
        exact ⟨whole, sum⟩
      · rw [fsm]
        refine ⟨k + 1, by omega, by omega, ?_, whole, sum⟩
        rw [keep]
        exact lower_lanes (by omega)

/-- A further word of a frame from lane 0. -/
theorem Sends.stLane0 (flag : s.tready = s.fsm.ready) (sends : Sends front due s p)
    (fsm : s.fsm = .stLane0) (offer : (front ≠ [] → i.tvalid = true) ∧
      (i.tvalid = true → i.Proper front)) : Advances front due s p i := by
  -- The word before is sent while this one is taken.
  rw [Sends, fsm] at sends
  obtain ⟨some, rfl, full, sum, sent, rfl, whole⟩ := sends
  have valid := offer.1 some
  obtain ⟨good, keep⟩ := offer.2 valid
  have taken := taken_one flag (by rw [fsm]; rfl) valid
  have notUser : ¬ i.tuser = true := by
    rw [good]
    decide
  cases last : i.tlast with
  | false =>
    rw [last, if_neg Bool.false_ne_true] at keep
    -- In the middle of a frame the checksum goes on over the whole word.
    have step : s.adapter i =
        { s.summed i with tready := true, d := s.tdataI, c := 0 } := by
      rw [adapter, fsm]
      change s.stLane0Step i = _
      rw [stLane0Step, if_neg notUser, if_pos (by rw [last]; rfl)]
    refine Advances.more step taken last (Phase.next_data rfl .zero sent) ?_
    rw [Sends]
    have still : ({ s.summed i with tready := true, d := s.tdataI, c := 0 } : Axis2Xgmii).fsm =
        .stLane0 := fsm
    rw [still]
    refine ⟨by simp, rfl, full_snoc full ⟨keep, last⟩, ?_, _, rfl, ?_⟩
    · rw [wordBytes_snoc, crcBytes_append, ← sum, ← crc8B_eq]
      rfl
    · rw [wordBytes_snoc, whole]
      rfl
  | true =>
    rw [last, if_pos rfl] at keep
    -- At the end each register has the checksum over so many lanes, and one is the right one.
    obtain ⟨long, k, small, keep⟩ := keep
    have step : s.adapter i = { s.summed i with
        tready := false, d := s.tdataI, c := 0,
        fsm := finish i.tkeep .l0Fin8B .l0Fin7B6B5B .l0Fin4B .l0Fin3B2B1B } := by
      rw [adapter, fsm]
      change s.stLane0Step i = _
      rw [stLane0Step, if_neg notUser, if_neg (by rw [last]; decide)]
    have kept := keptBytes_last full (k := k + 1) (by omega) keep
    refine Advances.last step taken last (Phase.next_data rfl .zero sent)
      (Sends.of_finish small keep rfl ?_ ?_ ?_)
    · rw [kept, List.length_append, length_wordBytes]
      omega
    · rw [kept, whole]
      rfl
    · rw [kept, crcBytes_append, ← sum]
      exact sumOf_summed i (by omega) (by omega)

/-- A further word of a frame from lane 4. -/
theorem Sends.stLane4D (flag : s.tready = s.fsm.ready) (sends : Sends front due s p)
    (fsm : s.fsm = .stLane4D) (offer : (front ≠ [] → i.tvalid = true) ∧
      (i.tvalid = true → i.Proper front)) : Advances front due s p i := by
  rw [Sends, fsm] at sends
  obtain ⟨some, rfl, full, sum, sent, rfl, whole⟩ := sends
  have valid := offer.1 some
  obtain ⟨good, keep⟩ := offer.2 valid
  have taken := taken_one flag (by rw [fsm]; rfl) valid
  have notUser : ¬ i.tuser = true := by
    rw [good]
    decide
  -- The halves of two words are sent, and the upper half of the second one waits.
  have halves : bytesLE 4 s.auxDw ++ bytesLE 8 s.tdataI =
      bytesLE 8 s.straddled ++ bytesLE 4 (s.tdataI.extractLsb' 32 32) := by
    rw [straddled, bytesLE_append 4 4 rfl, bytesLE_low (by decide) rfl,
      bytesLE_extract 8 4 4 rfl rfl (by decide), List.append_assoc]
    rfl
  cases last : i.tlast with
  | false =>
    rw [last, if_neg Bool.false_ne_true] at keep
    have step : s.adapter i = { s.summed i with
        tready := true, auxDw := s.tdataI.extractLsb' 32 32, d := s.straddled, c := 0 } := by
      rw [adapter, fsm]
      change s.stLane4DStep i = _
      rw [stLane4DStep, if_neg notUser, if_pos (by rw [last]; rfl)]
    refine Advances.more step taken last (Phase.next_data rfl .four sent) ?_
    rw [Sends]
    have still : ({ s.summed i with
        tready := true, auxDw := s.tdataI.extractLsb' 32 32, d := s.straddled,
        c := 0 } : Axis2Xgmii).fsm = .stLane4D := fsm
    rw [still]
    refine ⟨by simp, rfl, full_snoc full ⟨keep, last⟩, ?_, _, rfl, ?_⟩
    · rw [wordBytes_snoc, crcBytes_append, ← sum, ← crc8B_eq]
      rfl
    · rw [wordBytes_snoc, whole, List.append_assoc sent, halves]
      simp only [List.append_assoc]
      rfl
  | true =>
    rw [last, if_pos rfl] at keep
    obtain ⟨long, k, small, keep⟩ := keep
    have step : s.adapter i = { s.summed i with
        tready := false, auxDw := s.tdataI.extractLsb' 32 32, d := s.straddled, c := 0,
        fsm := finish i.tkeep .l4Fin8B .l4Fin7B6B5B .l4Fin4B .l4Fin3B2B1B } := by
      rw [adapter, fsm]
      change s.stLane4DStep i = _
      rw [stLane4DStep, if_neg notUser, if_neg (by rw [last]; decide)]
    have kept := keptBytes_last full (k := k + 1) (by omega) keep
    refine Advances.last step taken last (Phase.next_data rfl .four sent)
      (Sends.of_finish_four small keep rfl ?_ ?_ ?_)
    · rw [kept, List.length_append, length_wordBytes]
      omega
    · rw [kept, whole, List.append_assoc sent, halves]
      simp only [List.append_assoc]
      rfl
    · rw [kept, crcBytes_append, ← sum]
      exact sumOf_summed i (by omega) (by omega)

/-- Every clock edge advances, when the source conforms. -/
theorem Sends.next (flag : s.tready = s.fsm.ready) (sends : Sends front due s p)
    (offer : s.tready = true → (front ≠ [] → i.tvalid = true) ∧
      (i.tvalid = true → i.Proper front)) : Advances front due s p i := by
  -- One lemma for each state; only those that take words look at the offer.
  rw [flag] at offer
  cases fsm : s.fsm with
  | sres => exact sends.sres flag fsm i
  | idleL0 => exact sends.idleL0 flag fsm (offer (by rw [fsm]; rfl)).2
  | stLane0 => exact sends.stLane0 flag fsm (offer (by rw [fsm]; rfl))
  | qwIdle => exact sends.rests flag (Or.inl fsm) i
  | l0Fin8B => exact sends.l0Fin8B flag fsm i
  | tLane4 => exact sends.tLane4 flag fsm i
  | l0Fin7B6B5B => exact sends.l0Fin7B6B5B flag fsm i
  | tLane3 => exact sends.tail flag (Or.inl ⟨fsm, rfl⟩) i
  | dwIdle => exact sends.dwIdle flag fsm (offer (by rw [fsm]; rfl)).2
  | tLane2 => exact sends.tail flag (Or.inr (Or.inl ⟨fsm, rfl⟩)) i
  | tLane1 => exact sends.tail flag (Or.inr (Or.inr ⟨fsm, rfl⟩)) i
  | l0Fin4B => exact sends.l0Fin4B flag fsm i
  | tLane0 => exact sends.tLane0 flag fsm i
  | l0Fin3B2B1B => exact sends.l0Fin3B2B1B flag fsm i
  | tLane7 => exact sends.rests flag (Or.inr (Or.inl fsm)) i
  | tLane6 => exact sends.rests flag (Or.inr (Or.inr (Or.inl fsm))) i
  | tLane5 => exact sends.rests flag (Or.inr (Or.inr (Or.inr fsm))) i
  | stLane4 => exact sends.stLane4 flag fsm (offer (by rw [fsm]; rfl))
  | stLane4D => exact sends.stLane4D flag fsm (offer (by rw [fsm]; rfl))
  | l4Fin8B => exact sends.l4Fin8B flag fsm i
  | l4Fin7B6B5B => exact sends.l4Fin7B6B5B flag fsm i
  | l4Fin4B => exact sends.l4Fin4B flag fsm i
  | l4Fin3B2B1B => exact sends.l4Fin3B2B1B flag fsm i

end Axis2Xgmii

end MarketData.Xgmii
