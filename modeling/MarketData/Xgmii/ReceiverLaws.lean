import MarketData.Lib.Groups
import MarketData.Netlist.Beats
import MarketData.Xgmii.Receiver

/-! What a column does to `xgmii2axis`, in terms of the bytes it carries. -/

namespace MarketData.Xgmii

/-- A lane is a byte of the word. -/
theorem byteLE_eq_extract {w : Nat} (x : BitVec w) (k : Nat) :
    byteLE x k = x.extractLsb' (8 * k) 8 := by
  -- Bit by bit.
  apply BitVec.eq_of_getLsbD_eq
  intro j small
  simp [byteLE, small]

/-- The first bytes of a column, as a slice. -/
theorem bytesLE_low {m v : Nat} (small : m ≤ 8) (size : v = 8 * m) (d : BitVec 64) :
    bytesLE m (d.extractLsb' 0 v) = (bytesLE 8 d).take m :=
  bytesLE_extract 8 0 m rfl size (by omega) d

/-- A column has eight bytes. -/
theorem bytesLE_eight (d : BitVec 64) :
    ∃ b₀ b₁ b₂ b₃ b₄ b₅ b₆ b₇, bytesLE 8 d = [b₀, b₁, b₂, b₃, b₄, b₅, b₆, b₇] :=
  ⟨_, _, _, _, _, _, _, _, rfl⟩

/-- A half column has four bytes. -/
theorem bytesLE_four (d : BitVec 32) : ∃ b₀ b₁ b₂ b₃, bytesLE 4 d = [b₀, b₁, b₂, b₃] :=
  ⟨_, _, _, _, rfl⟩

namespace AxisWord

/-- The bytes that a word keeps. -/
def bytes (w : AxisWord) : List Byte :=
  ((List.range 8).filter fun i => w.tkeep.getLsbD i).map (byteLE w.tdata)

/-- A word as a beat of the generator: the lanes that are not kept are zero. -/
def row (fno : Nat) (w : AxisWord) : Row where
  td := fromBytesLittle (ljust8 w.bytes)
  tk := w.tkeep
  tl := w.tlast
  fno := fno
  tv := true

/-- A keep of the low lanes keeps the first bytes. -/
theorem bytes_lowKeep (w : AxisWord) {k : Nat} (small : k ≤ 8)
    (keep : w.tkeep = (1#8 <<< k) - 1#8) : w.bytes = (bytesLE 8 w.tdata).take k := by
  -- Nine keeps are possible, and the lanes of each are evaluated.
  have lanes : ∀ m : Fin 9, (List.range 8).filter
      (fun i => ((1#8 <<< m.val) - 1#8).getLsbD i) = (List.range 8).take m.val := by
    decide
  rw [bytes, keep, lanes ⟨k, by omega⟩, bytesLE, List.map_take]

/-- A word in the middle of a frame. -/
def Full (w : AxisWord) : Prop :=
  w.tkeep = 0xFF#8 ∧ w.tlast = false

end AxisWord

/-- The bytes of whole words. -/
def wordBytes (ws : List AxisWord) : List Byte :=
  ws.flatMap fun w => bytesLE 8 w.tdata

/-- The bytes of another word come last. -/
theorem wordBytes_snoc (ws : List AxisWord) (w : AxisWord) :
    wordBytes (ws ++ [w]) = wordBytes ws ++ bytesLE 8 w.tdata := by
  simp [wordBytes]

/-- The beats of a frame that was received and found good. -/
def goodRows (ws : List AxisWord) : Option (List Row) :=
  if ws.getLast?.any (·.tuser) then some (ws.map (AxisWord.row 0)) else none

/-- Full words and a last one are the beats of the frame that they carry. -/
theorem frameRows_words {front : List AxisWord} (full : ∀ w ∈ front, w.Full) {w : AxisWord} {k : Nat}
    (some : 0 < k) (small : k ≤ 8) (keep : w.tkeep = (1#8 <<< k) - 1#8) (last : w.tlast = true) :
    (front ++ [w]).map (AxisWord.row 0) =
      frameRows 0 (wordBytes front ++ (bytesLE 8 w.tdata).take k) := by
  -- Word by word: each full one is a beat that is not the last.
  have kept := w.bytes_lowKeep small keep
  have length : ((bytesLE 8 w.tdata).take k).length = k := by
    rw [List.length_take, length_bytesLE]
    omega
  induction front with
  | nil =>
    have single := frameRows_single 0 (f := (bytesLE 8 w.tdata).take k) (by omega) (by omega)
    rw [length] at single
    simp only [wordBytes, List.flatMap_nil, List.nil_append, single, List.map_cons, List.map_nil,
      AxisWord.row, kept, keep, last]
  | cons v front ih =>
    obtain ⟨⟨vKeep, vLast⟩, others⟩ := List.forall_mem_cons.mp full
    have eight : (1#8 <<< 8) - 1#8 = 0xFF#8 := rfl
    have vBytes := v.bytes_lowKeep (Nat.le_refl 8) (vKeep.trans eight.symm)
    have whole : (bytesLE 8 v.tdata).length = 8 := length_bytesLE 8 v.tdata
    have split : wordBytes (v :: front) ++ (bytesLE 8 w.tdata).take k =
        bytesLE 8 v.tdata ++ (wordBytes front ++ (bytesLE 8 w.tdata).take k) := by
      rw [wordBytes, List.flatMap_cons, ← wordBytes, List.append_assoc]
    have long : 8 < (bytesLE 8 v.tdata ++
        (wordBytes front ++ (bytesLE 8 w.tdata).take k)).length := by
      rw [List.length_append, List.length_append, whole, length]
      omega
    rw [split, frameRows_cons 0 long, List.take_append_of_le_length (by omega),
      List.take_of_length_le (by omega), List.drop_append_of_le_length (by omega),
      List.drop_of_length_le (by omega), List.nil_append, ← ih others]
    rw [List.take_of_length_le (by omega)] at vBytes
    simp only [List.cons_append, List.map_cons, AxisWord.row, vBytes, vKeep, vLast]

/-- The verdict of the receiver is that of the check sequence. -/
theorem checked_accepts (lane : Lane) {payload : List Byte} (some : payload ≠ []) (rcved : BitVec 32)
    (tchar : Bool) :
    (WireFrame.mk lane (payload ++ bytesLE 4 rcved) tchar).checked =
      if Xgmii2Axis.accepts rcved (crcBytes crcPreset payload) tchar then Option.some payload
      else none := by
  -- The last four bytes are the received checksum, and bytes determine a word.
  have positive := List.length_pos_iff.mpr some
  have length : (payload ++ bytesLE 4 rcved).length - 4 = payload.length := by
    rw [List.length_append, length_bytesLE]
    omega
  have long : 4 < (payload ++ bytesLE 4 rcved).length := by
    rw [List.length_append, length_bytesLE]
    omega
  have same : bytesLE 4 rcved = bytesLE 4 (~~~ crcRev (crcBytes crcPreset payload)) ↔
      ~~~ crcRev (crcBytes crcPreset payload) = rcved :=
    (bytesLE_inj rfl).trans eq_comm
  simp only [WireFrame.checked, length, List.drop_left, List.take_left, long, true_and, fcs, same,
    Xgmii2Axis.accepts, Bool.and_eq_true, decide_eq_true_eq]
  simp only [and_comm]

/-- The group that a frame closes is delivered as good if its check sequence is right. -/
theorem goodRows_closed {front : List AxisWord} (full : ∀ w ∈ front, w.Full) {w : AxisWord} {k : Nat}
    (some : 0 < k) (small : k ≤ 8) (keep : w.tkeep = (1#8 <<< k) - 1#8) (last : w.tlast = true)
    (lane : Lane) (rcved : BitVec 32) (tchar : Bool) {received : List Byte}
    (behind : received = wordBytes front ++ (bytesLE 8 w.tdata).take k ++ bytesLE 4 rcved)
    (user : w.tuser = Xgmii2Axis.accepts rcved
      (crcBytes crcPreset (wordBytes front ++ (bytesLE 8 w.tdata).take k)) tchar) :
    goodRows (front ++ [w]) = (WireFrame.mk lane received tchar).checked.map (frameRows 0) := by
  -- The last word keeps a byte, so there is a payload in front of the check sequence.
  have nonempty : wordBytes front ++ (bytesLE 8 w.tdata).take k ≠ [] := by
    rw [← List.length_pos_iff, List.length_append, List.length_take, length_bytesLE]
    omega
  rw [behind, checked_accepts lane nonempty, ← user, goodRows, List.getLast?_concat,
    frameRows_words full some small keep last]
  cases verdict : w.tuser <;> simp [verdict]

namespace Xgmii2Axis

variable (s : Xgmii2Axis)

/-- The word that is held for the outputs, if it is valid. -/
def heldWords : List AxisWord :=
  if s.tvalidI then [s.held] else []

/-- The last word of a frame that is still to be checked. -/
def flush : List AxisWord :=
  if s.fsm = .fin ∨ s.fsm = .finL4 then
    [{ tdata := s.tdataD0, tkeep := s.lastTkeepI, tvalid := true, tlast := true,
       tuser := s.tuserI || accepts s.rcvedCrc s.calctedCrc s.chkTchar }]
  else []

/-- The register of the checksum up to the first `k` lanes of the last column. -/
def partialCrc (k : Nat) : BitVec 32 :=
  if k = 4 then s.crc32_4B else if k = 5 then s.crc32_5B else if k = 6 then s.crc32_6B
  else if k = 7 then s.crc32_7B else s.crc32

/-- The checksums of a column continue that of the columns before. -/
theorem partialCrc_summed (d : BitVec 64) (r : Xgmii2Axis) {k : Nat} (least : 4 ≤ k) (most : k ≤ 8) :
    (s.summed d r).partialCrc k = crcBytes s.crc32 ((bytesLE 8 d).take k) := by
  -- Each register belongs to one number of lanes.
  have cases : k = 4 ∨ k = 5 ∨ k = 6 ∨ k = 7 ∨ k = 8 := by omega
  rcases cases with rfl | rfl | rfl | rfl | rfl
  · simp [partialCrc, summed, crc4B_eq, bytesLE_low (m := 4) (by decide) rfl]
  · simp [partialCrc, summed, crc5B_eq, bytesLE_low (m := 5) (by decide) rfl]
  · simp [partialCrc, summed, crc6B_eq, bytesLE_low (m := 6) (by decide) rfl]
  · simp [partialCrc, summed, crc7B_eq, bytesLE_low (m := 7) (by decide) rfl]
  · simp [partialCrc, summed, crc8B_eq, List.take_of_length_le]

variable {s} {col : Column} {r : Nat}

/-- A frame from lane 0 that ends in one of the first five lanes ends with the word held back. -/
theorem stLane0Step_early (early : r ≤ 4) (ends : col.c = 0xFF#8 <<< r) :
    ∃ rcved, bytesLE 4 rcved = (bytesLE 8 s.dReg).drop (4 + r) ++ (bytesLE 8 col.d).take r ∧
      s.stLane0Step col =
        ended { s.lane0Word col.d with tkeepI := (1#8 <<< (4 + r)) - 1#8 }
          (accepts rcved (s.partialCrc (4 + r)) (isTchar (byteLE col.d r))) := by
  -- One branch for each lane.
  obtain ⟨q₀, q₁, q₂, q₃, q₄, q₅, q₆, q₇, before⟩ := bytesLE_eight s.dReg
  obtain ⟨b₀, b₁, b₂, b₃, b₄, b₅, b₆, b₇, bytes⟩ := bytesLE_eight col.d
  have cases : r = 0 ∨ r = 1 ∨ r = 2 ∨ r = 3 ∨ r = 4 := by omega
  rcases cases with rfl | rfl | rfl | rfl | rfl
  · refine ⟨s.dReg.extractLsb' 32 32, ?_, ?_⟩
    · rw [bytesLE_extract 8 4 4 rfl rfl (by decide), before, bytes]
      rfl
    · simp [stLane0Step, ends, byteLE_eq_extract, partialCrc]
  · refine ⟨col.d.extractLsb' 0 8 ++ s.dReg.extractLsb' 40 24, ?_, ?_⟩
    · rw [bytesLE_append 3 1 rfl, bytesLE_extract 8 5 3 rfl rfl (by decide),
        bytesLE_low (by decide) rfl, before, bytes]
      rfl
    · simp [stLane0Step, ends, byteLE_eq_extract, partialCrc]
  · refine ⟨col.d.extractLsb' 0 16 ++ s.dReg.extractLsb' 48 16, ?_, ?_⟩
    · rw [bytesLE_append 2 2 rfl, bytesLE_extract 8 6 2 rfl rfl (by decide),
        bytesLE_low (by decide) rfl, before, bytes]
      rfl
    · simp [stLane0Step, ends, byteLE_eq_extract, partialCrc]
  · refine ⟨col.d.extractLsb' 0 24 ++ s.dReg.extractLsb' 56 8, ?_, ?_⟩
    · rw [bytesLE_append 1 3 rfl, bytesLE_extract 8 7 1 rfl rfl (by decide),
        bytesLE_low (by decide) rfl, before, bytes]
      rfl
    · simp [stLane0Step, ends, byteLE_eq_extract, partialCrc]
  · refine ⟨col.d.extractLsb' 0 32, ?_, ?_⟩
    · rw [bytesLE_low (by decide) rfl, before, bytes]
      rfl
    · simp [stLane0Step, ends, byteLE_eq_extract, partialCrc, lane0Word, summed]

/-- A frame from lane 0 that ends in a later lane has one more word, checked in the next cycle. -/
theorem stLane0Step_late (late : 5 ≤ r) (small : r < 8) (ends : col.c = 0xFF#8 <<< r) :
    ∃ rcved, bytesLE 4 rcved = ((bytesLE 8 col.d).drop (r - 4)).take 4 ∧
      s.stLane0Step col =
        postponed (s.lane0Word col.d) ((1#8 <<< (r - 4)) - 1#8) rcved
          (crcBytes s.crc32 ((bytesLE 8 col.d).take (r - 4))) (byteLE col.d r) .fin := by
  -- One branch for each lane.
  have cases : r = 5 ∨ r = 6 ∨ r = 7 := by omega
  rcases cases with rfl | rfl | rfl
  · refine ⟨col.d.extractLsb' 8 32, bytesLE_extract 8 1 4 rfl rfl (by decide) col.d, ?_⟩
    simp [stLane0Step, ends, byteLE_eq_extract, crc1B_eq, bytesLE_low (m := 1) (by decide) rfl]
  · refine ⟨col.d.extractLsb' 16 32, bytesLE_extract 8 2 4 rfl rfl (by decide) col.d, ?_⟩
    simp [stLane0Step, ends, byteLE_eq_extract, crc2B_eq, bytesLE_low (m := 2) (by decide) rfl]
  · refine ⟨col.d.extractLsb' 24 32, bytesLE_extract 8 3 4 rfl rfl (by decide) col.d, ?_⟩
    simp [stLane0Step, ends, byteLE_eq_extract, crc3B_eq, bytesLE_low (m := 3) (by decide) rfl]

/-- A frame from lane 4 that ends in lane 0 ends with the word held back. -/
theorem dLane4Step_first (ends : col.c = 0xFF#8) :
    s.dLane4Step col =
      ended (s.lane4Word col.d)
        (accepts (s.dReg.extractLsb' 32 32) (s.partialCrc 4) (isTchar (byteLE col.d 0))) := by
  -- All eight lanes are control characters.
  simp [dLane4Step, ends, byteLE_eq_extract, partialCrc]

/-- A frame from lane 4 that ends in lanes 1 to 3 is checked with the bytes of the column before. -/
theorem dLane4Step_early (some : 1 ≤ r) (early : r ≤ 3) (ends : col.c = 0xFF#8 <<< r) :
    ∃ rcved, bytesLE 4 rcved = (bytesLE 4 s.auxDw).drop r ++ (bytesLE 8 col.d).take r ∧
      s.dLane4Step col =
        postponed (s.lane4Word col.d) ((1#8 <<< r) - 1#8) rcved (s.partialCrc (4 + r))
          (byteLE col.d r) .finL4 := by
  -- One branch for each lane.
  obtain ⟨q₀, q₁, q₂, q₃, before⟩ := bytesLE_four s.auxDw
  have cases : r = 1 ∨ r = 2 ∨ r = 3 := by omega
  rcases cases with rfl | rfl | rfl
  · refine ⟨col.d.extractLsb' 0 8 ++ s.auxDw.extractLsb' 8 24, ?_, ?_⟩
    · rw [bytesLE_append 3 1 rfl, bytesLE_extract 4 1 3 rfl rfl (by decide),
        bytesLE_low (by decide) rfl, before]
      rfl
    · simp [dLane4Step, ends, byteLE_eq_extract, partialCrc]
  · refine ⟨col.d.extractLsb' 0 16 ++ s.auxDw.extractLsb' 16 16, ?_, ?_⟩
    · rw [bytesLE_append 2 2 rfl, bytesLE_extract 4 2 2 rfl rfl (by decide),
        bytesLE_low (by decide) rfl, before]
      rfl
    · simp [dLane4Step, ends, byteLE_eq_extract, partialCrc]
  · refine ⟨col.d.extractLsb' 0 24 ++ s.auxDw.extractLsb' 24 8, ?_, ?_⟩
    · rw [bytesLE_append 1 3 rfl, bytesLE_extract 4 3 1 rfl rfl (by decide),
        bytesLE_low (by decide) rfl, before]
      rfl
    · simp [dLane4Step, ends, byteLE_eq_extract, partialCrc]

/-- A frame from lane 4 that ends in a later lane is checked with the bytes of that column. -/
theorem dLane4Step_late (late : 4 ≤ r) (small : r < 8) (ends : col.c = 0xFF#8 <<< r) :
    ∃ rcved, bytesLE 4 rcved = ((bytesLE 8 col.d).drop (r - 4)).take 4 ∧
      s.dLane4Step col =
        postponed (s.lane4Word col.d) ((1#8 <<< r) - 1#8) rcved
          (crcBytes s.crc32 ((bytesLE 8 col.d).take (r - 4))) (byteLE col.d r) .fin := by
  -- One branch for each lane.
  have cases : r = 4 ∨ r = 5 ∨ r = 6 ∨ r = 7 := by omega
  rcases cases with rfl | rfl | rfl | rfl
  · refine ⟨col.d.extractLsb' 0 32, bytesLE_extract 8 0 4 rfl rfl (by decide) col.d, ?_⟩
    simp [dLane4Step, ends, byteLE_eq_extract]
  · refine ⟨col.d.extractLsb' 8 32, bytesLE_extract 8 1 4 rfl rfl (by decide) col.d, ?_⟩
    simp [dLane4Step, ends, byteLE_eq_extract, crc1B_eq, bytesLE_low (m := 1) (by decide) rfl]
  · refine ⟨col.d.extractLsb' 16 32, bytesLE_extract 8 2 4 rfl rfl (by decide) col.d, ?_⟩
    simp [dLane4Step, ends, byteLE_eq_extract, crc2B_eq, bytesLE_low (m := 2) (by decide) rfl]
  · refine ⟨col.d.extractLsb' 24 32, bytesLE_extract 8 3 4 rfl rfl (by decide) col.d, ?_⟩
    simp [dLane4Step, ends, byteLE_eq_extract, crc3B_eq, bytesLE_low (m := 3) (by decide) rfl]

/-- A column with other control lanes breaks a frame off. -/
theorem step_broken (data : col.c ≠ 0#8) (none : endLane col.c = none) :
    s.stLane0Step col = broken (s.lane0Word col.d) ∧
      s.dLane4Step col = broken (s.lane4Word col.d) := by
  -- None of the branches applies.
  have other : ∀ r, r < 8 → col.c ≠ 0xFF#8 <<< r := fun r small => endLane_none none small
  have h₀ : col.c ≠ 0xFF#8 := other 0 (by decide)
  have h₁ : col.c ≠ 0xFE#8 := other 1 (by decide)
  have h₂ : col.c ≠ 0xFC#8 := other 2 (by decide)
  have h₃ : col.c ≠ 0xF8#8 := other 3 (by decide)
  have h₄ : col.c ≠ 0xF0#8 := other 4 (by decide)
  have h₅ : col.c ≠ 0xE0#8 := other 5 (by decide)
  have h₆ : col.c ≠ 0xC0#8 := other 6 (by decide)
  have h₇ : col.c ≠ 0x80#8 := other 7 (by decide)
  constructor
  · simp [stLane0Step, data, h₀, h₁, h₂, h₃, h₄, h₅, h₆, h₇]
  · simp [dLane4Step, data, h₀, h₁, h₂, h₃, h₄, h₅, h₆, h₇]

/-- What a column does to a state that receives data, behind the work that every column causes. -/
inductive Received (word : Xgmii2Axis) : Xgmii2Axis → Prop
  | more : Received word word
  | ends (keep : BitVec 8) (good : Bool) : Received word (ended { word with tkeepI := keep } good)
  | late (keep : BitVec 8) (rcved calcted : BitVec 32) (tchar : Byte) {fsm : RxFsm} :
    fsm = .fin ∨ fsm = .finL4 → Received word (postponed word keep rcved calcted tchar fsm)
  | breaks : Received word (broken word)

/-- The two states that receive data do nothing else. -/
theorem received (s : Xgmii2Axis) (col : Column) :
    Received (s.lane0Word col.d) (s.stLane0Step col) ∧
      Received (s.lane4Word col.d) (s.dLane4Step col) := by
  -- The control lanes are none, an end in one of eight lanes, or anything else.
  by_cases data : col.c = 0#8
  · rw [stLane0Step, dLane4Step, if_pos data, if_pos data]
    exact ⟨.more, .more⟩
  · cases missed : endLane col.c with
    | none =>
      obtain ⟨zero, four⟩ := step_broken (s := s) data missed
      rw [zero, four]
      exact ⟨.breaks, .breaks⟩
    | some r =>
      obtain ⟨small, control⟩ := endLane_some missed
      constructor
      -- From lane 0 an early end has the check sequence in this column alone.
      · by_cases early : r ≤ 4
        · obtain ⟨_, -, step⟩ := stLane0Step_early (s := s) early control
          rw [step]
          exact .ends _ _
        · obtain ⟨_, -, step⟩ := stLane0Step_late (s := s) (by omega) small control
          rw [step]
          exact .late _ _ _ _ (Or.inl rfl)
      -- From lane 4 a column is half a word ahead, so only an end in lane 0 is early.
      · rcases Nat.eq_zero_or_pos r with rfl | some
        · rw [dLane4Step_first control]
          exact .ends (s.lane4Word col.d).tkeepI _
        · by_cases early : r ≤ 3
          · obtain ⟨_, -, step⟩ := dLane4Step_early (s := s) some early control
            rw [step]
            exact .late _ _ _ _ (Or.inr rfl)
          · obtain ⟨_, -, step⟩ := dLane4Step_late (s := s) (by omega) small control
            rw [step]
            exact .late _ _ _ _ (Or.inl rfl)

end Xgmii2Axis

end MarketData.Xgmii
