import MarketData.Xgmii.Delivery

/-! What the frame check sequence finds: the residue of good frames, and bursts of errors. -/

namespace MarketData.Xgmii

/-- A few bytes of a word: one to eight, and the word that they stand in. -/
structure Slice where
  more : Fin 8
  data : BitVec 64

namespace Slice

/-- The bytes of a slice. -/
def bytes (x : Slice) : List Byte :=
  (bytesLE 8 x.data).take (x.more + 1)

/-- The checksum function for as many bytes. -/
def crc (c : BitVec 32) (x : Slice) : BitVec 32 :=
  match x.more with
  | 0 => crc1B c (x.data.extractLsb' 0 8)
  | 1 => crc2B c (x.data.extractLsb' 0 16)
  | 2 => crc3B c (x.data.extractLsb' 0 24)
  | 3 => crc4B c (x.data.extractLsb' 0 32)
  | 4 => crc5B c (x.data.extractLsb' 0 40)
  | 5 => crc6B c (x.data.extractLsb' 0 48)
  | 6 => crc7B c (x.data.extractLsb' 0 56)
  | 7 => crc8B c x.data

/-- Each function computes the serial checksum of its bytes. -/
theorem crc_eq (c : BitVec 32) (x : Slice) : x.crc c = crcBytes c x.bytes := by
  -- One function for each width.
  obtain ⟨more, data⟩ := x
  unfold crc bytes
  match more with
  | 0 => exact (crc1B_eq c _).trans (congrArg _ (bytesLE_low (by decide) rfl data))
  | 1 => exact (crc2B_eq c _).trans (congrArg _ (bytesLE_low (by decide) rfl data))
  | 2 => exact (crc3B_eq c _).trans (congrArg _ (bytesLE_low (by decide) rfl data))
  | 3 => exact (crc4B_eq c _).trans (congrArg _ (bytesLE_low (by decide) rfl data))
  | 4 => exact (crc5B_eq c _).trans (congrArg _ (bytesLE_low (by decide) rfl data))
  | 5 => exact (crc6B_eq c _).trans (congrArg _ (bytesLE_low (by decide) rfl data))
  | 6 => exact (crc7B_eq c _).trans (congrArg _ (bytesLE_low (by decide) rfl data))
  | 7 => exact crc8B_eq c data

end Slice

/-- However a frame is cut into slices, the parallel functions compute its serial checksum. -/
theorem slices_crc (c : BitVec 32) (slices : List Slice) :
    slices.foldl (fun c x => x.crc c) c = crcBytes c (slices.flatMap Slice.bytes) := by
  -- Slice by slice.
  induction slices generalizing c with
  | nil => rfl
  | cons x slices ih =>
    rw [List.foldl_cons, ih, Slice.crc_eq, List.flatMap_cons, crcBytes_append]

/-- The bits of a frame in the order in which they are sent. -/
def WireFrame.bits (f : WireFrame) : List Bool :=
  f.received.flatMap byteBits

/-- The register behind a frame with the right check sequence. -/
def residue : BitVec 32 :=
  0xC704DD7B#32

/-- The check sequence is sent from the top bit of the register on, inverted. -/
theorem flatMap_byteBits_fcs (payload : List Byte) :
    (bytesLE 4 (fcs payload)).flatMap byteBits =
      List.zipWith xor (topBits (crcBytes crcPreset payload)) (List.replicate 32 true) := by
  -- Bit `i` of the reversed register is bit `i` from the top.
  rw [flatMap_byteBits]
  apply List.ext_getElem
  · simp [topBits]
  · intro i inRange _
    have small : i < 32 := by simpa using inRange
    rw [List.getElem_zipWith, List.getElem_replicate, Bool.xor_true]
    simp only [List.getElem_map, List.getElem_range, topBits, fcs, crcRev]
    rw [BitVec.getLsbD_not, BitVec.getLsbD_reverse]
    simp [small]

/-- Bits determine the bytes. -/
theorem flatMap_byteBits_inj {bs cs : List Byte} (same : bs.length = cs.length)
    (bits : bs.flatMap byteBits = cs.flatMap byteBits) : bs = cs := by
  -- Byte by byte.
  induction bs generalizing cs with
  | nil => exact (List.length_eq_zero_iff.mp same.symm).symm
  | cons b bs ih =>
    obtain ⟨c, cs, rfl⟩ := List.exists_cons_of_length_eq_add_one same.symm
    rw [List.flatMap_cons, List.flatMap_cons] at bits
    obtain ⟨head, tail⟩ := List.append_inj bits (by simp [byteBits])
    have byte : b = c := by
      apply BitVec.eq_of_getLsbD_eq
      intro i small
      have place := congrArg (·[i]?) head
      simpa [byteBits, small] using place
    rw [byte, ih (Nat.succ.inj same) tail]

/-- Whatever was sent before, the check sequence leads to one register. -/
theorem crcBytes_fcs (payload : List Byte) :
    crcBytes crcPreset (payload ++ bytesLE 4 (fcs payload)) = residue := by
  -- The register empties itself, and what is left is that of the inversion.
  have inversion : shiftBits crcPoly 0#32 (List.replicate 32 true) = residue := by decide +kernel
  have length : (topBits (crcBytes crcPreset payload)).length = (List.replicate 32 true).length := by
    simp [topBits]
  have additive := @shiftBits_xor _ crcPoly (crcBytes crcPreset payload) 0#32 _ _ length
  rw [BitVec.xor_zero, shiftBits_topBits, BitVec.zero_xor, inversion] at additive
  rw [crcBytes_append, ← additive, ← flatMap_byteBits_fcs]
  rfl

/-- A frame is good exactly if the register ends in the residue. -/
theorem checked_iff (f : WireFrame) :
    f.checked.isSome ↔
      4 < f.received.length ∧ f.terminated = true ∧ crcBytes crcPreset f.received = residue := by
  rw [WireFrame.checked]
  set n := f.received.length - 4
  have parts : f.received.take n ++ f.received.drop n = f.received := List.take_append_drop _ _
  constructor
  · intro good
    split at good
    · rename_i right
      obtain ⟨long, terminated, check⟩ := right
      refine ⟨long, terminated, ?_⟩
      rw [← crcBytes_fcs (f.received.take n), ← check, parts]
    · cases good
  · rintro ⟨long, terminated, right⟩
    -- From the register behind the payload only one check sequence leads there.
    have size : (f.received.drop n).length = 4 := by
      rw [List.length_drop]
      omega
    have check : f.received.drop n = bytesLE 4 (fcs (f.received.take n)) := by
      have front := crcBytes_fcs (f.received.take n)
      rw [← right, crcBytes_append] at front
      have whole : crcBytes crcPreset f.received =
          crcBytes (crcBytes crcPreset (f.received.take n)) (f.received.drop n) := by
        rw [← crcBytes_append, parts]
      rw [whole] at front
      have lengths : (f.received.drop n).length = (bytesLE 4 (fcs (f.received.take n))).length := by
        rw [size, length_bytesLE]
      have fits : ∀ bs : List Byte, (bs.flatMap byteBits).length = 8 * bs.length := by
        intro bs
        rw [List.length_flatMap]
        simp [byteBits, Nat.mul_comm]
      have odd : crcPoly.getLsbD 0 = true := rfl
      refine flatMap_byteBits_inj lengths (eq_of_shiftBits_eq odd ?_ ?_ front.symm)
      · rw [fits, fits, lengths]
      · exact Nat.le_of_eq (by rw [fits, size])
    rw [if_pos ⟨long, terminated, check⟩]
    rfl

/-- A frame that a burst of errors has damaged, in no more than 32 bits that follow each other. -/
structure Damaged (f g : WireFrame) where
  before : Nat
  after : Nat
  burst : List Bool
  short : burst.length ≤ 32
  some : true ∈ burst
  length : before + burst.length + after = f.bits.length
  bits : g.bits = List.zipWith xor f.bits
    (List.replicate before false ++ burst ++ List.replicate after false)

/-- A good frame is not taken for a good one any more when a burst has damaged it. -/
theorem Damaged.found {f g : WireFrame} (damaged : Damaged f g) (good : f.checked.isSome) :
    g.checked = none := by
  rw [← Option.not_isSome_iff_eq_none]
  intro still
  -- Both registers end in the residue, so the burst alone would have to cancel out.
  have first := ((checked_iff f).mp good).2.2
  have second := ((checked_iff g).mp still).2.2
  have lengths : f.bits.length = (List.replicate damaged.before false ++ damaged.burst ++
      List.replicate damaged.after false).length := by
    rw [List.length_append, List.length_append, List.length_replicate, List.length_replicate]
    exact damaged.length.symm
  have additive := @shiftBits_xor _ crcPoly crcPreset 0#32 _ _ lengths
  rw [BitVec.xor_zero, ← damaged.bits] at additive
  have cancelled : shiftBits crcPoly 0#32 (List.replicate damaged.before false ++ damaged.burst ++
      List.replicate damaged.after false) = 0#32 := by
    change crcBytes crcPreset g.received = crcBytes crcPreset f.received ^^^ _ at additive
    rw [first, second] at additive
    have same := (BitVec.xor_eq_zero_iff.mpr additive)
    rwa [← BitVec.xor_assoc, BitVec.xor_self, BitVec.zero_xor] at same
  exact shiftBits_burst (by decide) _ _ damaged.short damaged.some cancelled

/-- The receiver passes no frame on as good that a burst has damaged.

Whatever else the stream carries, its good frames are those in front of the damaged one and those
behind it. -/
theorem damaged_not_delivered {s : Xgmii2Axis} (orderly : s.Orderly) {resets : List Column}
    (some : resets ≠ []) (first second : Column) (noStart : ¬ second.Starts) (cols : List Column)
    (port : Port) (noRunt : ∀ f ∈ carried .hunting (cols ++ List.replicate 3 Column.idle), ¬ f.Runt)
    {f g : WireFrame} (damaged : Damaged f g) (good : f.checked.isSome) {earlier later : List WireFrame}
    (frames : carried .hunting (cols ++ List.replicate 3 Column.idle) = earlier ++ g :: later) :
    ∃ words, Xgmii2Axis.delivered port (s.resetBy resets)
        (first :: second :: cols ++ List.replicate 3 Column.idle) = s.leftover ++ words ∧
      goodBeats words = genFrames (earlier.filterMap WireFrame.checked ++
        later.filterMap WireFrame.checked) := by
  obtain ⟨words, same, goodWords, -, -⟩ :=
    Xgmii2Axis.good_groups_delivered orderly some first second noStart cols port noRunt
  -- The damaged frame is none of the good ones.
  refine ⟨words, same, goodBeats_eq ?_⟩
  rw [goodWords, goodPayloads, frames, List.filterMap_append, List.filterMap_cons,
    damaged.found good]

/-- A good frame. -/
def sampleFrame : WireFrame where
  lane := .zero
  received := Xgmii2Axis.samplePayload ++ [0x55, 0xC6, 0x5F, 0x92]
  terminated := true

/-- The same frame with another third byte. -/
def damagedFrame : WireFrame where
  lane := .zero
  received := sampleFrame.received.set 2 0x92
  terminated := true

/-- The damage inverts three bits of the byte. -/
def sampleDamage : Damaged sampleFrame damagedFrame where
  before := 16
  after := 104
  burst := [true, false, false, false, true, false, false, true]
  short := by decide
  some := by decide
  length := by decide +kernel
  bits := by decide +kernel

/-- The good frame, and behind it the damaged one. -/
def damagedColumns : List Column :=
  [⟨preambleLane0D, preambleLane0C⟩, ⟨0x0807060504030201, 0⟩, ⟨0x925FC6550C0B0A09, 0⟩,
    ⟨0x07070707070707FD, 0xFF⟩, ⟨preambleLane0D, preambleLane0C⟩, ⟨0x0807060504920201, 0⟩,
    ⟨0x925FC6550C0B0A09, 0⟩, ⟨0x07070707070707FD, 0xFF⟩]

/-- The good frame is delivered, and the damaged one is not. -/
theorem damaged_not_delivered_sample :
    goodBeats (Xgmii2Axis.delivered .lv (Xgmii2Axis.powerUp.resetBy [Column.idle])
      (Column.idle :: Column.idle :: damagedColumns ++ List.replicate 3 Column.idle)) =
      genFrames [Xgmii2Axis.samplePayload] := by
  have frames : carried .hunting (damagedColumns ++ List.replicate 3 Column.idle) =
      [sampleFrame] ++ damagedFrame :: [] := by
    decide +kernel
  obtain ⟨words, same, good⟩ := damaged_not_delivered (s := Xgmii2Axis.powerUp)
    (fun _ => ⟨rfl, Or.inl rfl⟩) (List.cons_ne_nil Column.idle []) Column.idle Column.idle
    (by decide) damagedColumns .lv (by decide +kernel) sampleDamage (by decide +kernel) frames
  -- What is delivered are the good frames in front of the damaged one, and that is one frame.
  have payload : sampleFrame.checked = some Xgmii2Axis.samplePayload := by
    decide +kernel
  rw [List.filterMap_cons, payload] at good
  exact (congrArg goodBeats same).trans good

end MarketData.Xgmii
