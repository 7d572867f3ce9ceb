import MarketData.Xgmii.Wire

/-! `xgmii2axis`: from the columns of the interface to an AXI stream, one clock edge at a time. -/

namespace MarketData.Xgmii

/-- The outputs of one AXI stream. -/
structure AxisWord where
  tdata : BitVec 64
  tkeep : BitVec 8
  tvalid : Bool
  tlast : Bool
  tuser : Bool
  deriving DecidableEq

/-- An output before its first word. -/
def AxisWord.silent : AxisWord where
  tdata := 0
  tkeep := 0
  tvalid := false
  tlast := false
  tuser := false

/-- The states of the adapter. -/
inductive RxFsm where
  | sres
  | idle
  | stLane0
  | stLane4
  | fin
  | dLane4
  | finL4
  deriving DecidableEq

/-- The registers of `xgmii2axis`; `zy` and `lv` are its two output streams. -/
structure Xgmii2Axis where
  goodFrames : BitVec 32
  badFrames : BitVec 32
  zy : AxisWord
  lv : AxisWord
  synch : Bool
  fsm : RxFsm
  tdataI : BitVec 64
  tkeepI : BitVec 8
  lastTkeepI : BitVec 8
  tvalidI : Bool
  tlastI : Bool
  tuserI : Bool
  tdataD0 : BitVec 64
  tvalidD0 : Bool
  dReg : BitVec 64
  inboundFrame : Bool
  auxDw : BitVec 32
  chkTchar : Bool
  crc32 : BitVec 32
  crc32_7B : BitVec 32
  crc32_6B : BitVec 32
  crc32_5B : BitVec 32
  crc32_4B : BitVec 32
  rcvedCrc : BitVec 32
  calctedCrc : BitVec 32
  deriving DecidableEq

namespace Xgmii2Axis

variable (s : Xgmii2Axis)

/-- What the adapter holds for the outputs. -/
def held : AxisWord where
  tdata := s.tdataI
  tkeep := s.tkeepI
  tvalid := s.tvalidI
  tlast := s.tlastI
  tuser := s.tuserI

/-- The output block: `zy`, `lv` and `synch` after a clock edge. -/
def output (aresetn : Bool) : AxisWord × AxisWord × Bool :=
  if !aresetn then ({ s.zy with tvalid := false }, { s.lv with tvalid := false }, false)
  -- The outputs fall in step between frames only, and stay so.
  else if !s.inboundFrame || s.synch then (s.held, s.held, true)
  -- Until then the first output stands still, and the second one shows nothing.
  else (s.zy, { s.lv with tvalid := false }, s.synch)

/-- A frame that is completed in this cycle: the received checksum, and the one computed. -/
def accepts (rcved calcted : BitVec 32) (tchar : Bool) : Bool :=
  decide (~~~ crcRev calcted = rcved) && tchar

/-- What every cycle of the adapter does, reset apart. -/
def counted : Xgmii2Axis :=
  -- The counters look at the word that is on the first output.
  { s with
    goodFrames := if s.zy.tvalid && s.zy.tlast && s.zy.tuser then s.goodFrames + 1 else s.goodFrames
    badFrames := if s.zy.tvalid && s.zy.tlast && !s.zy.tuser then s.badFrames + 1 else s.badFrames
    tdataI := s.tdataD0
    tvalidI := s.tvalidD0 }

/-- The checksums over a whole column and over its first lanes. -/
def summed (d : BitVec 64) (r : Xgmii2Axis) : Xgmii2Axis :=
  { r with
    dReg := d
    crc32 := crc8B s.crc32 d
    crc32_7B := crc7B s.crc32 (d.extractLsb' 0 56)
    crc32_6B := crc6B s.crc32 (d.extractLsb' 0 48)
    crc32_5B := crc5B s.crc32 (d.extractLsb' 0 40)
    crc32_4B := crc4B s.crc32 (d.extractLsb' 0 32) }

/-- The frame ends with the word that is already held back. -/
def ended (r : Xgmii2Axis) (good : Bool) : Xgmii2Axis :=
  { r with tvalidD0 := false, tlastI := true, tuserI := r.tuserI || good, fsm := .idle }

/-- The frame has one more word, which is checked in the next cycle. -/
def postponed (r : Xgmii2Axis) (keep : BitVec 8) (rcved calcted : BitVec 32) (tchar : Byte)
    (fsm : RxFsm) : Xgmii2Axis :=
  { r with
    lastTkeepI := keep, rcvedCrc := rcved, calctedCrc := calcted, chkTchar := isTchar tchar,
    fsm := fsm }

/-- The frame breaks off. -/
def broken (r : Xgmii2Axis) : Xgmii2Axis :=
  { r with tlastI := true, tvalidD0 := false, tvalidI := true, fsm := .idle }

/-- What `ST_LANE0` does with every column. -/
def lane0Word (d : BitVec 64) : Xgmii2Axis :=
  summed s d
    { s.counted with tdataD0 := d, tvalidD0 := true, tkeepI := 0xFF, tlastI := false, tuserI := false }

/-- `ST_LANE0`. -/
def stLane0Step (col : Column) : Xgmii2Axis :=
  let d := col.d
  let r := s.lane0Word d
  -- A column of data.
  if col.c = 0x00#8 then r
  -- With an end in one of the first five lanes the word before is the last one.
  else if col.c = 0xFF#8 then
    ended { r with tkeepI := 0x0F }
      (accepts (s.dReg.extractLsb' 32 32) s.crc32_4B (isTchar (d.extractLsb' 0 8)))
  else if col.c = 0xFE#8 then
    ended { r with tkeepI := 0x1F }
      (accepts (d.extractLsb' 0 8 ++ s.dReg.extractLsb' 40 24) s.crc32_5B
        (isTchar (d.extractLsb' 8 8)))
  else if col.c = 0xFC#8 then
    ended { r with tkeepI := 0x3F }
      (accepts (d.extractLsb' 0 16 ++ s.dReg.extractLsb' 48 16) s.crc32_6B
        (isTchar (d.extractLsb' 16 8)))
  else if col.c = 0xF8#8 then
    ended { r with tkeepI := 0x7F }
      (accepts (d.extractLsb' 0 24 ++ s.dReg.extractLsb' 56 8) s.crc32_7B
        (isTchar (d.extractLsb' 24 8)))
  else if col.c = 0xF0#8 then
    ended r (accepts (d.extractLsb' 0 32) s.crc32 (isTchar (d.extractLsb' 32 8)))
  -- Further behind, the bytes in front of the check sequence are a word of their own.
  else if col.c = 0xE0#8 then
    postponed r 0x01 (d.extractLsb' 8 32) (crc1B s.crc32 (d.extractLsb' 0 8)) (d.extractLsb' 40 8) .fin
  else if col.c = 0xC0#8 then
    postponed r 0x03 (d.extractLsb' 16 32) (crc2B s.crc32 (d.extractLsb' 0 16)) (d.extractLsb' 48 8)
      .fin
  else if col.c = 0x80#8 then
    postponed r 0x07 (d.extractLsb' 24 32) (crc3B s.crc32 (d.extractLsb' 0 24)) (d.extractLsb' 56 8)
      .fin
  -- Any other control character breaks the frame off.
  else broken r

/-- What `D_LANE4` does with every column. -/
def lane4Word (d : BitVec 64) : Xgmii2Axis :=
  -- A word is half of the column before and half of this one.
  summed s d
    { s.counted with
      tdataD0 := d.extractLsb' 0 32 ++ s.auxDw, tvalidD0 := true, tkeepI := 0xFF,
      auxDw := d.extractLsb' 32 32 }

/-- `D_LANE4`. -/
def dLane4Step (col : Column) : Xgmii2Axis :=
  let d := col.d
  let r := s.lane4Word d
  -- A column of data.
  if col.c = 0x00#8 then r
  -- Only an end in lane 0 leaves no byte of the frame for another word.
  else if col.c = 0xFF#8 then
    ended r (accepts (s.dReg.extractLsb' 32 32) s.crc32_4B (isTchar (d.extractLsb' 0 8)))
  -- In lanes 1 to 3 the check sequence begins in the half that waits.
  else if col.c = 0xFE#8 then
    postponed r 0x01 (d.extractLsb' 0 8 ++ s.auxDw.extractLsb' 8 24) s.crc32_5B (d.extractLsb' 8 8)
      .finL4
  else if col.c = 0xFC#8 then
    postponed r 0x03 (d.extractLsb' 0 16 ++ s.auxDw.extractLsb' 16 16) s.crc32_6B
      (d.extractLsb' 16 8) .finL4
  else if col.c = 0xF8#8 then
    postponed r 0x07 (d.extractLsb' 0 24 ++ s.auxDw.extractLsb' 24 8) s.crc32_7B
      (d.extractLsb' 24 8) .finL4
  -- From lane 4 on it is in this column alone.
  else if col.c = 0xF0#8 then
    postponed r 0x0F (d.extractLsb' 0 32) s.crc32 (d.extractLsb' 32 8) .fin
  else if col.c = 0xE0#8 then
    postponed r 0x1F (d.extractLsb' 8 32) (crc1B s.crc32 (d.extractLsb' 0 8)) (d.extractLsb' 40 8) .fin
  else if col.c = 0xC0#8 then
    postponed r 0x3F (d.extractLsb' 16 32) (crc2B s.crc32 (d.extractLsb' 0 16)) (d.extractLsb' 48 8)
      .fin
  else if col.c = 0x80#8 then
    postponed r 0x7F (d.extractLsb' 24 32) (crc3B s.crc32 (d.extractLsb' 0 24)) (d.extractLsb' 56 8)
      .fin
  -- Any other control character breaks the frame off.
  else broken r

/-- `FIN` and `FINL4`: the last word of a frame; only `FINL4` sees a start in lane 0. -/
def finStep (col : Column) (lane0 : Bool) : Xgmii2Axis :=
  -- The verdict is added to what the state before may have left on.
  { s.counted with
    tkeepI := s.lastTkeepI, tlastI := true, tvalidD0 := false, crc32 := crcPreset,
    tuserI := s.tuserI || accepts s.rcvedCrc s.calctedCrc s.chkTchar,
    fsm := if lane0 && sofLane0 col.d col.c then .stLane0
      else if sofLane4 col.d col.c then .stLane4 else .idle }

/-- The adapter: the other registers after a clock edge without reset. -/
def adapter (col : Column) : Xgmii2Axis :=
  match s.fsm with
  | .sres => { s.counted with goodFrames := 0, badFrames := 0, fsm := .idle }
  -- Without a start no frame is on the way, and the outputs may fall in step.
  | .idle =>
    { s.counted with
      tvalidD0 := false, tlastI := false, tuserI := false, crc32 := crcPreset, dReg := col.d,
      inboundFrame := sofLane0 col.d col.c || sofLane4 col.d col.c,
      fsm := if sofLane0 col.d col.c then .stLane0
        else if sofLane4 col.d col.c then .stLane4 else .idle }
  | .stLane0 => s.stLane0Step col
  | .fin => s.finStep col false
  -- Behind a start in lane 4 the second half of the preamble comes, and half a word of the frame.
  | .stLane4 =>
    { s.counted with
      tlastI := false, tuserI := false, crc32 := crc4B s.crc32 (col.d.extractLsb' 32 32),
      auxDw := col.d.extractLsb' 32 32, fsm := if col.c = 0x00#8 then .dLane4 else .idle }
  | .dLane4 => s.dLane4Step col
  | .finL4 => s.finStep col true

/-- One clock edge. -/
def step (aresetn : Bool) (col : Column) : Xgmii2Axis :=
  -- Both blocks read the registers of before the edge.
  let outputs := s.output aresetn
  { (if !aresetn then { s with tvalidI := false, fsm := .sres } else s.adapter col) with
    zy := outputs.1, lv := outputs.2.1, synch := outputs.2.2 }

end Xgmii2Axis

end MarketData.Xgmii
