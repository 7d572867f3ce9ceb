import MarketData.Xgmii.Receiver

/-! `axis2xgmii`: from an AXI stream to the columns of the interface, one clock edge at a time. -/

namespace MarketData.Xgmii

/-- The states of the adapter. -/
inductive TxFsm where
  | sres
  | idleL0
  | stLane0
  | qwIdle
  | l0Fin8B
  | tLane4
  | l0Fin7B6B5B
  | tLane3
  | dwIdle
  | tLane2
  | tLane1
  | l0Fin4B
  | tLane0
  | l0Fin3B2B1B
  | tLane7
  | tLane6
  | tLane5
  | stLane4
  | stLane4D
  | l4Fin8B
  | l4Fin7B6B5B
  | l4Fin4B
  | l4Fin3B2B1B
  deriving DecidableEq

/-- The registers of `axis2xgmii`; `d` and `c` are the columns that it sends. -/
structure Axis2Xgmii where
  lane4Start : Bool
  tready : Bool
  fsm : TxFsm
  tdataI : BitVec 64
  tkeepI : BitVec 8
  d : BitVec 64
  c : BitVec 8
  auxDw : BitVec 32
  dic : BitVec 2
  crc32 : BitVec 32
  crc32_7B : BitVec 32
  crc32_6B : BitVec 32
  crc32_5B : BitVec 32
  crc32_4B : BitVec 32
  crc32_3B : BitVec 32
  crc32_2B : BitVec 32
  crc32_1B : BitVec 32
  auxVarCrc : BitVec 32
  calctedCrc4B : BitVec 32
  crcReg : BitVec 32
  deriving DecidableEq

namespace Axis2Xgmii

variable (s : Axis2Xgmii)

/-- The column that is sent. -/
def column : Column where
  d := s.d
  c := s.c

/-- Idle characters in all lanes. -/
def quiet : Axis2Xgmii :=
  { s with d := qwIdleD, c := qwIdleC }

/-- The word from the stream is held back. -/
def loaded (i : AxisWord) : Axis2Xgmii :=
  { s with tdataI := i.tdata, tkeepI := i.tkeep }

/-- The checksums over a whole word and over its first lanes. -/
def summed (i : AxisWord) : Axis2Xgmii :=
  { s.loaded i with
    crc32 := crc8B s.crc32 i.tdata
    crc32_7B := crc7B s.crc32 (i.tdata.extractLsb' 0 56)
    crc32_6B := crc6B s.crc32 (i.tdata.extractLsb' 0 48)
    crc32_5B := crc5B s.crc32 (i.tdata.extractLsb' 0 40)
    crc32_4B := crc4B s.crc32 (i.tdata.extractLsb' 0 32)
    crc32_3B := crc3B s.crc32 (i.tdata.extractLsb' 0 24)
    crc32_2B := crc2B s.crc32 (i.tdata.extractLsb' 0 16)
    crc32_1B := crc1B s.crc32 (i.tdata.extractLsb' 0 8) }

/-- The state behind the last word of a frame, by how many of its lanes are kept. -/
def finish (tkeep : BitVec 8) (fin8B fin7B6B5B fin4B fin3B2B1B : TxFsm) : TxFsm :=
  -- The keep of a last word has its low lanes on, so the highest ones decide.
  if tkeep.getLsbD 7 then fin8B
  else if tkeep.getLsbD 4 then fin7B6B5B
  else if tkeep.getLsbD 3 then fin4B
  else fin3B2B1B

/-- `IDLE_L0`. -/
def idleL0Step (i : AxisWord) : Axis2Xgmii :=
  let r := { s.quiet.loaded i with lane4Start := false }
  -- A word is taken: its preamble is sent, and the word waits.
  if i.tvalid then
    { r with
      crc32 := crc8B crcPreset i.tdata, d := preambleLane0D, c := preambleLane0C, fsm := .stLane0 }
  -- Else an idle column is sent, which counts the deficit down.
  else { r with dic := if s.dic ≠ 0 then s.dic - 1 else s.dic }

/-- `ST_LANE0`. -/
def stLane0Step (i : AxisWord) : Axis2Xgmii :=
  -- The word before is sent, and this one takes its place.
  let r := { s.summed i with tready := false, d := s.tdataI, c := 0 }
  -- The source aborts the frame: an error in front, and the end behind the last bytes.
  if i.tuser then
    { r with
      d := T ++ s.tdataI.extractLsb' 8 48 ++ xgmiiErrorL0D, c := xgmiiErrorL0C ||| 0x80#8,
      fsm := .qwIdle }
  else if !i.tlast then { r with tready := true }
  else { r with fsm := finish i.tkeep .l0Fin8B .l0Fin7B6B5B .l0Fin4B .l0Fin3B2B1B }

/-- `L0_FIN_7B_6B_5B`. -/
def l0Fin7B6B5BStep : Axis2Xgmii :=
  -- The check sequence fills the column up, and the rest of it is kept for the next one.
  let r :=
    if s.tkeepI.getLsbD 6 then
      let crc := ~~~ crcRev s.crc32_7B
      { s with
        auxVarCrc := crc, d := crc.extractLsb' 0 8 ++ s.tdataI.extractLsb' 0 56, fsm := .tLane3 }
    else if s.tkeepI.getLsbD 5 then
      let crc := ~~~ crcRev s.crc32_6B
      { s with
        auxVarCrc := crc, d := crc.extractLsb' 0 16 ++ s.tdataI.extractLsb' 0 48, fsm := .tLane2 }
    else if s.tkeepI.getLsbD 4 then
      let crc := ~~~ crcRev s.crc32_5B
      { s with
        auxVarCrc := crc, d := crc.extractLsb' 0 24 ++ s.tdataI.extractLsb' 0 40, fsm := .tLane1 }
    -- None of the three lanes is kept: the state is not left.
    else s
  { r with c := 0, crcReg := r.auxVarCrc }

/-- `L0_FIN_3B_2B_1B`. -/
def l0Fin3B2B1BStep : Axis2Xgmii :=
  -- The whole check sequence fits, and the end of the frame behind it.
  if s.tkeepI.getLsbD 2 then
    { s with
      d := T ++ ~~~ crcRev s.crc32_3B ++ s.tdataI.extractLsb' 0 24, c := 0x80, fsm := .tLane7 }
  else if s.tkeepI.getLsbD 1 then
    { s with
      d := I ++ T ++ ~~~ crcRev s.crc32_2B ++ s.tdataI.extractLsb' 0 16, c := 0xC0, fsm := .tLane6 }
  else if s.tkeepI.getLsbD 0 then
    { s with
      d := I.replicate 2 ++ T ++ ~~~ crcRev s.crc32_1B ++ s.tdataI.extractLsb' 0 8, c := 0xE0,
      fsm := .tLane5 }
  -- None of the three lanes is kept: the state is not left.
  else s

/-- `DW_IDLE`. -/
def dwIdleStep (i : AxisWord) : Axis2Xgmii :=
  let r := s.quiet.loaded i
  -- The preamble starts in lane 4, four idle characters in front of it.
  if i.tvalid then
    { r with
      crc32 := crc8B crcPreset i.tdata, d := preambleLane4D, c := preambleLane4C, fsm := .stLane4 }
  else { r with fsm := .idleL0 }

/-- `ST_LANE4`. -/
def stLane4Step (i : AxisWord) : Axis2Xgmii :=
  -- The second half of the preamble is sent with the first half of the word before.
  let r := { s.loaded i with
    auxDw := s.tdataI.extractLsb' 32 32
    d := s.tdataI.extractLsb' 0 32 ++ preambleLane4EndD
    c := preambleLane4EndC
    crc32 := crc8B s.crc32 i.tdata
    lane4Start := true }
  -- The source aborts the frame before anything but its first bytes is sent.
  if i.tuser then
    { r with
      d := T ++ s.tdataI.extractLsb' 0 24 ++ preambleLane4EndD.extractLsb' 8 24 ++ xgmiiErrorL0D,
      c := xgmiiErrorL0C ||| 0x80#8, tready := false, fsm := .qwIdle }
  else { r with fsm := .stLane4D }

/-- The halves of two words make a column. -/
def straddled : BitVec 64 :=
  s.tdataI.extractLsb' 0 32 ++ s.auxDw

/-- `ST_LANE4_D`. -/
def stLane4DStep (i : AxisWord) : Axis2Xgmii :=
  let r := { s.summed i with
    tready := false, auxDw := s.tdataI.extractLsb' 32 32, d := s.straddled, c := 0 }
  -- The abort has no room for an end in this column, an idle column follows.
  if i.tuser then
    { r with
      d := s.tdataI.extractLsb' 8 24 ++ xgmiiErrorL4D ++ s.auxDw, c := xgmiiErrorL4C,
      fsm := .qwIdle }
  else if !i.tlast then { r with tready := true }
  else { r with fsm := finish i.tkeep .l4Fin8B .l4Fin7B6B5B .l4Fin4B .l4Fin3B2B1B }

/-- `L4_FIN_3B_2B_1B`. -/
def l4Fin3B2B1BStep : Axis2Xgmii :=
  -- Four bytes wait, so the check sequence is split as with five to seven bytes from lane 0.
  let r :=
    if s.tkeepI.getLsbD 2 then
      let crc := ~~~ crcRev s.crc32_3B
      { s with
        auxVarCrc := crc, d := crc.extractLsb' 0 8 ++ s.tdataI.extractLsb' 0 24 ++ s.auxDw,
        fsm := .tLane3 }
    else if s.tkeepI.getLsbD 1 then
      let crc := ~~~ crcRev s.crc32_2B
      { s with
        auxVarCrc := crc, d := crc.extractLsb' 0 16 ++ s.tdataI.extractLsb' 0 16 ++ s.auxDw,
        fsm := .tLane2 }
    else if s.tkeepI.getLsbD 0 then
      let crc := ~~~ crcRev s.crc32_1B
      { s with
        auxVarCrc := crc, d := crc.extractLsb' 0 24 ++ s.tdataI.extractLsb' 0 8 ++ s.auxDw,
        fsm := .tLane1 }
    -- None of the three lanes is kept: the state is not left.
    else s
  { r with c := 0, crcReg := r.auxVarCrc }

/-- The registers after a clock edge without reset. -/
def adapter (i : AxisWord) : Axis2Xgmii :=
  match s.fsm with
  -- The column that the reset has loaded is sent once more.
  | .sres => { s with dic := 0, tready := true, fsm := .idleL0 }
  | .idleL0 => s.idleL0Step i
  | .stLane0 => s.stLane0Step i
  | .qwIdle => { s.quiet with tready := true, fsm := .idleL0 }
  | .l0Fin8B => { s with d := s.tdataI, c := 0, calctedCrc4B := ~~~ crcRev s.crc32, fsm := .tLane4 }
  | .tLane4 => { s with d := I.replicate 3 ++ T ++ s.calctedCrc4B, c := 0xF0, fsm := .qwIdle }
  | .l0Fin7B6B5B => s.l0Fin7B6B5BStep
  -- Behind an end in lanes 1 to 3 a half column or a whole one follows, as the deficit says.
  | .tLane3 =>
    let r := { s with d := I.replicate 4 ++ T ++ s.crcReg.extractLsb' 8 24, c := 0xF8 }
    if s.dic = 0 then { r with dic := 3, tready := true, fsm := .dwIdle }
    else { r with dic := s.dic - 1, fsm := .qwIdle }
  | .dwIdle => s.dwIdleStep i
  | .tLane2 =>
    let r := { s with d := I.replicate 5 ++ T ++ s.crcReg.extractLsb' 16 16, c := 0xFC }
    if s.dic < 2 then { r with dic := s.dic + 2, tready := true, fsm := .dwIdle }
    else { r with dic := s.dic - 2, fsm := .qwIdle }
  | .tLane1 =>
    let r := { s with d := I.replicate 6 ++ T ++ s.crcReg.extractLsb' 24 8, c := 0xFE }
    if s.dic < 3 then { r with dic := s.dic + 1, tready := true, fsm := .dwIdle }
    else { r with dic := 0, fsm := .qwIdle }
  | .l0Fin4B =>
    { s with d := ~~~ crcRev s.crc32_4B ++ s.tdataI.extractLsb' 0 32, c := 0, fsm := .tLane0 }
  | .tLane0 => { s with d := I.replicate 7 ++ T, c := 0xFF, tready := true, fsm := .dwIdle }
  | .l0Fin3B2B1B => s.l0Fin3B2B1BStep
  -- Behind an end in lanes 5 to 7 half a column more may follow.
  | .tLane7 =>
    let r := { s.quiet with tready := true }
    if s.dic = 0 then { r with dic := 3, fsm := .idleL0 }
    else { r with dic := s.dic - 1, fsm := .dwIdle }
  | .tLane6 =>
    let r := { s.quiet with tready := true }
    if s.dic < 2 then { r with dic := s.dic + 2, fsm := .idleL0 }
    else { r with dic := s.dic - 2, fsm := .dwIdle }
  | .tLane5 =>
    let r := { s.quiet with tready := true }
    if s.dic < 3 then { r with dic := s.dic + 1, fsm := .idleL0 }
    else { r with dic := 0, fsm := .dwIdle }
  | .stLane4 => s.stLane4Step i
  | .stLane4D => s.stLane4DStep i
  -- Behind a frame from lane 4 the upper half of the last word moves down for the next column.
  | .l4Fin8B =>
    { s with
      d := s.straddled, c := 0, tdataI := s.tdataI.extractLsb' 32 32 ++ s.tdataI.extractLsb' 32 32,
      crc32_4B := s.crc32, fsm := .l0Fin4B }
  | .l4Fin7B6B5B =>
    { s with
      d := s.straddled, c := 0, tdataI := s.tdataI.extractLsb' 32 32 ++ s.tdataI.extractLsb' 32 32,
      tkeepI := s.tkeepI.extractLsb' 3 5 ++ s.tkeepI.extractLsb' 4 3,
      crc32_1B := s.crc32_5B, crc32_2B := s.crc32_6B, crc32_3B := s.crc32_7B, fsm := .l0Fin3B2B1B }
  | .l4Fin4B =>
    { s with d := s.straddled, c := 0, calctedCrc4B := ~~~ crcRev s.crc32_4B, fsm := .tLane4 }
  | .l4Fin3B2B1B => s.l4Fin3B2B1BStep

/-- One clock edge. -/
def step (rst : Bool) (i : AxisWord) : Axis2Xgmii :=
  if rst then { s.quiet with tready := false, fsm := .sres } else s.adapter i

/-- The words that are taken from the stream at a clock edge. -/
def taken (i : AxisWord) : List AxisWord :=
  if s.tready && i.tvalid then [i] else []

end Axis2Xgmii

end MarketData.Xgmii
