import MarketData.Lib.WordBytes

/-! The Verilog parser `bats_parser`: registers, combinational wires and the clocked block. -/

namespace MarketData.Bats

/-- BATS.Parser.States. -/
inductive St where
  | noop
  | reset
  | readUnitHdr
  | readMsg
  deriving DecidableEq, Repr

/-- Outputs of the `AddOrder` subVI. -/
structure AddOrderOut where
  cmdType : BitVec 8
  add : Bool
  side : BitVec 8
  orderId : BitVec 64
  quantity : BitVec 32
  symbol : BitVec 64
  price : BitVec 64
  nanoseconds : BitVec 32

/-- The submodules whose files are not in the repository, as combinational functions. -/
structure Submodules where
  /-- `add_data_to_buffer`: buffer, length, data valid, data, byte enables. -/
  addDataToBuffer : BitVec 576 → BitVec 7 → Bool → BitVec 64 → BitVec 8 → BitVec 576 × BitVec 7
  /-- `new_uxx_be #(START, LEN)`. -/
  newUxxBe : Nat → Nat → BitVec 576 → BitVec 64
  /-- `AddOrder`. -/
  addOrder : BitVec 576 → AddOrderOut
  /-- `Time`: the seconds field. -/
  time : BitVec 576 → BitVec 32

/-- The OrderBook.Command outputs other than the strobe. -/
structure Command where
  cmdType : BitVec 8
  side : BitVec 8
  orderId : BitVec 64
  quantity : BitVec 32
  symbol : BitVec 64
  price : BitVec 64
  executedQty : BitVec 32
  canceledQty : BitVec 32
  remainingQty : BitVec 32
  seconds : BitVec 32
  nanoseconds : BitVec 32
  add : Bool
  edit : Bool
  remove : Bool
  seqNo : BitVec 32
  recvTime : BitVec 64
  parseTime : BitVec 64
  deriving DecidableEq

/-- Every register of the module, its output registers included. -/
structure Regs where
  state : St
  /-- Byte 0 at the most significant end. -/
  buffer : BitVec 576
  bufferLength : BitVec 7
  hdrLength : BitVec 16
  /-- Messages left in the unit. -/
  totalCounter : BitVec 16
  nextSeqNo : BitVec 32
  secondsR : BitVec 32
  recvTimeR : BitVec 64
  cmdValid : Bool
  cmd : Command
  dbgValid : Bool
  dbgData : BitVec 16

/-- The inputs sampled at one clock edge. -/
structure Inputs where
  reset : Bool
  dsDataValid : Bool
  /-- Byte 0 in the top byte. -/
  dsData : BitVec 64
  /-- The enable of byte 0 in bit 7. -/
  dsByteEnables : BitVec 8
  dsEofGood : Bool
  dsEofBad : Bool
  dsTimestamp : BitVec 64
  timeIn : BitVec 64

/-- `MSG_TIME`. -/
def msgTime : BitVec 8 := 0x20

/-- `MSG_ADD_ORDER_LONG`. -/
def msgAddOrderLong : BitVec 8 := 0x21

/-- `MSG_ADD_ORDER_SHORT`. -/
def msgAddOrderShort : BitVec 8 := 0x22

/-- `MSG_ORDER_EXECUTED`. -/
def msgOrderExecuted : BitVec 8 := 0x23

/-- `MSG_ORDER_EXECUTED_PS`. -/
def msgOrderExecutedPs : BitVec 8 := 0x24

/-- `MSG_ADD_ORDER_EXP`. -/
def msgAddOrderExp : BitVec 8 := 0x2F

/-- `TYPE_ORDER_EXECUTED`. -/
def typeOrderExecuted : BitVec 8 := 2

/-- `DBG_RESET`. -/
def dbgReset : BitVec 16 := 0xAA00

/-- `DBG_READ_HDR`. -/
def dbgReadHdr : BitVec 16 := 0xAA01

/-- `DBG_READ_MSG`. -/
def dbgReadMsg : BitVec 16 := 0xAA02

/-- `DBG_UNSUPPORTED`. -/
def dbgUnsupported : BitVec 16 := 0xA000

/-- `BUF_BYTES`: nine U64, as in the VI. -/
def bufBytes : Nat := 72

/-- Outputs of the `OrderExecuted` subVI. -/
structure OrderExecutedOut where
  cmdType : BitVec 8
  edit : Bool
  orderId : BitVec 64
  executedQty : BitVec 32
  remainingQty : BitVec 32
  price : BitVec 64
  nanoseconds : BitVec 32

/-- The `OrderExecuted` module: 0x24 carries a remaining quantity and a price, 0x23 does not. -/
def orderExecuted (sub : Submodules) (bufferIn : BitVec 576) : OrderExecutedOut :=
  let msgType := (sub.newUxxBe 1 1 bufferIn).setWidth 8
  let priced := msgType = msgOrderExecutedPs
  { cmdType := typeOrderExecuted
    edit := true
    orderId := sub.newUxxBe 6 8 bufferIn
    executedQty := (sub.newUxxBe 14 4 bufferIn).setWidth 32
    remainingQty := if priced then (sub.newUxxBe 18 4 bufferIn).setWidth 32 else 0#32
    price := if priced then sub.newUxxBe 30 8 bufferIn else 0#64
    nanoseconds := (sub.newUxxBe 2 4 bufferIn).setWidth 32 }

/-- The `compress_buffer` module: byte 0 is the top byte, so dropping the front shifts left. -/
def compressBuffer (bufferIn : BitVec 576) (bufferLengthIn consume : BitVec 7) :
    BitVec 576 × BitVec 7 :=
  (bufferIn <<< (8 * consume.toNat), bufferLengthIn - consume)

section Wires

variable (sub : Submodules) (i : Inputs) (r : Regs)

/-- The buffer after the append of this cycle's input word. -/
def abuf : BitVec 576 :=
  (sub.addDataToBuffer r.buffer r.bufferLength i.dsDataValid i.dsData i.dsByteEnables).1

/-- The length after the append. -/
def alen : BitVec 7 :=
  (sub.addDataToBuffer r.buffer r.bufferLength i.dsDataValid i.dsData i.dsByteEnables).2

/-- Message byte 0. -/
def msgLength : BitVec 8 := (abuf sub i r).extractLsb' 568 8

/-- Message byte 1. -/
def msgType : BitVec 8 := (abuf sub i r).extractLsb' 560 8

/-- Eight bytes are buffered. -/
def hdrReady : Bool := decide (8#7 ≤ alen sub i r)

/-- The length and type bytes are buffered. -/
def msgKnown : Bool := decide (2#7 ≤ alen sub i r)

/-- The message can never fit the buffer. -/
def msgMalformed : Bool :=
  msgKnown sub i r && (decide (msgLength sub i r = 0#8) || decide (72#8 < msgLength sub i r))

/-- The whole message is buffered; both sides are compared as eight-bit numbers. -/
def msgReady : Bool :=
  msgKnown sub i r && !msgMalformed sub i r &&
    decide (((msgLength sub i r).setWidth 7).setWidth 8 ≤ (alen sub i r).setWidth 8)

/-- `ready_for_udp_input`, a function of the registers alone. -/
def readyForUdpInput : Bool :=
  decide (r.state ≠ .reset) && decide (r.bufferLength.toNat ≤ bufBytes - 8)

/-- How many bytes this cycle takes from the front. -/
def consume : BitVec 7 :=
  -- The header and the message states take what is complete, the others nothing.
  if r.state = .readUnitHdr ∧ hdrReady sub i r then 8#7
  else if r.state = .readMsg ∧ msgReady sub i r then (msgLength sub i r).setWidth 7
  else 0#7

/-- The buffer after the consumed bytes are dropped. -/
def cbuf : BitVec 576 := (compressBuffer (abuf sub i r) (alen sub i r) (consume sub i r)).1

/-- The length after the consumed bytes are dropped. -/
def clen : BitVec 7 := (compressBuffer (abuf sub i r) (alen sub i r) (consume sub i r)).2

/-- The command registers a dispatched message starts from. -/
def freshCommand : Command :=
  { r.cmd with
    side := 0, orderId := 0, quantity := 0, symbol := 0, price := 0, executedQty := 0,
    canceledQty := 0, remainingQty := 0, nanoseconds := 0, add := false, edit := false,
    remove := false, seconds := r.secondsR, seqNo := r.nextSeqNo, recvTime := r.recvTimeR,
    parseTime := i.timeIn }

/-- The dispatch on the message type: command outputs, seconds and debug word. -/
def dispatch (next : Regs) : Regs :=
  -- Every dispatched message loads the command outputs and is reported on the debug port.
  let next := { next with dbgValid := true, dbgData := dbgReadMsg, cmd := freshCommand i r }
  -- A Time message sets the seconds and leads to no command.
  if msgType sub i r = msgTime then { next with secondsR := sub.time (abuf sub i r) }
  else if msgType sub i r = msgAddOrderLong ∨ msgType sub i r = msgAddOrderShort
      ∨ msgType sub i r = msgAddOrderExp then
    let ao := sub.addOrder (abuf sub i r)
    { next with
      cmdValid := true
      cmd := { next.cmd with
        cmdType := ao.cmdType, add := ao.add, side := ao.side, orderId := ao.orderId,
        quantity := ao.quantity, symbol := ao.symbol, price := ao.price,
        nanoseconds := ao.nanoseconds } }
  else if msgType sub i r = msgOrderExecuted ∨ msgType sub i r = msgOrderExecutedPs then
    let oe := orderExecuted sub (abuf sub i r)
    { next with
      cmdValid := true
      cmd := { next.cmd with
        cmdType := oe.cmdType, edit := oe.edit, orderId := oe.orderId,
        executedQty := oe.executedQty, remainingQty := oe.remainingQty, price := oe.price,
        nanoseconds := oe.nanoseconds } }
  -- The other types are consumed without a command.
  else { next with dbgData := dbgUnsupported }

/-- One rising clock edge; later assignments override earlier ones. -/
def step : Regs :=
  -- The strobes last one cycle.
  let next := { r with cmdValid := false, dbgValid := false }
  -- A valid word brings its stamp, which a command of this cycle does not see yet.
  let next := if i.dsDataValid then { next with recvTimeR := i.dsTimestamp } else next
  if i.reset then { next with state := .reset }
  else
    let next := match r.state with
      -- Behind a reset all registers are cleared and a header is awaited.
      | .reset =>
        { next with
          buffer := 0, bufferLength := 0, hdrLength := 0, totalCounter := 0, nextSeqNo := 0,
          secondsR := 0, dbgValid := true, dbgData := dbgReset, state := .readUnitHdr }
      | .readUnitHdr =>
        let next := if hdrReady sub i r then
            { next with
              hdrLength := (sub.newUxxBe 0 2 (abuf sub i r)).setWidth 16
              totalCounter := (sub.newUxxBe 2 1 (abuf sub i r)).setWidth 16
              nextSeqNo := (sub.newUxxBe 4 4 (abuf sub i r)).setWidth 32
              dbgValid := true, dbgData := dbgReadHdr, state := .readMsg }
          else next
        { next with buffer := cbuf sub i r, bufferLength := clen sub i r }
      | .readMsg =>
        -- A length byte of zero or of more than the buffer can never be served.
        if msgMalformed sub i r then
          -- defensive flush and re-arm
          { next with buffer := 0, bufferLength := 0, state := .readUnitHdr }
        else
          let next := if msgReady sub i r then
              let next := dispatch sub i r next
              { next with
                nextSeqNo := r.nextSeqNo + 1#32
                totalCounter := r.totalCounter - 1#16
                state := if r.totalCounter ≤ 1#16 then .readUnitHdr else .readMsg }
            else next
          { next with buffer := cbuf sub i r, bufferLength := clen sub i r }
      -- No other state leads here; the words that arrive are kept.
      | .noop => { next with buffer := abuf sub i r, bufferLength := alen sub i r }
    -- Bad end of frame: discard the tail, whatever this cycle did.
    if i.dsDataValid ∧ i.dsEofBad ∧ r.state ≠ .reset then
      { next with buffer := 0, bufferLength := 0, state := .readUnitHdr }
    else next

end Wires

/-- The registers after a sequence of clock edges. -/
def run (sub : Submodules) (r : Regs) (is : List Inputs) : Regs :=
  is.foldl (fun r i => step sub i r) r

end MarketData.Bats
