import MarketData.Lib.Handshake
import MarketData.Lib.Ring

/-! `simple_fifo`, the AXI4-Lite slave with a FIFO behind it, one clock edge at a time. -/

namespace MarketData

/-- The inputs at one clock edge; the protection and strobe signals are not read. -/
structure AxiInputs (dataW addrW : Nat) where
  aresetn : Bool
  awaddr : BitVec addrW
  awvalid : Bool
  wdata : BitVec dataW
  wvalid : Bool
  bready : Bool
  araddr : BitVec addrW
  arvalid : Bool
  rready : Bool

/-- The registers of `simple_fifo`, the outputs among them. -/
structure SimpleFifo (depthBits dataW addrW : Nat) where
  awready : Bool
  wready : Bool
  bresp : BitVec 2
  bvalid : Bool
  arready : Bool
  rdata : BitVec dataW
  rresp : BitVec 2
  rvalid : Bool
  mem : BitVec depthBits → BitVec dataW
  wp : BitVec (depthBits + 1)
  rp : BitVec (depthBits + 1)
  awLatched : BitVec addrW
  arLatched : BitVec addrW
  wDataLatched : BitVec dataW
  awTaken : Bool
  wTaken : Bool
  arTaken : Bool

/-- What a write does, by bits 3 and 2 of its address. -/
inductive WriteOp (α : Type) where
  | push (x : α)
  | clear
  | ignored
  deriving DecidableEq

/-- What a read does, by bits 3 and 2 of its address. -/
inductive ReadOp where
  | pop
  | count
  | status
  | zero
  deriving DecidableEq

variable {depthBits dataW addrW : Nat}

/-- The register of the map at an address. -/
def register (addr : BitVec addrW) : BitVec 2 :=
  addr.extractLsb' 2 2

/-- `case (aw_latched[3:2])`. -/
def writeOp (addr : BitVec addrW) (data : BitVec dataW) : WriteOp (BitVec dataW) :=
  if register addr = 0#2 then .push data else if register addr = 3#2 then .clear else .ignored

/-- `case (ar_latched[3:2])`. -/
def readOp (addr : BitVec addrW) : ReadOp :=
  if register addr = 0#2 then .pop else if register addr = 1#2 then .count
  else if register addr = 2#2 then .status else .zero

namespace SimpleFifo

variable (s : SimpleFifo depthBits dataW addrW)

/-- `empty`. -/
def empty : Bool :=
  decide (s.wp = s.rp)

/-- `full`: the same cell, on different revolutions. -/
def full : Bool :=
  decide (s.wp.setWidth depthBits = s.rp.setWidth depthBits) &&
    decide (s.wp.getLsbD depthBits ≠ s.rp.getLsbD depthBits)

/-- `count`. -/
def count : BitVec (depthBits + 1) :=
  s.wp - s.rp

/-- The write action is performed in this cycle. -/
def writes : Bool :=
  s.awTaken && s.wTaken && !s.bvalid

/-- The read action is performed in this cycle. -/
def reads : Bool :=
  s.arTaken && !s.rvalid

/-- A value is stored in this cycle. -/
def pushes : Bool :=
  s.writes && decide (register s.awLatched = 0#2) && !s.full

/-- The pointers are cleared in this cycle. -/
def clears : Bool :=
  s.writes && decide (register s.awLatched = 3#2)

/-- A value is taken out in this cycle. -/
def pops : Bool :=
  s.reads && decide (register s.arLatched = 0#2) && !s.empty

/-- The data that the read action returns. -/
def readData : BitVec dataW :=
  match readOp s.arLatched with
  | .pop => if !s.empty then s.mem (s.rp.setWidth depthBits) else 0
  | .count => s.count.setWidth dataW
  | .status => (BitVec.ofBool s.full ++ BitVec.ofBool s.empty).setWidth dataW
  | .zero => 0

/-- One clock edge; of two assignments to a register the last one holds. -/
def step (i : AxiInputs dataW addrW) : SimpleFifo depthBits dataW addrW :=
  if !i.aresetn then
    { s with
      awready := false, wready := false, bvalid := false, bresp := 0, awTaken := false,
      wTaken := false, arready := false, rvalid := false, rresp := 0, rdata := 0, arTaken := false,
      wp := 0, rp := 0 }
  else
    { -- AW handshake
      awready := if i.awvalid && s.awready then false
        else if !s.awTaken && !s.awready then true else s.awready
      awLatched := if i.awvalid && s.awready then i.awaddr else s.awLatched
      awTaken := if s.writes then false else if i.awvalid && s.awready then true else s.awTaken
      -- W handshake
      wready := if i.wvalid && s.wready then false
        else if !s.wTaken && !s.wready then true else s.wready
      wDataLatched := if i.wvalid && s.wready then i.wdata else s.wDataLatched
      wTaken := if s.writes then false else if i.wvalid && s.wready then true else s.wTaken
      -- B emit and write-side state mutation
      mem := if s.pushes then Function.update s.mem (s.wp.setWidth depthBits) s.wDataLatched
        else s.mem
      wp := if s.pushes then s.wp + 1 else if s.clears then 0 else s.wp
      bresp := if s.writes then 0 else s.bresp
      bvalid := if s.bvalid && i.bready then false else if s.writes then true else s.bvalid
      -- AR handshake
      arready := if i.arvalid && s.arready then false
        else if !s.arTaken && !s.arready then true else s.arready
      arLatched := if i.arvalid && s.arready then i.araddr else s.arLatched
      arTaken := if s.reads then false else if i.arvalid && s.arready then true else s.arTaken
      -- R emit and read-side state mutation; a pop comes after a clear of the same cycle
      rp := if s.pops then s.rp + 1 else if s.clears then 0 else s.rp
      rdata := if s.reads then s.readData else s.rdata
      rresp := if s.reads then 0 else s.rresp
      rvalid := if s.rvalid && i.rready then false else if s.reads then true else s.rvalid }

/-- The state after the cycles of an input waveform. -/
def run (is : List (AxiInputs dataW addrW)) : SimpleFifo depthBits dataW addrW :=
  after step s is

/-- A clock edge in reset left this state; memory and latches may hold anything. -/
def AfterReset : Prop :=
  ∃ (t : SimpleFifo depthBits dataW addrW) (i : AxiInputs dataW addrW),
    i.aresetn = false ∧ s = t.step i

end SimpleFifo

/-- The inputs of a cycle out of reset. -/
def AxiInputs.Running (i : AxiInputs dataW addrW) : Prop :=
  i.aresetn = true

namespace SimpleFifo

/-- The FIFO of the default parameters out of reset, its memory zero. -/
def started : SimpleFifo 8 32 5 where
  awready := false
  wready := false
  bresp := 0
  bvalid := false
  arready := false
  rdata := 0
  rresp := 0
  rvalid := false
  mem := fun _ => 0
  wp := 0
  rp := 0
  awLatched := 0
  arLatched := 0
  wDataLatched := 0
  awTaken := false
  wTaken := false
  arTaken := false

/-- A cycle in which the master only waits for responses. -/
def waitingInputs : AxiInputs 32 5 where
  aresetn := true
  awaddr := 0
  awvalid := false
  wdata := 0
  wvalid := false
  bready := true
  araddr := 0
  arvalid := false
  rready := true

/-- The state is one that a reset leaves. -/
theorem started_afterReset : started.AfterReset :=
  ⟨started, { waitingInputs with aresetn := false }, rfl, rfl⟩

end SimpleFifo

end MarketData
