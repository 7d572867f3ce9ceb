import MarketData.Netlist.Traffic
import MarketData.Xgmii.Streaming
import MarketData.Xgmii.Transmission

/-! From the wire to the parser: the frames that a stream of columns carries are reported. -/

namespace MarketData.Xgmii

/-- One cycle of an output as the reader sees it; the last signal belongs to a valid word. -/
def AxisWord.cycle (w : AxisWord) : Row where
  td := w.tdata
  tk := w.tkeep
  tl := w.tvalid && w.tlast
  fno := 0
  tv := w.tvalid

namespace Xgmii2Axis

variable {s : Xgmii2Axis}

end Xgmii2Axis

namespace Loopback

/-- What stands on an output of the receiver after each clock edge without reset. -/
def shown (port : Port) : Loopback → List AxisWord → List AxisWord
  | _, [] => []
  | m, i :: is => (m.step false i).rx.out port :: shown port (m.step false i) is

variable {m : Loopback}

end Loopback

end MarketData.Xgmii
