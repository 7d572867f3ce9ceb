import MarketData.Lib.Within
import MarketData.Netlist.Parser
import MarketData.Netlist.BufferLaws
import MarketData.Netlist.ParserLaws
import MarketData.Netlist.Recovery
import MarketData.Netlist.Clearing
import MarketData.Netlist.Resync
import MarketData.Bats.Trace
import MarketData.Bats.Conservation
import MarketData.Bats.Progress
import MarketData.Bats.Accounting
import MarketData.Bats.Dispatch
import MarketData.Lib.Stage
import MarketData.Netlist.Filters
import MarketData.Netlist.Packets
import MarketData.Netlist.LinkLaws
import MarketData.Netlist.NetworkLaws
import MarketData.Netlist.Completeness
import MarketData.Netlist.EndToEnd
import MarketData.Netlist.Backlog
import MarketData.Netlist.PcapRecovery
import MarketData.Netlist.Fragments
import MarketData.Netlist.Selection
import MarketData.Netlist.Addressed
import MarketData.Axi.SimpleFifo
import MarketData.Axi.FifoQueue
import MarketData.Axi.Transactions
import MarketData.Server.Broker
import MarketData.Server.FanOut
import MarketData.Lib.LittleEndian
import MarketData.Server.Poller
import MarketData.Server.Framing
import MarketData.Server.Delivery
import MarketData.Lib.Fields
import MarketData.Lib.SortedSet
import MarketData.Server.Subscribe
import MarketData.Server.Subscription
import MarketData.Bats.FlushIndependence
import MarketData.Bench.ExpectedCount
import MarketData.Aixml.Generator
import MarketData.Aixml.Semantics
import MarketData.Aixml.Wiring
import MarketData.Aixml.Extraction
import MarketData.Aixml.Frames
import MarketData.Aixml.CaseStructure
import MarketData.Aixml.Cluster
import MarketData.Aixml.MessageVi
import MarketData.Bats.ReceiveTime
import MarketData.Netlist.Overflow
import MarketData.Netlist.StepAgreement
import MarketData.Lib.Chunks
import MarketData.Netlist.EthernetFrame
import MarketData.Netlist.Splitting
import MarketData.Bench.GenMessages
import MarketData.Lib.Numerals
import MarketData.Lib.Pattern
import MarketData.Server.Printing
import MarketData.Server.Decode
import MarketData.Lib.Json
import MarketData.Server.Hexdump
import MarketData.Netlist.Records
import MarketData.Netlist.CaptureAgreement
import MarketData.Lib.Pacing
import MarketData.Netlist.GapLink
import MarketData.Netlist.GapNetwork
import MarketData.Netlist.GapLoss
import MarketData.Netlist.Stuttering
import MarketData.Netlist.StutterInvariance
import MarketData.Axi.MyState
import MarketData.Lib.Packing
import MarketData.Pitch.Build
import MarketData.Bench.MyList
import MarketData.Netlist.BufferBytes
import MarketData.Lib.ShiftRegister
import MarketData.Xgmii.Includes
import MarketData.Xgmii.CrcLaws
import MarketData.Xgmii.Wire
import MarketData.Lib.Groups
import MarketData.Xgmii.Receiver
import MarketData.Xgmii.ReceiverLaws
import MarketData.Xgmii.Decoding
import MarketData.Xgmii.Delivery
import MarketData.Xgmii.Sending
import MarketData.Xgmii.Transmission
import MarketData.Xgmii.ErrorDetection
import MarketData.Lib.Potential
import MarketData.Xgmii.Gap
import MarketData.Xgmii.Readiness
import MarketData.Lib.Steady
import MarketData.Netlist.Traffic
import MarketData.Netlist.Delivered
import MarketData.Xgmii.Reporting
import MarketData.Xgmii.Streaming
