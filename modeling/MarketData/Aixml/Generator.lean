import MarketData.Lib.Emission
import MarketData.Bats.Reference

/-! The generator of message-type VIs: from a table entry to the lines of a block diagram. -/

namespace MarketData.Aixml

/-- The fields of `OrderBook.Command`. -/
inductive Field where
  | type | side | orderId | quantity | symbol | price | executedQty | canceledQty | remainingQty
  | seconds | nanoseconds | add | edit | remove | seqNo | recvTime | parseTime
  deriving DecidableEq

/-- The order of the fields in the cluster. -/
def clusterOrder : List Field :=
  [.type, .side, .orderId, .quantity, .symbol, .price, .executedQty, .canceledQty, .remainingQty,
    .seconds, .nanoseconds, .add, .edit, .remove, .seqNo, .recvTime, .parseTime]

/-- The name of a field; that of the order id ends in a blank. -/
def Field.name : Field → String
  | .type => "type"
  | .side => "side"
  | .orderId => "orderId "
  | .quantity => "quantity"
  | .symbol => "symbol"
  | .price => "price"
  | .executedQty => "executed.qty"
  | .canceledQty => "canceled.qty"
  | .remainingQty => "remaining.qty"
  | .seconds => "seconds"
  | .nanoseconds => "nanoseconds"
  | .add => "Add"
  | .edit => "Edit"
  | .remove => "Remove"
  | .seqNo => "seq no"
  | .recvTime => "recv.time"
  | .parseTime => "parse.time"

/-- Fields with a dot in their name cannot be addressed by name. -/
def Field.dotted (f : Field) : Bool :=
  f.name.toList.contains '.'

/-- The place of a field in the cluster. -/
def Field.index (f : Field) : Nat :=
  clusterOrder.idxOf f

/-- The unsigned integer types, which are also the lengths that can be read. -/
inductive Width where
  | u8 | u16 | u32 | u64
  deriving DecidableEq

/-- The length of an integer in bytes. -/
def Width.bytes : Width → Nat
  | .u8 => 1
  | .u16 => 2
  | .u32 => 4
  | .u64 => 8

/-- What an integer of this type stays below. -/
def Width.range (w : Width) : Nat :=
  256 ^ w.bytes

/-- The values of `orderbook.command.type` that exist. -/
def enumChoices : List String :=
  ["Time", "AddOrder", "OrderExecuted", "OrderExecutedAtPrice", "ReduceSize", "ModifyOrder",
    "DeleteOrder", "Get.Everything", "Get.All.Orders", "Get.Top"]

/-- The values with the two that a trade needs. -/
def enumExt : List String :=
  enumChoices ++ ["Trade", "Unsupported"]

/-- The types of the scalars on a diagram. -/
inductive Ty where
  | uint (w : Width)
  | enum (choices : List String)
  | bool
  deriving DecidableEq

/-- The type of a field, for a choice of enumeration values. -/
def Field.ty (choices : List String) : Field → Ty
  | .type => .enum choices
  | .side => .uint .u8
  | .orderId | .symbol | .price | .seconds | .nanoseconds | .recvTime | .parseTime => .uint .u64
  | .quantity | .executedQty | .canceledQty | .remainingQty | .seqNo => .uint .u32
  | .add | .edit | .remove => .bool

/-- The scalars on a diagram. -/
inductive Scalar where
  | uint (w : Width) (n : Nat)
  | enum (choices : List String) (n : Nat)
  | bool (b : Bool)
  deriving DecidableEq

/-- The type of a scalar. -/
def Scalar.ty : Scalar → Ty
  | .uint w _ => .uint w
  | .enum choices _ => .enum choices
  | .bool _ => .bool

/-- A scalar lies in the range of its type. -/
def Scalar.Fits : Scalar → Prop
  | .uint w n => n < w.range
  | .enum choices n => n < choices.length
  | .bool _ => True

/-- Whether a scalar is in range can be computed. -/
instance (s : Scalar) : Decidable s.Fits :=
  match s with
  | .uint w n => inferInstanceAs (Decidable (n < w.range))
  | .enum choices n => inferInstanceAs (Decidable (n < choices.length))
  | .bool _ => inferInstanceAs (Decidable True)

/-- Zero, or false. -/
def Ty.zero : Ty → Scalar
  | .uint w => .uint w 0
  | .enum choices => .enum choices 0
  | .bool => .bool false

/-- What travels along the wires of a diagram. -/
inductive Value where
  | scalar (s : Scalar)
  | cluster (components : List Scalar)
  | buffer (bytes : List Byte)
  deriving DecidableEq

/-- `CLUSTER_TYPES`, with the enumeration filled in. -/
def clusterTypes (choices : List String) : List Ty :=
  clusterOrder.map (Field.ty choices)

/-- `DEF`: the cluster with every field zero or false. -/
def defaultCluster (choices : List String) : Value :=
  -- The enumeration begins with its first value.
  .cluster ((clusterTypes choices).map Ty.zero)

/-- How bytes become a field: padded symbols, or a read with the type that is wanted. -/
inductive Extraction where
  | sym6 (start : Nat)
  | read (start : Nat) (length want : Width)
  deriving DecidableEq

/-- Where a listed field gets its value from. -/
inductive Target where
  | extract (x : Extraction)
  | enum (v : Nat)
  | const (s : Scalar)
  deriving DecidableEq

/-- A case of the case structure: its selector, the fields it gives and its label. -/
structure Frame where
  sel : Nat
  isDefault : Bool
  fields : List (Field × Target)
  label : String
  deriving DecidableEq

/-- An entry of the table of VIs. -/
structure Spec where
  extEnum : Bool
  typeValue : Option Nat
  flags : List (Field × Bool)
  frames : List Frame
  deriving DecidableEq

/-- Modify Order: the new quantity and price, long or short. -/
def modifyOrder : Spec where
  extEnum := false
  typeValue := some 5
  flags := [(.edit, true)]
  frames := [
    ⟨39, true, [(.quantity, .extract (.read 14 .u32 .u32)), (.price, .extract (.read 18 .u64 .u64))],
      "ModifyOrder (long)"⟩,
    ⟨40, false, [(.quantity, .extract (.read 14 .u16 .u32)), (.price, .extract (.read 16 .u16 .u64))],
      "ModifyOrder (short)"⟩]

/-- Delete Order: nothing but the order id. -/
def deleteOrder : Spec where
  extEnum := false
  typeValue := some 6
  flags := [(.remove, true)]
  frames := []

/-- Trade: long, short and expanded. -/
def trade : Spec where
  extEnum := true
  typeValue := some 10
  flags := []
  frames := [
    ⟨42, true, [(.side, .extract (.read 14 .u8 .u8)), (.quantity, .extract (.read 15 .u32 .u32)),
      (.symbol, .extract (.sym6 19)), (.price, .extract (.read 25 .u64 .u64))], "Trade (long)"⟩,
    ⟨43, false, [(.side, .extract (.read 14 .u8 .u8)), (.quantity, .extract (.read 15 .u16 .u32)),
      (.symbol, .extract (.sym6 17)), (.price, .extract (.read 23 .u16 .u64))], "Trade (short)"⟩,
    ⟨48, false, [(.side, .extract (.read 14 .u8 .u8)), (.quantity, .extract (.read 15 .u32 .u32)),
      (.symbol, .extract (.read 19 .u64 .u64)), (.price, .extract (.read 27 .u64 .u64))],
      "Trade (expanded)"⟩]

/-- Order Executed, and with the price and the remaining quantity. -/
def orderExecuted : Spec where
  extEnum := false
  typeValue := none
  flags := [(.edit, true)]
  frames := [
    ⟨35, true, [(.type, .enum 2), (.executedQty, .extract (.read 14 .u32 .u32)),
      (.remainingQty, .const (.uint .u32 0)), (.price, .const (.uint .u64 0))], "OrderExecuted"⟩,
    ⟨36, false, [(.type, .enum 3), (.executedQty, .extract (.read 14 .u32 .u32)),
      (.remainingQty, .extract (.read 18 .u32 .u32)), (.price, .extract (.read 30 .u64 .u64))],
      "OrderExecutedAtPriceSize"⟩]

/-- `SPECS`. -/
def specs : List (String × Spec) :=
  [("ModifyOrder", modifyOrder), ("DeleteOrder", deleteOrder), ("Trade", trade),
    ("OrderExecuted", orderExecuted)]

/-- The enumeration values an entry uses. -/
def Spec.choices (sp : Spec) : List String :=
  if sp.extEnum then enumExt else enumChoices

/-- The output terminals of the elements. -/
inductive Terminal where
  | value
  | outValueU64
  | number (w : Width)
  | andOut
  | orOut
  | element (i : Nat)
  | outputCluster
  deriving DecidableEq

/-- A wire, named by the element and the terminal it comes from. -/
structure Net where
  uid : Nat
  terminal : Terminal
  deriving DecidableEq

/-- The tunnels through the border of a case structure. -/
inductive TunnelId where
  | in1
  | out (k : Nat)
  deriving DecidableEq

/-- The elements that have a line of their own. Terminals that stay empty are left out. -/
inductive Op where
  | control
  | constant (name : String) (value : Value)
  | call (buffer start length : Net)
  | convert (kind : Width) (number : Net)
  | and (x y : Net)
  | or (x y : Net)
  | caseStructure (selectin : Net)
  | caseFrame (sel : Nat) (isDefault : Bool)
  | freeLabel (comment : String)
  /-- A tunnel whose line has `inputs`. -/
  | tunnelInputs (id : TunnelId) (value : Net)
  /-- A tunnel whose line has `outputs`. -/
  | tunnelOutputs (id : TunnelId)
  | unbundle (cluster : Net)
  | bundle (elements : List Net)
  | bundleByName (inputs : List (Field × Net)) (cluster : Net)
  | indicator (types : List Ty) (value : Net)

/-- A line: an element, its `uid` and its `uid_parent`, where none is `root`. -/
structure Line where
  op : Op
  uid : Nat
  parent : Option Nat

/-- `nid` and the line that gets the number. -/
def line (op : Op) (parent : Option Nat) : Emit Line Nat :=
  Emit.record fun u => { op, uid := u, parent }

/-- A constant. -/
def const (name : String) (value : Value) (parent : Option Nat) : Emit Line Net := do
  let u ← line (.constant name value) parent
  return ⟨u, .value⟩

/-- A call of the reader, with two constants for where to read and how much. -/
def call (bufnet : Net) (start length : Nat) (parent : Option Nat) : Emit Line Net := do
  -- The two constants get their numbers in front of the call.
  let s ← const "Start.Idx" (.scalar (.uint .u8 start)) parent
  let l ← const "Length" (.scalar (.uint .u8 length)) parent
  let u ← line (.call bufnet s l) parent
  return ⟨u, .outValueU64⟩

/-- A conversion to an unsigned integer type. -/
def conv (net : Net) (kind : Width) (parent : Option Nat) : Emit Line Net := do
  let u ← line (.convert kind net) parent
  return ⟨u, .number kind⟩

/-- Read a value and convert it to the cluster type. -/
def extract (bufnet : Net) (x : Extraction) (parent : Option Nat) : Emit Line Net :=
  match x with
  | .sym6 start => do
    -- Eight bytes are read; the low six stay and two spaces fill up.
    let raw ← call bufnet start 8 parent
    let m1 ← const "mask6" (.scalar (.uint .u64 281474976710655)) parent
    let u ← line (.and raw m1) parent
    let pad ← const "pad" (.scalar (.uint .u64 2314850208468434944)) parent
    let v ← line (.or ⟨u, .andOut⟩ pad) parent
    return ⟨v, .orOut⟩
  | .read start length want => do
    -- The type that is read is that of the length, and is converted if another one is wanted.
    let raw ← call bufnet start length.bytes parent
    let net ← conv raw length parent
    if want ≠ length then conv net want parent else return net

/-- A dictionary of wires; a later entry for a key replaces an earlier one. -/
abbrev Nets (κ : Type) := List (κ × Net)

/-- The wire of a listed field. -/
def fieldNet (choices : List String) (fb : Net) (parent : Option Nat) (field : Field) :
    Target → Emit Line Net
  | .enum v => const "type" (.scalar (.enum choices v)) parent
  -- A dot cannot stand in the name of a constant.
  | .const s =>
    const (field.name.map fun c => if c = '.' then '_' else c) (.scalar s) parent
  | .extract x => extract fb x parent

/-- The wires of the fields a frame lists. -/
def fieldNets (choices : List String) (fb : Net) (parent : Option Nat)
    (fields : List (Field × Target)) : Emit Line (Nets Field) :=
  fields.foldlM (fun nets (field, target) => do
    let net ← fieldNet choices fb parent field target
    return (field, net) :: nets) []

/-- A frame of the case structure, with a tunnel for each field of the first frame. -/
def caseFrame (choices : List String) (cs : Nat) (outs : List Field) (fd : Frame) :
    Emit Line Unit := do
  let fr ← line (.caseFrame fd.sel fd.isDefault) (some cs)
  let _ ← line (.freeLabel fd.label) (some fr)
  let tf ← line (.tunnelOutputs .in1) (some fr)
  -- The fields of the frame are wired up in its own order.
  let nets ← fieldNets choices ⟨tf, .value⟩ (some fr) fd.fields
  -- The tunnels are those of the first frame, so a field that is missing here raises.
  (outs.zipIdx 1).foldlM (fun _ (field, k) => do
    let net ← Emit.found (nets.lookup field)
    let _ ← line (.tunnelInputs (.out k) net) (some fr)) ()

/-- The wires for the final cluster: undotted fields by name, dotted ones by position. -/
structure Wires where
  byname : Nets Field
  positional : Nets Nat

/-- A further wire for a field. -/
def Wires.put (wires : Wires) (field : Field) (net : Net) : Wires :=
  -- A dotted name cannot be used at the terminal of a cluster.
  if field.dotted then { wires with positional := (field.index, net) :: wires.positional }
  else { wires with byname := (field, net) :: wires.byname }

/-- The case structure of an entry that has frames. -/
def caseStructure (choices : List String) (bufnet tb : Net) (frames : List Frame)
    (wires : Wires) : Emit Line Wires := do
  let cs ← line (.caseStructure tb) none
  let _ ← line (.tunnelInputs .in1 bufnet) (some cs)
  -- The order of the fields in the first frame is the order of the tunnels.
  let outs := (frames.head?.map fun fd => fd.fields.map Prod.fst).getD []
  frames.foldlM (fun _ fd => caseFrame choices cs outs fd) ()
  (outs.zipIdx 1).foldlM (fun wires (field, k) => do
    let tu ← line (.tunnelOutputs (.out k)) (some cs)
    return wires.put field ⟨tu, .value⟩) wires

/-- The wires behind the case structure, which is left out when there are no frames. -/
def frameWires (sp : Spec) (bufnet tb : Net) (wires : Wires) : Emit Line Wires :=
  if sp.frames.isEmpty then pure wires
  else caseStructure sp.choices bufnet tb sp.frames wires

/-- The enumeration value, when the entry fixes it. -/
def typeWire (sp : Spec) : Emit Line (Nets Field) :=
  match sp.typeValue with
  | some v => do
    let net ← const "OrderBook Command" (.scalar (.enum sp.choices v)) none
    return [(.type, net)]
  -- The frames have a value each.
  | none => pure []

/-- The flags of the entry. -/
def flagWires (sp : Spec) (byname : Nets Field) : Emit Line (Nets Field) :=
  sp.flags.foldlM (fun byname (f, v) => do
    let net ← const f.name (.scalar (.bool v)) none
    return (f, net) :: byname) byname

/-- The wires that every VI has, apart from the frames, and that of the type byte. -/
def commonWires (sp : Spec) (bufnet : Net) : Emit Line (Wires × Net) := do
  -- The type byte selects the frame, and every command has the time and the order id.
  let byname ← typeWire sp
  let byname ← flagWires sp byname
  let tb ← conv (← call bufnet 1 1 none) .u8 none
  let nanoseconds ← conv (← call bufnet 2 4 none) .u64 none
  let orderId ← conv (← call bufnet 6 8 none) .u64 none
  return (⟨(.orderId, orderId) :: (.nanoseconds, nanoseconds) :: byname, []⟩, tb)

/-- The dotted fields by position, when there are any. -/
def bundleDotted (base : Net) (positional : Nets Nat) : Emit Line Net :=
  if positional.isEmpty then pure base
  -- All components are unbundled, and those without a wire go back where they were.
  else do
    let ub ← line (.unbundle base) none
    let bd ← line (.bundle ((List.range 17).map fun i =>
      (positional.lookup i).getD ⟨ub, .element i⟩)) none
    return ⟨bd, .outputCluster⟩

/-- The order of the inputs of the final cluster is that of the cluster. -/
def bynameInputs (byname : Nets Field) : List (Field × Net) :=
  clusterOrder.filterMap fun f => (byname.lookup f).map fun net => (f, net)

/-- `main`, as far as the lines of the diagram go. -/
def diagram (sp : Spec) : Emit Line Unit := do
  -- The order of the calls is that of the numbers.
  let buf ← line .control none
  let base ← const "OrderBook.Command" (defaultCluster sp.choices) none
  let (wires, tb) ← commonWires sp ⟨buf, .value⟩
  let wires ← frameWires sp ⟨buf, .value⟩ tb wires
  let clusterNet ← bundleDotted base wires.positional
  let bb ← line (.bundleByName (bynameInputs wires.byname) clusterNet) none
  let _ ← line (.indicator (clusterTypes sp.choices) ⟨bb, .outputCluster⟩) none

/-- The lines of the VI of an entry; numbers start behind 1100. -/
def genMessageVi (sp : Spec) : Option (List Line) :=
  (diagram sp 1100).map fun (_, _, lines) => lines

end MarketData.Aixml
