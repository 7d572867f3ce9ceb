import Mathlib.Order.Filter.AtTopBot.Basic
import MarketData.Aixml.Generator

/-! What the lines of a diagram mean: where a wire can be seen and the value it carries. -/

namespace MarketData.Aixml

/-- The wires an element reads. -/
def Op.reads : Op → List Net
  | .control | .constant _ _ | .caseFrame _ _ | .freeLabel _ | .tunnelOutputs _ => []
  | .call buffer start length => [buffer, start, length]
  | .convert _ number => [number]
  | .and x y | .or x y => [x, y]
  | .caseStructure selectin => [selectin]
  | .tunnelInputs _ value => [value]
  | .unbundle cluster => [cluster]
  | .bundle elements => elements
  | .bundleByName inputs cluster => inputs.map Prod.snd ++ [cluster]
  | .indicator _ value => [value]

/-- The terminals an element has outputs at. -/
def Op.terminals : Op → List Terminal
  | .control | .constant _ _ | .tunnelOutputs _ => [.value]
  | .call _ _ _ => [.outValueU64]
  | .convert kind _ => [.number kind]
  | .and _ _ => [.andOut]
  | .or _ _ => [.orOut]
  | .unbundle _ => (List.range 17).map .element
  | .bundle _ | .bundleByName _ _ => [.outputCluster]
  | .caseStructure _ | .caseFrame _ _ | .freeLabel _ | .tunnelInputs _ _ | .indicator _ _ => []

/-- The wires a line produces. -/
def Line.outputs (l : Line) : List Net :=
  l.op.terminals.map fun t => ⟨l.uid, t⟩

/-- The line with a given number. -/
def lineOf (L : List Line) (u : Nat) : Option Line :=
  L.find? fun l => l.uid = u

/-- The scope of an element's wires: its frame or the root; for a tunnel on the border of a
structure it is the scope around the structure. -/
def Line.scope (L : List Line) (l : Line) : Option Nat :=
  match l.parent with
  | none => none
  | some p =>
    match lineOf L p with
    -- A tunnel of a structure has its terminals outside.
    | some ⟨.caseStructure _, _, around⟩ => around
    | _ => some p

/-- A wire is produced by an element of a scope. -/
def Produced (L : List Line) (scope : Option Nat) (n : Net) : Prop :=
  ∃ l ∈ L, n ∈ l.outputs ∧ l.scope L = scope

/-- The line of the frame that a case structure selects: that of the value, or the default. -/
def selectedFrame (L : List Line) (cs : Nat) (value : Nat) : Option Nat :=
  let frames := L.filterMap fun l =>
    match l.op with
    | .caseFrame sel isDefault => if l.parent = some cs then some (sel, isDefault, l.uid) else none
    | _ => none
  -- The default frame is taken where no frame has the value.
  ((frames.find? fun fr => fr.1 = value).or (frames.find? fun fr => fr.2.1)).map (·.2.2)

/-- The wire that enters a tunnel of a frame or of a structure. -/
def tunnelNet (L : List Line) (parent : Nat) (id : TunnelId) : Option Net :=
  L.findSome? fun l =>
    match l.op with
    | .tunnelInputs id' n => if id' = id ∧ l.parent = some parent then some n else none
    | _ => none

/-- The wire at the other side of a tunnel: that of the structure when seen from a frame, that of
the selected frame when seen from the structure. -/
def tunnelSource (L : List Line) (σ : Net → Option Value) (parent : Nat) (id : TunnelId) :
    Option Net :=
  (lineOf L parent).bind fun border =>
    match border.op with
    -- Into a frame: what is wired to the structure from outside.
    | .caseFrame _ _ => border.parent.bind fun cs => tunnelNet L cs id
    -- Out of a structure: what the selected frame wires to the tunnel.
    | .caseStructure selectin =>
      match σ selectin with
      | some (.scalar (.uint _ value)) =>
        (selectedFrame L parent value).bind fun fr => tunnelNet L fr id
      | _ => none
    | _ => none

/-- A scalar, when the value is one. -/
def Value.scalar? : Value → Option Scalar
  | .scalar s => some s
  | _ => none

/-- `Bundle By Name` replaces a field by a value of its type; dotted names do not resolve. -/
def replaceNamed (σ : Net → Option Value) (components : List Scalar) (f : Field) (n : Net) :
    Option (List Scalar) :=
  match σ n, components[f.index]? with
  | some (.scalar s), some old =>
    if s.ty = old.ty ∧ f.dotted = false then some (components.set f.index s) else none
  | _, _ => none

/-- A reader of buffers: the bytes, where to start and how many bytes to read. -/
abbrev Stub := List Byte → Nat → Nat → Nat

/-- The value of an element at one of its terminals, from the values of the wires it reads. -/
def result (stub : Stub) (buffer : List Byte) (L : List Line) (σ : Net → Option Value)
    (l : Line) (t : Terminal) : Option Value :=
  match l.op, t with
  | .control, .value => some (.buffer buffer)
  -- A constant outside the range of its type is no constant.
  | .constant _ (.scalar s), .value => if s.Fits then some (.scalar s) else none
  | .constant _ v, .value => some v
  -- The subVI takes both numbers as U8 and returns a U64.
  | .call b s n, .outValueU64 =>
    match σ b, σ s, σ n with
    | some (.buffer bytes), some (.scalar (.uint .u8 start)), some (.scalar (.uint .u8 length)) =>
      some (.scalar (.uint .u64 (stub bytes start length)))
    | _, _, _ => none
  -- To a shorter type the upper bits are dropped.
  | .convert kind n, .number kind' =>
    match σ n with
    | some (.scalar (.uint _ x)) =>
      if kind = kind' then some (.scalar (.uint kind (x % kind.range))) else none
    | _ => none
  | .and x y, .andOut =>
    match σ x, σ y with
    | some (.scalar (.uint .u64 a)), some (.scalar (.uint .u64 b)) =>
      some (.scalar (.uint .u64 (a &&& b)))
    | _, _ => none
  | .or x y, .orOut =>
    match σ x, σ y with
    | some (.scalar (.uint .u64 a)), some (.scalar (.uint .u64 b)) =>
      some (.scalar (.uint .u64 (a ||| b)))
    | _, _ => none
  | .tunnelOutputs id, .value =>
    l.parent.bind fun p => (tunnelSource L σ p id).bind σ
  | .unbundle n, .element i =>
    match σ n with
    | some (.cluster components) => components[i]?.map .scalar
    | _ => none
  | .bundle elements, .outputCluster =>
    (elements.mapM fun n => (σ n).bind Value.scalar?).map .cluster
  -- One name after the other; a single one that does not fit spoils the bundle.
  | .bundleByName inputs n, .outputCluster =>
    match σ n with
    | some (.cluster components) =>
      (inputs.foldlM (fun components (f, n) => replaceNamed σ components f n) components).map
        .cluster
    | _ => none
  | _, _ => none

/-- The value on a wire, followed back to its sources for as many steps as there is fuel. -/
def value (stub : Stub) (buffer : List Byte) (L : List Line) : Nat → Net → Option Value
  | 0, _ => none
  | fuel + 1, n =>
    (lineOf L n.uid).bind fun l => result stub buffer L (value stub buffer L fuel) l n.terminal

/-- The indicator: its type and the wire it shows. -/
def indicatorOf (L : List Line) : Option (List Ty × Net) :=
  L.findSome? fun l =>
    match l.op with
    | .indicator types n => some (types, n)
    | _ => none

/-- A run of the VI on a buffer: the cluster at its indicator, when it has the indicator's type. -/
def evaluate (stub : Stub) (buffer : List Byte) (L : List Line) (fuel : Nat) :
    Option (List Scalar) :=
  (indicatorOf L).bind fun (types, n) =>
    match value stub buffer L fuel n with
    | some (.cluster components) =>
      if components.map Scalar.ty = types then some components else none
    | _ => none

/-- A wire carries a value: whenever there is enough fuel, the evaluation gives it. -/
def Evaluates (stub : Stub) (buffer : List Byte) (L : List Line) (n : Net) (v : Value) : Prop :=
  ∀ᶠ fuel in Filter.atTop, value stub buffer L fuel n = some v

end MarketData.Aixml
