import MarketData.Xgmii.CrcLaws

/-! The frames that a stream of columns carries, whoever receives it. -/

namespace MarketData.Xgmii

/-- One transfer of the interface: eight lanes, and a control flag for each. -/
structure Column where
  d : BitVec 64
  c : BitVec 8
  deriving DecidableEq

/-- A column of idle characters. -/
def Column.idle : Column where
  d := qwIdleD
  c := qwIdleC

/-- The lane in which a frame starts. -/
inductive Lane where
  | zero
  | four
  deriving DecidableEq

/-- A frame on the wire. -/
structure WireFrame where
  lane : Lane
  /-- What came behind the preamble, the check sequence included. -/
  received : List Byte
  /-- The control character that ended it was the terminate character. -/
  terminated : Bool
  deriving DecidableEq

/-- How far the stream has been understood. -/
inductive Phase where
  /-- Between frames. -/
  | hunting
  /-- Between frames, in the column behind a late end, where a start in lane 0 goes unseen. -/
  | settling
  /-- A frame has started in lane 4, and half of its preamble is still to come. -/
  | preamble
  | data (lane : Lane) (received : List Byte)
  deriving DecidableEq

/-- The lane of the first control character, if the lanes from it on are the control lanes. -/
def endLane (c : BitVec 8) : Option Nat :=
  (List.range 8).find? fun r => decide (c = 0xFF#8 <<< r)

/-- Where the search goes on behind a frame that ended in lane `r`. -/
def Lane.behind (lane : Lane) (r : Nat) : Phase :=
  match lane with
  | .zero => if 5 ≤ r then .settling else .hunting
  | .four => if 4 ≤ r then .settling else .hunting

/-- One column is understood; a frame that ends in it is given out. -/
def Phase.next (p : Phase) (col : Column) : Phase × Option WireFrame :=
  match p with
  | .hunting =>
    (if sofLane0 col.d col.c then .data .zero []
      else if sofLane4 col.d col.c then .preamble else .hunting, none)
  | .settling => (if sofLane4 col.d col.c then .preamble else .hunting, none)
  | .preamble =>
    (if col.c = 0#8 then .data .four (bytesLE 4 (col.d.extractLsb' 32 32)) else .hunting, none)
  | .data lane received =>
    if col.c = 0#8 then (.data lane (received ++ bytesLE 8 col.d), none)
    else match endLane col.c with
      | some r => (lane.behind r, some
          { lane, received := received ++ (bytesLE 8 col.d).take r,
            terminated := isTchar (byteLE col.d r) })
      | none => (.hunting, none)

/-- A frame breaks off in the column. -/
def Phase.Breaks (p : Phase) (col : Column) : Prop :=
  match p with
  | .data _ _ => col.c ≠ 0#8 ∧ endLane col.c = none
  | _ => False

/-- The frames of a stream. -/
def carried : Phase → List Column → List WireFrame
  | _, [] => []
  | p, col :: cols => (p.next col).2.toList ++ carried (p.next col).1 cols

/-- How far a stream is understood in the end. -/
def understood (p : Phase) (cols : List Column) : Phase :=
  cols.foldl (fun p col => (p.next col).1) p

/-- No frame of a stream breaks off. -/
def Whole : Phase → List Column → Prop
  | _, [] => True
  | p, col :: cols => ¬ p.Breaks col ∧ Whole (p.next col).1 cols

instance (p : Phase) (col : Column) : Decidable (p.Breaks col) :=
  match p with
  | .data _ _ => inferInstanceAs (Decidable (_ ∧ _))
  | .hunting | .settling | .preamble => inferInstanceAs (Decidable False)

/-- Whether a frame breaks off is decided column by column. -/
def decidableWhole : (p : Phase) → (cols : List Column) → Decidable (Whole p cols)
  | _, [] => .isTrue trivial
  | p, col :: cols =>
    have := decidableWhole (p.next col).1 cols
    inferInstanceAs (Decidable (_ ∧ _))

instance (p : Phase) (cols : List Column) : Decidable (Whole p cols) :=
  decidableWhole p cols

/-- The payload of a frame that was terminated and whose check sequence is right. -/
def WireFrame.checked (f : WireFrame) : Option (List Byte) :=
  let n := f.received.length - 4
  if 4 < f.received.length ∧ f.terminated ∧ f.received.drop n = bytesLE 4 (fcs (f.received.take n))
  then some (f.received.take n) else none

/-- A frame that is no longer than a check sequence is not good. -/
theorem WireFrame.checked_short {f : WireFrame} (short : f.received.length ≤ 4) :
    f.checked = none := by
  rw [WireFrame.checked, if_neg]
  rintro ⟨long, -⟩
  omega

/-- The payloads of the good frames of a stream. -/
def goodPayloads (cols : List Column) : List (List Byte) :=
  (carried .hunting cols).filterMap WireFrame.checked

/-- The frame began in lane 4 and ended in the column behind its preamble, with a few bytes. -/
def WireFrame.Runt (f : WireFrame) : Prop :=
  f.lane = .four ∧ 4 < f.received.length ∧ f.received.length < 8

instance (f : WireFrame) : Decidable f.Runt :=
  inferInstanceAs (Decidable (_ ∧ _))

/-- The control lanes of a column that ends a frame are those from one lane on. -/
theorem endLane_some {c : BitVec 8} {r : Nat} (ends : endLane c = some r) :
    r < 8 ∧ c = 0xFF#8 <<< r := by
  have found := List.find?_some ends
  have member := List.mem_of_find?_eq_some ends
  exact ⟨List.mem_range.mp member, of_decide_eq_true found⟩

/-- A run of control lanes is found. -/
theorem endLane_lanes {c : BitVec 8} {r : Nat} (small : r < 8) (control : c = 0xFF#8 <<< r) :
    endLane c = some r := by
  -- One lane at a time.
  have all : ∀ m : Fin 8, endLane (0xFF#8 <<< m.val) = some m.val := by decide
  rw [control]
  exact all ⟨r, small⟩

/-- The control lanes of any other column are not such a run. -/
theorem endLane_none {c : BitVec 8} (none : endLane c = none) {r : Nat} (small : r < 8) :
    c ≠ 0xFF#8 <<< r := by
  have missed := List.find?_eq_none.mp none r (List.mem_range.mpr small)
  simpa using missed

/-- A column of data goes on with the frame. -/
theorem Phase.next_data {col : Column} (data : col.c = 0#8) (lane : Lane) (received : List Byte) :
    (Phase.data lane received).next col = (.data lane (received ++ bytesLE 8 col.d), none) := by
  rw [Phase.next, if_pos data]

/-- A column whose control lanes are those from one lane on ends the frame. -/
theorem Phase.next_ends {col : Column} {r : Nat} (ends : endLane col.c = some r) (lane : Lane)
    (received : List Byte) :
    (Phase.data lane received).next col = (lane.behind r, some
      { lane, received := received ++ (bytesLE 8 col.d).take r,
        terminated := isTchar (byteLE col.d r) }) := by
  -- A column of data has no such lanes.
  have control : col.c ≠ 0#8 := by
    intro data
    have missed : endLane 0#8 = none := rfl
    rw [data, missed] at ends
    cases ends
  rw [Phase.next, if_neg control, ends]

/-- Any other column breaks the frame off. -/
theorem Phase.next_breaks {col : Column} (data : col.c ≠ 0#8) (missed : endLane col.c = none)
    (lane : Lane) (received : List Byte) :
    (Phase.data lane received).next col = (.hunting, none) := by
  rw [Phase.next, if_neg data, missed]

/-- The frames of a stream are those of its parts. -/
theorem carried_append (p : Phase) (cols later : List Column) :
    carried p (cols ++ later) = carried p cols ++ carried (understood p cols) later := by
  -- Column by column.
  induction cols generalizing p with
  | nil => rfl
  | cons col cols ih =>
    rw [List.cons_append, carried, carried, ih, List.append_assoc]
    rfl

/-- Idle columns between frames carry nothing and break nothing off. -/
theorem idles_between (n : Nat) :
    understood .hunting (List.replicate n Column.idle) = .hunting ∧
      carried .hunting (List.replicate n Column.idle) = [] ∧
      Whole .hunting (List.replicate n Column.idle) := by
  -- An idle column starts nothing.
  induction n with
  | zero => exact ⟨rfl, rfl, trivial⟩
  | succ n ih =>
    obtain ⟨hunting, nothing, whole⟩ := ih
    exact ⟨hunting, nothing, id, whole⟩

/-- Idle columns in a row do no more than one of them. -/
theorem understood_idle (p : Phase) (cols : List Column) (n : Nat) :
    understood p (cols ++ List.replicate (n + 1) Column.idle) = .hunting ∧
      carried p (cols ++ List.replicate (n + 1) Column.idle) = carried p (cols ++ [Column.idle]) := by
  -- The first one ends every frame, and the others do nothing.
  have ended : ∀ q : Phase, (q.next Column.idle).1 = .hunting := by
    intro q
    cases q with
    | data lane received =>
      have control : endLane Column.idle.c = some 0 := rfl
      rw [Phase.next_ends control]
      cases lane <;> rfl
    | _ => rfl
  obtain ⟨hunting, nothing, -⟩ := idles_between n
  have one : understood p (cols ++ [Column.idle]) = .hunting := by
    rw [understood, List.foldl_append]
    exact ended _
  have parts : cols ++ List.replicate (n + 1) Column.idle =
      (cols ++ [Column.idle]) ++ List.replicate n Column.idle := by
    rw [List.append_assoc]
    rfl
  constructor
  · have both : understood p (cols ++ List.replicate (n + 1) Column.idle) =
        understood (understood p (cols ++ [Column.idle])) (List.replicate n Column.idle) := by
      rw [parts]
      exact List.foldl_append
    rw [both, one, hunting]
  · rw [parts, carried_append, one, nothing, List.append_nil]

/-- A stream has no broken frames when its parts have none. -/
theorem whole_append {p : Phase} {cols later : List Column} :
    Whole p (cols ++ later) ↔ Whole p cols ∧ Whole (understood p cols) later := by
  -- Column by column.
  induction cols generalizing p with
  | nil => exact (and_iff_right trivial).symm
  | cons col cols ih => exact (and_congr_right fun _ => ih).trans and_assoc.symm

/-- Frames that are all good have the payloads of the good ones. -/
theorem payloads_checked {fs : List WireFrame} {ps : List (List Byte)}
    (good : fs.map WireFrame.checked = ps.map some) : fs.filterMap WireFrame.checked = ps := by
  have all := congrArg (List.filterMap id) good
  rwa [List.filterMap_map, Function.id_comp, List.filterMap_map, Function.id_comp,
    List.filterMap_some] at all

end MarketData.Xgmii
