import MarketData.Netlist.Completeness
import MarketData.Netlist.PaddedFrames

/-! From the beats of the generator to the parser's reports: no frame is lost or mixed up. -/

namespace MarketData

/-- `sum(1 << i for i, b in enumerate(be) if b)`: the keep of the enabled lanes. -/
def keepOf (be : Vector Bool 8) : BitVec 8 :=
  BitVec.ofNat 8 (((List.range 8).filter fun i => be.toList.getD i false).map (1 <<< ·)).sum

/-- What the receive path hands to the parser in a cycle of this frame number. -/
def Bus.elem (b : Bus) (fno : Nat) : Elem :=
  { frameNo := fno, data8 := b.data, keep := keepOf b.be, valid := b.valid, eof := b.eog || b.eob }

/-- The cycles of `run`: 64 idle ones whenever the frame number changes, 200 at the end.

An idle cycle holds the data of the last row. Without any row `run` tags the idle cycles at the
end with -1, and they reach no element. -/
def runCycles : List Row → Option Nat → Word × BitVec 8 → List Row
  | [], lastF, hold =>
    List.replicate 200
      { td := hold.1, tk := hold.2, tl := false, fno := lastF.getD 0, tv := false }
  | r :: rows, lastF, hold =>
    (if some r.fno ≠ lastF then
      List.replicate 64 { td := hold.1, tk := hold.2, tl := false, fno := r.fno, tv := false }
    else []) ++ r :: runCycles rows (some r.fno) (r.td, r.tk)

/-- One pass of the loop of `run`: the receive path, then the parser on what comes out. -/
def runCycle (s : RxPath × P) (r : Row) : Option (RxPath × P) :=
  match s.1.step r.bus with
  | none => none
  | some (rx, o) => some (rx, if o.isElement then s.2.step (o.elem r.fno) else s.2)

/-- `run`: the beats through the receive path into one parser variant. -/
def run (beats : List Row) (hdrClear msgLtClear : Bool) : Option P :=
  ((runCycles (padBeats beats) none (0#64, 0#8)).foldlM runCycle
    (RxPath.fresh, P.fresh hdrClear msgLtClear)).map Prod.snd

/-- The elements handed to the parser along some cycles. -/
def elements (rows : List Row) (outs : List Bus) : List Elem :=
  (rows.zip outs).filterMap fun c => if c.2.isElement then some (c.2.elem c.1.fno) else none

/-- The loop of `run` is a run of the receive path and a feed of its elements. -/
theorem foldlM_runCycle (rows : List Row) :
    ∀ {c c' : RxPath} {outs : List Bus} (p : P),
      runOn RxPath.step c (rows.map Row.bus) = some (c', outs) →
      rows.foldlM runCycle (c, p) = some (c', p.feed (elements rows outs)) := by
  -- Induction on the cycles: the parser sees an element in the cycle that delivers it.
  induction rows with
  | nil =>
    intro c c' outs p answered
    simp only [List.map_nil, runOn, Option.some.injEq, Prod.mk.injEq] at answered
    obtain ⟨rfl, rfl⟩ := answered
    rfl
  | cons r rows ih =>
    intro c c' outs p answered
    obtain ⟨c₁, o, later, first, rest, rfl⟩ := runOn_cons_some answered
    have here : runCycle (c, p) r = some (c₁, if o.isElement then p.step (o.elem r.fno) else p) := by
      simp only [runCycle, first]
    rw [List.foldlM_cons, here, Option.bind_eq_bind, Option.bind_some, ih _ rest]
    cases heard : o.isElement with
    | true => simp [elements, heard]
    | false => simp [elements, heard]

/-- An element is what it was on the bus, under some frame number. -/
def Tagged (e : Elem) (w : Bus) : Prop :=
  ∃ fno, e = w.elem fno

/-- The elements of a run are its elements on the bus. -/
theorem elements_tagged {rows : List Row} {outs : List Bus} (same : outs.length = rows.length) :
    List.Forall₂ Tagged (elements rows outs) (outs.filter Bus.isElement) := by
  -- Induction on the cycles; both lists skip the cycles without an element.
  induction rows generalizing outs with
  | nil =>
    rw [List.length_nil, List.length_eq_zero_iff] at same
    subst same
    exact .nil
  | cons r rows ih =>
    cases outs with
    | nil => cases same
    | cons o outs =>
      have rest := @ih outs (by simpa using same)
      cases heard : o.isElement with
      | true => simpa [elements, heard, Tagged] using rest
      | false => simpa [elements, heard] using rest

/-- The keep of the first lanes is that of as many low bits. -/
theorem keepOf_firstLanes {n : Nat} (small : n ≤ 8) : keepOf (firstLanes n) = lowKeep n := by
  -- Nine cases are possible, and each is evaluated.
  have all : ∀ m : Fin 9, keepOf (firstLanes m.val) = lowKeep m.val := by decide
  exact all ⟨n, by omega⟩

/-- A bus word of a packet is an element with a contiguous keep and the same bytes. -/
theorem Tagged.reads {e : Elem} {w : Bus} (tagged : Tagged e w) {n : Nat} (small : n ≤ 8)
    (valid : w.valid = true) (eob : w.eob = false) (be : w.be = firstLanes n) :
    e.valid = true ∧ e.Contiguous ∧ e.eof = w.eog ∧ e.bytes = w.data.toList.take n := by
  -- The keep of the lanes counts the enabled bytes.
  obtain ⟨fno, rfl⟩ := tagged
  have keep : (w.elem fno).keep = lowKeep n := by
    rw [Bus.elem, be]
    exact keepOf_firstLanes small
  refine ⟨valid, ⟨n, small, keep⟩, by simp [Bus.elem, eob], ?_⟩
  rw [Elem.bytes, keep, numOfTrue_lowKeep small]
  exact if_pos valid

/-- A packet on the bus is delivered to the parser byte by byte. -/
theorem Packet.delivered {ws : List Bus} {bs : List Byte} (packet : Packet ws bs) :
    ∀ {es : List Elem}, List.Forall₂ Tagged es ws → Delivered es bs := by
  -- The elements follow the words of the packet.
  induction packet with
  | last w n some small valid eog eob be =>
    intro es tagged
    obtain ⟨e, rest, first, none, rfl⟩ := List.forall₂_cons_right_iff.mp tagged
    rw [List.forall₂_nil_right_iff] at none
    subst none
    obtain ⟨valid', keep, eof, bytes⟩ := first.reads small valid eob be
    have length : w.data.toList.length = 8 := w.data.length_toList
    have nonempty : e.bytes ≠ [] := by
      rw [bytes, ← List.length_pos_iff, List.length_take, length]
      omega
    rw [← bytes]
    exact .last e valid' keep nonempty (eof.trans eog)
  | @more w ws bs valid eog eob be _ ih =>
    intro es tagged
    obtain ⟨e, rest, first, others, rfl⟩ := List.forall₂_cons_right_iff.mp tagged
    obtain ⟨valid', keep, eof, bytes⟩ := first.reads (Nat.le_refl 8) valid eob be
    have length : w.data.toList.length = 8 := w.data.length_toList
    rw [List.take_of_length_le (by omega)] at bytes
    have nonempty : e.bytes ≠ [] := by
      rw [bytes, ← List.length_pos_iff, length]
      decide
    rw [← bytes]
    exact .more e valid' keep nonempty (eof.trans eog) (ih others)

/-- The beats of a frame carry its number, also with pad beats. -/
theorem padBeats_frameRows_fno (fno : Nat) (f : List Byte) :
    ∀ r ∈ padBeats (frameRows fno f), r.fno = fno := by
  -- Every row of the generator has the number, and padding copies it.
  have numbered : ∀ r ∈ frameRows fno f, r.fno = fno := by
    intro r member
    obtain ⟨i, _, rfl⟩ := List.mem_map.mp member
    rfl
  intro r member
  obtain ⟨row, inside, padding⟩ := List.mem_flatMap.mp member
  have number := numbered row inside
  split at padding
  · -- A pad beat has the number of the beat it follows.
    simp only [List.mem_cons, List.not_mem_nil, or_false] at padding
    rcases padding with rfl | rfl <;> exact number
  · rw [List.mem_singleton.mp padding]
    exact number

/-- Rows of the current frame follow each other without a gap. -/
theorem runCycles_same {fno : Nat} (rows later : List Row) (hold : Word × BitVec 8)
    (same : ∀ r ∈ rows, r.fno = fno) :
    ∃ hold', runCycles (rows ++ later) (some fno) hold = rows ++ runCycles later (some fno) hold' := by
  -- Induction on the rows; the number does not change, so no idle cycles are inserted.
  induction rows generalizing hold with
  | nil => exact ⟨hold, rfl⟩
  | cons r rows ih =>
    obtain ⟨number, rest⟩ := List.forall_mem_cons.mp same
    obtain ⟨hold', cycles⟩ := ih (r.td, r.tk) rest
    exact ⟨hold', by simp [runCycles, number, cycles]⟩

/-- The cycles of `run` send every frame of the generator and drain the path. -/
theorem runCycles_sent (fs : List (List Byte)) (some : ∀ f ∈ fs, 0 < f.length) :
    ∀ (k : Nat) (lastF : Option Nat) (hold : Word × BitVec 8), (∀ j ∈ lastF, j < k) →
      Sent 200 (fs.zipIdx k)
        (runCycles (padBeats ((fs.zipIdx k).flatMap fun f => frameRows f.2 f.1)) lastF hold) := by
  -- Induction on the frames: each number is new, so 64 idle cycles stand before its rows.
  induction fs with
  | nil =>
    intro k lastF hold _
    have idle : runCycles (padBeats (([].zipIdx k).flatMap fun f => frameRows f.2 f.1)) lastF hold =
        List.replicate 200
          { td := hold.1, tk := hold.2, tl := false, fno := lastF.getD 0, tv := false } := rfl
    rw [idle]
    exact .done (fun r member => by rw [(List.mem_replicate.mp member).2]; exact ⟨rfl, rfl⟩)
      (Nat.le_of_eq List.length_replicate.symm)
  | cons f fs ih =>
    intro k lastF hold before
    obtain ⟨nonempty, others⟩ := List.forall_mem_cons.mp some
    have words := padBeats_packet k f nonempty
    have numbered := padBeats_frameRows_fno k f
    rw [List.zipIdx_cons, List.flatMap_cons, padBeats_append]
    generalize beats : padBeats (frameRows k f) = rows at words numbered ⊢
    cases rows with
    | nil => exact absurd words (by rintro ⟨⟩)
    | cons r rows =>
      obtain ⟨number, rest⟩ := List.forall_mem_cons.mp numbered
      have fresh : Option.some r.fno ≠ lastF := by
        rintro rfl
        have := before r.fno rfl
        omega
      obtain ⟨hold', cycles⟩ := runCycles_same rows
        (padBeats ((fs.zipIdx (k + 1)).flatMap fun f => frameRows f.2 f.1)) (r.td, r.tk) rest
      have sent := ih others (k + 1) (Option.some k) hold' (by rintro j ⟨⟩; omega)
      rw [List.cons_append, runCycles, if_pos fresh, number, cycles, ← List.cons_append,
        ← List.append_assoc, ← beats]
      exact .frame (fun q member => by rw [(List.mem_replicate.mp member).2]; exact ⟨rfl, rfl⟩) sent

/-- More idle cycles at the end drain the path as well. -/
theorem Sent.drained {more drain : Nat} {fs : List (List Byte × Nat)} {rows : List Row}
    (sent : Sent more fs rows) (fewer : drain ≤ more) : Sent drain fs rows := by
  -- Induction on the frames; only the idle cycles at the end are compared.
  induction sent with
  | done idle long => exact .done idle (Nat.le_trans fewer long)
  | frame idle _ ih => exact .frame idle ih

/-- A datagram for the station whose payload is a sequenced unit of messages. -/
structure UnitDatagram where
  udp : UdpFrame
  unit : Frame 8 65
  payload : udp.payload = unit.payload

/-- The words of a unit, and at most seven more bytes. -/
def CarriesUnit (unit : Frame 8 65) (ws : List Bus) : Prop :=
  ∃ pad, pad.length < 8 ∧ Packet ws (unit.payload ++ pad)

/-- Delivered units are reported one after another from every cleared state. -/
theorem P.reports_units (units : List (Frame 8 65)) :
    ∀ {packets : List (List Bus)} {es : List Elem} {p : P},
      List.Forall₂ CarriesUnit units packets →
      List.Forall₂ Tagged es packets.flatten → p.Bounded true true → p.Cleared →
      p.Reports (p.feed es) (units.map fun u => u.payload.length)
        (units.flatMap fun u => items u.messages) := by
  -- One unit leaves the parser cleared, which is where the next one starts.
  induction units with
  | nil =>
    intro packets es p carried tagged _ _
    rw [List.forall₂_nil_left_iff] at carried
    subst carried
    rw [List.flatten_nil, List.forall₂_nil_right_iff] at tagged
    subst tagged
    exact ⟨by simp, by simp⟩
  | cons u units ih =>
    intro packets es p carried tagged bounded cleared
    rw [List.forall₂_cons_left_iff] at carried
    obtain ⟨ws, packets, ⟨pad, few, packet⟩, others, rfl⟩ := carried
    rw [List.flatten_cons] at tagged
    have front := List.forall₂_take_append _ _ _ tagged
    have back := List.forall₂_drop_append _ _ _ tagged
    obtain ⟨final, reports⟩ := (packet.delivered front).from_cleared few bounded cleared
    have later := ih others back (bounded.feed _) final
    rw [← List.take_append_drop ws.length es, P.feed_append, List.map_cons, List.flatMap_cons]
    exact reports.trans later

/-- Delivered frames are reported one after another from every cleared state. -/
theorem P.reports_frames (frames : List UnitDatagram) {packets : List (List Bus)} {es : List Elem}
    {p : P} (carried : List.Forall₂ (CarriesFrom 42) (frames.map UnitDatagram.udp) packets)
    (tagged : List.Forall₂ Tagged es packets.flatten) (bounded : p.Bounded true true)
    (cleared : p.Cleared) :
    p.Reports (p.feed es) (frames.map fun f => f.udp.payload.length)
      (frames.flatMap fun f => items f.unit.messages) := by
  -- Behind the headers a frame carries its unit and the pad bytes.
  have units : List.Forall₂ CarriesUnit (frames.map UnitDatagram.unit) packets := by
    rw [List.forall₂_map_left_iff] at carried ⊢
    refine carried.imp fun f ws packet => ?_
    have few := (f.udp.after_length 42).2.1
    rw [CarriesFrom, f.udp.after_payload, f.payload] at packet
    exact ⟨_, by rw [List.length_replicate]; omega, packet⟩
  have reports := P.reports_units _ units tagged bounded cleared
  rw [List.map_map, List.flatMap_map] at reports
  simp only [UnitDatagram.payload]
  exact reports

/-- Every frame's length and every message come out of the fully clearing variant, in order. -/
theorem run_recovers (frames : List UnitDatagram) :
    ∃ p, run (genFrames (frames.map fun f => f.udp.bytes)) true true = some p ∧
      p.hdrs.map Prod.snd = frames.map (fun f => f.udp.payload.length) ∧
      p.msgs.map Prod.snd = frames.flatMap fun f => items f.unit.messages := by
  -- The cycles are sent frames, the receive path delivers them, and the parser reports them.
  have long : ∀ f ∈ frames.map fun f => f.udp.bytes, 0 < f.length := by
    intro f member
    obtain ⟨frame, _, rfl⟩ := List.mem_map.mp member
    have := frame.udp.long
    omega
  have sent := runCycles_sent _ long 0 none (0#64, 0#8) (by rintro j ⟨⟩)
  rw [← genFrames] at sent
  generalize cycles : runCycles (padBeats (genFrames (frames.map fun f => f.udp.bytes))) none
    (0#64, 0#8) = rows at sent
  have drained : Sent 6 (((frames.map UnitDatagram.udp).map UdpFrame.bytes).zipIdx) rows := by
    rw [List.map_map]
    exact sent.drained (by decide)
  obtain ⟨c, outs, answered, framed⟩ := RxPath.framed _ drained
  obtain ⟨packets, carried, kept⟩ := framed.filter Bus.Quiet.not_element CarriesFrom.elements
  have tagged := elements_tagged ((runOn_length answered).trans (List.length_map _))
  rw [kept] at tagged
  have fresh : (P.fresh true true).Bounded true true := ⟨rfl, rfl, by decide⟩
  have reports := P.reports_frames frames carried tagged fresh ⟨rfl, rfl⟩
  refine ⟨(P.fresh true true).feed (elements rows outs), ?_, reports.hdrs, reports.msgs⟩
  rw [run, cycles, foldlM_runCycle rows _ answered]
  rfl

/-- The ten-byte message of the sample datagram. -/
def sampleTenBytes : Message 8 65 where
  bytes := [0x0A, 0x20, 1, 2, 3, 4, 5, 6, 7, 8]
  lengthByte := by decide
  lo_le := by decide
  le_hi := by decide

/-- The sample datagram and the unit in its payload. -/
def sampleDatagram : UnitDatagram where
  udp := sampleUdpFrame
  unit :=
    { header := [0x12, 0x00, 0x01, 0x01, 0x07, 0x00, 0x00, 0x00]
      messages := [sampleTenBytes]
      header_length := by decide
      nonempty := by decide
      lengthField := by decide }
  payload := by decide

/-- The end-to-end theorem at two sample datagrams. -/
theorem run_recovers_sample :
    ∃ p, run (genFrames [sampleUdpFrame.bytes, sampleUdpFrame.bytes]) true true = some p ∧
      p.hdrs.map Prod.snd = [18, 18] ∧ p.msgs.map Prod.snd = [(10, 0x20#8), (10, 0x20#8)] :=
  run_recovers [sampleDatagram, sampleDatagram]

end MarketData
