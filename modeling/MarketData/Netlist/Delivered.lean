import MarketData.Netlist.Traffic

/-! Only frames for the station, as the filters see it, come through: their cycles and their bytes. -/

namespace MarketData

open NetFrame

/-- An unfragmented IPv4 frame as a frame on the network. -/
def Ipv4Frame.net (f : Ipv4Frame) : NetFrame where
  bytes := f.bytes
  long := f.long
  kind _ := by
    refine Or.inr ⟨f.version, ?_, f.unfragmented, f.offset⟩
    -- The total length is at least 46.
    rintro ⟨zero, small⟩
    have long := f.long
    have total := f.totalLength
    have low : (f.bytes.getD 17 0#8).toNat < 46 := small
    rw [zero, BitVec.toNat_ofNat] at total
    omega

/-- The frames that the path delivers are the wanted ones. -/
theorem Ipv4Frame.likeWanted_iff (f : Ipv4Frame) : f.LikeWanted ↔ f.net.Wanted := by
  -- Its version is that of IPv4 anyway.
  constructor
  · rintro ⟨⟨mac, ip⟩, udp, port⟩
    exact ⟨⟨mac, f.version, ip⟩, udp, port⟩
  · rintro ⟨⟨mac, -, ip⟩, udp, port⟩
    exact ⟨⟨mac, ip⟩, udp, port⟩

/-- The last byte of the frame gets through the filters, and their latency is waited for.

A last beat of seven or eight bytes needs the pad beats of the reader. -/
def Sending.Whole (s : Sending) : Prop :=
  (s.padded = true ∨ padBytes s.frame.bytes.length = 0) ∧ 7 ≤ s.idles.length

/-- What is delivered in the cycles of a frame: nothing, or its payload if the frame is wanted. -/
structure Sending.Delivers (s : Sending) (outs : List Bus) : Prop where
  cycles : outs.length = s.rows.length
  sound : ∀ o ∈ outs, o.valid = true → s.frame.LikeWanted
  payload : s.Whole → s.frame.LikeWanted → ∃ pad, pad.length ≤ 2 ∧
    Packet (outs.filter Bus.isElement) (s.frame.bytes.drop 42 ++ pad)

/-- A frame that is sent whole is a framed stream that carries all of its bytes. -/
theorem Sending.framed_whole {s : Sending} (idle : ∀ r ∈ s.idles, r.Idle) (whole : s.Whole) :
    Framed Bus.Quiet (Carries 0) 0 0 6 [s.frame.net] (s.rows.map Row.bus) := by
  -- Without pad beats there are no pad bytes.
  have long := s.frame.long
  have carries : Carries 0 s.frame.net ((if s.padded then padBeats (frameRows s.fno s.frame.bytes)
      else frameRows s.fno s.frame.bytes).map Row.bus) := by
    cases beats : s.padded with
    | true => exact ⟨_, List.length_replicate, padBeats_packet s.fno _ (by omega)⟩
    | false =>
      have none : padBytes s.frame.bytes.length = 0 :=
        whole.1.resolve_left (by rw [beats]; exact Bool.false_ne_true)
      refine ⟨[], none.symm, ?_⟩
      rw [List.append_nil]
      exact frameRows_packet s.fno s.frame.bytes (by omega)
  have cut : s.rows.map Row.bus = [] ++ (if s.padded then padBeats (frameRows s.fno s.frame.bytes)
      else frameRows s.fno s.frame.bytes).map Row.bus ++ [] ++ s.idles.map Row.bus := by
    rw [List.nil_append, List.append_nil, ← List.map_append, Sending.rows]
  have enough := whole.2
  rw [cut]
  refine .packet (by simp) (Nat.zero_le _) carries (by simp) rfl (.done (Row.Idle.quiet idle) ?_)
  rw [List.length_map]
  omega

/-- While a settled path is sent one frame, it delivers the payload or nothing, and settles. -/
theorem RxPath.Settled.sending {c : RxPath} (settled : c.Settled) {s : Sending}
    (idle : ∀ r ∈ s.idles, r.Idle) (enough : 7 ≤ s.idles.length) :
    ∃ c' outs, runOn RxPath.step c (s.rows.map Row.bus) = some (c', outs) ∧ c'.Settled ∧
      s.Delivers outs := by
  -- The outputs are a framed stream with this frame alone, one output for each cycle.
  obtain ⟨c', outs, runs, settled', framed⟩ := settled.frames (s.framed idle enough)
  have size := runOn_length runs
  refine ⟨c', outs, runs, settled', by simpa using size, framed.valid_origin, fun whole like => ?_⟩
  -- The same run, followed with all bytes of the frame, has its payload.
  obtain ⟨_, outs', packets, runs', -, kept, carried⟩ :=
    settled.hands_wanted (s.framed_whole idle whole)
  obtain ⟨-, rfl⟩ := Prod.mk.inj (Option.some.inj (runs.symm.trans runs'))
  rw [List.filter_cons, if_pos (decide_eq_true (s.frame.likeWanted_iff.mp like)), List.filter_nil]
    at carried
  obtain ⟨ws, _, carries, rest, rfl⟩ := List.forall₂_cons_left_iff.mp carried
  obtain rfl := List.forall₂_nil_left_iff.mp rest
  rw [kept, List.flatten_singleton]
  exact carries.payload

/-- The last frame may be followed by any number of idle cycles. -/
theorem RxPath.Settled.last {c : RxPath} (settled : c.Settled) {s : Sending}
    (idle : ∀ r ∈ s.idles, r.Idle) :
    ∃ c' outs, runOn RxPath.step c (s.rows.map Row.bus) = some (c', outs) ∧ s.Delivers outs := by
  -- Seven idle cycles are enough for the path to settle.
  by_cases enough : 7 ≤ s.idles.length
  · obtain ⟨c', outs, runs, -, delivers⟩ := settled.sending idle enough
    exact ⟨c', outs, runs, delivers⟩
  · -- The run is the start of one with more idle cycles at the end.
    let longer : Sending := { s with idles := s.idles ++ List.replicate 7 idleRow }
    have rows : longer.rows = s.rows ++ List.replicate 7 idleRow := by
      simp [longer, Sending.rows]
    have calm : ∀ r ∈ longer.idles, r.Idle := by
      intro r member
      rcases List.mem_append.mp member with here | there
      · exact idle r here
      · rw [(List.mem_replicate.mp there).2]
        exact ⟨rfl, rfl⟩
    obtain ⟨c', outs, runs, _, delivers⟩ := settled.sending calm (by simp [longer])
    rw [rows, List.map_append] at runs
    obtain ⟨c'', early⟩ := runOn_prefix runs
    refine ⟨c'', _, early, ?_, fun o member => ?_, fun whole => absurd whole.2 enough⟩
    · simpa using runOn_length early
    · exact delivers.sound o (List.mem_of_mem_take member)

/-- While a settled path is sent frames, it delivers the payloads of the wanted ones in turn. -/
theorem RxPath.Settled.sendings (ss : List Sending) :
    ∀ {c : RxPath}, c.Settled → Spaced ss →
      ∃ c' parts, runOn RxPath.step c ((ss.flatMap Sending.rows).map Row.bus) =
          some (c', parts.flatten) ∧ List.Forall₂ Sending.Delivers ss parts := by
  -- Induction on the frames; the idle cycles between two frames settle the path.
  induction ss with
  | nil => exact fun _ _ => ⟨_, [], rfl, .nil⟩
  | cons s ss ih =>
    intro c settled spaced
    cases ss with
    | nil =>
      obtain ⟨c', outs, runs, delivers⟩ := settled.last spaced
      exact ⟨c', [outs], by simpa using runs, .cons delivers .nil⟩
    | cons t ss =>
      obtain ⟨idle, enough, later⟩ := spaced
      obtain ⟨c₁, outs, run₁, settled₁, delivers⟩ := settled.sending idle (by omega)
      obtain ⟨c₂, parts, run₂, others⟩ := ih settled₁ later
      refine ⟨c₂, outs :: parts, ?_, .cons delivers others⟩
      rw [List.flatMap_cons, List.map_append, List.flatten_cons]
      exact runOn_append run₁ run₂

/-- What is delivered frame by frame appears in the cycles of the wanted frames. -/
theorem Sending.Delivers.origins {ss : List Sending} {parts : List (List Bus)}
    (delivered : List.Forall₂ Sending.Delivers ss parts) :
    List.Forall₂ (fun o origin => o.valid = true → ∃ f ∈ origin, f.LikeWanted) parts.flatten
      (ss.flatMap fun s => s.rows.map fun _ => some s.frame) := by
  -- One frame after the other; each has one output for every cycle.
  induction delivered with
  | nil => exact .nil
  | @cons s outs ss parts delivers _ ih =>
    rw [List.flatten_cons, List.flatMap_cons]
    refine List.rel_append (List.forall₂_iff_zip.mpr ⟨by simpa using delivers.cycles, ?_⟩) ih
    intro o origin paired valid
    obtain ⟨output, source⟩ := List.of_mem_zip paired
    obtain ⟨_, _, rfl⟩ := List.mem_map.mp source
    exact ⟨s.frame, rfl, delivers.sound o output valid⟩

/-- Every delivered element comes from a frame whose addresses match byte by byte.

The protocol is UDP and the port is the station's; a byte of an address matches when it is the
station's byte or 255. In the cycles of such a frame the elements carry its payload, and at most two
pad bytes. -/
theorem delivered_like_station (lead : List Row) (ss : List Sending)
    (calm : ∀ r ∈ lead, r.Idle) (spaced : Spaced ss) :
    ∃ c outs, runOn RxPath.step RxPath.fresh ((driven lead ss).map Row.bus) = some (c, outs) ∧
      List.Forall₂ (fun o origin => o.valid = true → ∃ f ∈ origin, f.LikeWanted) outs
        (origins lead ss) ∧
      ∃ parts, outs.drop lead.length = parts.flatten ∧
        List.Forall₂ Sending.Delivers ss parts := by
  -- Idle cycles in front leave a settled path and deliver nothing.
  obtain ⟨c, early, run, settled, silent⟩ := RxPath.fresh_settled.idles (Row.Idle.quiet calm)
  obtain ⟨c', parts, runs, delivered⟩ := settled.sendings ss spaced
  have size : early.length = lead.length := by simpa using runOn_length run
  refine ⟨c', early ++ parts.flatten, ?_, List.rel_append ?_ (Sending.Delivers.origins delivered),
    parts, by rw [← size, List.drop_left], delivered⟩
  · rw [driven, List.map_append]
    exact runOn_append run runs
  · refine List.forall₂_iff_zip.mpr ⟨by simpa using size, ?_⟩
    intro o origin paired valid
    have invalid := (silent o (List.of_mem_zip paired).1).1
    exact absurd (invalid.symm.trans valid) Bool.false_ne_true

/-- A frame for the station or for everyone: whole addresses, the UDP protocol and the port. -/
structure Ipv4Frame.Addressed (f : Ipv4Frame) : Prop where
  mac : f.bytes.take 6 = macAddr.toList ∨ f.bytes.take 6 = List.replicate 6 0xFF#8
  ip : (f.bytes.drop 30).take 4 = ipAddr.toList ∨
    (f.bytes.drop 30).take 4 = List.replicate 4 0xFF#8
  port : f.ForPort

/-- A datagram for the station whose destination MAC has 255 in place of its first byte. -/
def mixedFrame : Ipv4Frame where
  bytes :=
    [0xFF, 0x0A, 0x35, 0x18, 0x3C, 0x1F, 0x02, 0x00, 0x00, 0x00, 0x00, 0x01, 0x08, 0x00,
     0x45, 0x00, 0x00, 0x2E, 0x12, 0x34, 0x40, 0x00, 0x40, 0x11, 0x00, 0x00,
     0x0A, 0x00, 0x00, 0x01, 0x0A, 0x00, 0x01, 0x0E,
     0x1F, 0x40, 0x1F, 0x40, 0x00, 0x1A, 0x00, 0x00,
     0x12, 0x00, 0x01, 0x01, 0x07, 0x00, 0x00, 0x00, 0x0A, 0x20, 1, 2, 3, 4, 5, 6, 7, 8]
  long := by decide
  version := by decide
  totalLength := by decide
  unfragmented := by decide
  offset := by decide

/-- The frame followed by some idle cycles. -/
def mixedSending (idles : Nat) : Sending :=
  ⟨mixedFrame, 0, false, List.replicate idles idleRow⟩

/-- The frame is delivered, although its destination is neither the station nor everyone. -/
theorem mixed_address_delivered :
    ¬ ∀ (lead : List Row) (ss : List Sending), (∀ r ∈ lead, r.Idle) → Spaced ss →
      ∃ c outs, runOn RxPath.step RxPath.fresh ((driven lead ss).map Row.bus) = some (c, outs) ∧
        List.Forall₂ (fun o origin => o.valid = true → ∃ f ∈ origin, f.Addressed) outs
          (origins lead ss) := by
  -- The path delivers a valid word of the frame, so the frame would have to be addressed.
  intro always
  obtain ⟨c, outs, runs, addressed⟩ := always [] [mixedSending 6] (by simp)
    (by simp [Spaced, mixedSending, Row.Idle, idleRow])
  have delivers : ((runOn RxPath.step RxPath.fresh ((driven [] [mixedSending 6]).map Row.bus)).any
      fun r => r.2.any Bus.valid) = true := by decide +kernel
  rw [runs, Option.any_some, List.any_eq_true] at delivers
  obtain ⟨o, member, valid⟩ := delivers
  obtain ⟨k, inside, rfl⟩ := List.getElem_of_mem member
  have source : ∃ origin ∈ origins [] [mixedSending 6], ∃ f ∈ origin, f.Addressed := by
    have bound : k < (origins [] [mixedSending 6]).length := addressed.length_eq ▸ inside
    exact ⟨_, List.getElem_mem bound, addressed.get inside bound valid⟩
  obtain ⟨origin, sent, f, from_, whole⟩ := source
  have same : origin = some mixedFrame := by
    simp only [origins, List.map_nil, List.nil_append, List.flatMap_cons, List.flatMap_nil,
      List.append_nil, List.mem_map] at sent
    obtain ⟨_, _, rfl⟩ := sent
    rfl
  subst same
  obtain rfl : mixedFrame = f := by simpa using from_
  rcases whole.mac with station | everyone
  · exact absurd station (by decide)
  · exact absurd everyone (by decide)

/-- The soundness theorem at two frames, 64 idle cycles between them. -/
theorem delivered_like_station_sample :
    ∃ c outs, runOn RxPath.step RxPath.fresh
        ((driven [idleRow] [mixedSending 64, mixedSending 6]).map Row.bus) = some (c, outs) ∧
      List.Forall₂ (fun o origin => o.valid = true → ∃ f ∈ origin, f.LikeWanted) outs
        (origins [idleRow] [mixedSending 64, mixedSending 6]) ∧
      ∃ parts, outs.drop 1 = parts.flatten ∧
        List.Forall₂ Sending.Delivers [mixedSending 64, mixedSending 6] parts :=
  delivered_like_station [idleRow] [mixedSending 64, mixedSending 6] (by simp [Row.Idle, idleRow])
    (by simp [Spaced, mixedSending, Row.Idle, idleRow])

end MarketData
