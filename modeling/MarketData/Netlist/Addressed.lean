import MarketData.Netlist.Selection

/-! Only frames for the station, as the filters see it, come through the receive path. -/

namespace MarketData

/-- A frame that is sent, with or without the pad beats of the reader, and the idle cycles after it. -/
structure Sending where
  frame : Ipv4Frame
  fno : Nat
  padded : Bool
  idles : List Row

/-- The beats of the frame without a gap, then the idle cycles. -/
def Sending.rows (s : Sending) : List Row :=
  let beats := frameRows s.fno s.frame.bytes
  (if s.padded then padBeats beats else beats) ++ s.idles

/-- Only idle cycles after each frame, at least 64 of them between two frames. -/
def Spaced : List Sending → Prop
  | [] => True
  | [s] => ∀ r ∈ s.idles, r.Idle
  | s :: t :: ss => (∀ r ∈ s.idles, r.Idle) ∧ 64 ≤ s.idles.length ∧ Spaced (t :: ss)

/-- The cycles in which the frames are sent, behind some idle cycles. -/
def driven (lead : List Row) (ss : List Sending) : List Row :=
  lead ++ ss.flatMap Sending.rows

/-- For every cycle the frame whose sending was begun last. -/
def origins (lead : List Row) (ss : List Sending) : List (Option Ipv4Frame) :=
  (lead.map fun _ => none) ++ ss.flatMap fun s => s.rows.map fun _ => some s.frame

/-- Every stage is between packets, and what it puts out next is quiet. -/
structure RxPath.Settled (c : RxPath) : Prop where
  mac : c.mac.Idle
  macAhead : ∀ e ∈ macStage.ahead c.mac, e.Silent
  sub : c.sub.Idle
  subAhead : ∀ e ∈ subStage.ahead c.sub, e.Silent
  ip4 : c.ip4.Idle
  ip4Ahead : ∀ e ∈ keyedStage.ahead c.ip4, e.1.Quiet
  udp : c.udp.Idle

/-- The path is constructed settled. -/
theorem RxPath.fresh_settled : RxPath.fresh.Settled where
  -- Every register is silent behind a reset.
  mac := rfl
  macAhead := by
    have none : Vector.replicate 8 false = firstLanes 0 := by decide
    simp [macStage, RxPath.fresh, MacFilter.fresh, MacFilter.second, Bus.Silent, Bus.Quiet, none]
  sub := rfl
  subAhead := by decide
  ip4 := ⟨rfl, rfl, rfl⟩
  ip4Ahead := by
    have quiet : ∀ b : Bus, b.Quiet → (Ipv4Filter.fresh.keyed b).1.Quiet := fun _ quiet => quiet
    simp only [keyedStage, RxPath.fresh, List.forall_mem_cons, List.not_mem_nil, false_imp_iff,
      implies_true, and_true]
    exact ⟨quiet _ (by decide), quiet _ (by decide)⟩
  udp := ⟨rfl, rfl⟩

/-- A settled path passes the wanted frames on, drops the others, and settles again. -/
theorem RxPath.Settled.frames {c : RxPath} (settled : c.Settled) {frames : List Ipv4Frame}
    {is : List Bus} (sent : Framed Bus.Quiet CarriesIpv4 0 2 (0 + 2 + 1 + 2) frames is) :
    ∃ c' outs, runOn RxPath.step c is = some (c', outs) ∧ c'.Settled ∧
      Framed Bus.Quiet (Selects Ipv4Frame.LikeWanted fun _ ws => Train ws) 0 0 0 frames outs := by
  -- Each stage turns a framed stream into a framed stream, its latency taken from the end.
  obtain ⟨m, o₁, run₁, framed₁, idle₁, calm₁⟩ := mac_selects.settles (fun _ => rfl) settled.mac
    settled.macAhead sent
  rw [show macStage.view = id from rfl, List.map_id] at framed₁
  obtain ⟨s, o₂, run₂, framed₂, idle₂, calm₂⟩ := sub_selects.settles (fun _ => rfl) settled.sub
    settled.subAhead framed₁
  rw [show subStage.view = id from rfl, List.map_id] at framed₂
  have input₃ : Framed Bus.Silent (Selects Ipv4Frame.LikeMac CarriesPacket) 0 1 (0 + 2) frames o₂ :=
    framed₂
  obtain ⟨g, o₃, run₃, framed₃, idle₃, calm₃⟩ := ipv4_selects.settles (fun _ => rfl) settled.ip4
    settled.ip4Ahead input₃
  have input₄ : Framed (fun x => (keyedStage.view x).1.Quiet)
      (fun f xs => Selects Ipv4Frame.LikeStation CarriesDatagram f (xs.map keyedStage.view)) 0 0
      (0 + 0) frames o₃ := framed₃.of_map rfl
  obtain ⟨u, o₄, run₄, framed₄, idle₄, _⟩ := udp_selects.settles (fun _ => rfl) settled.udp
    (by simp [udpStage]) input₄
  rw [show udpStage.view = id from rfl, List.map_id] at framed₄
  exact ⟨⟨m, s, g, u⟩, o₄, RxPath.runOn_stages _ run₁ run₂ run₃ run₄,
    ⟨idle₁, calm₁, idle₂, calm₂, idle₃, calm₃, idle₄⟩, framed₄⟩

/-- A settled path stays settled in idle cycles and delivers nothing. -/
theorem RxPath.Settled.idles {c : RxPath} (settled : c.Settled) {is : List Bus}
    (still : ∀ q ∈ is, q.Quiet) :
    ∃ c' outs, runOn RxPath.step c is = some (c', outs) ∧ c'.Settled ∧ ∀ o ∈ outs, o.Quiet := by
  -- What each stage puts out is quiet for the next one.
  obtain ⟨m, o₁, run₁, idle₁, calm₁, quiet₁⟩ := mac_selects.rests settled.mac settled.macAhead still
  obtain ⟨s, o₂, run₂, idle₂, calm₂, quiet₂⟩ := sub_selects.rests settled.sub settled.subAhead quiet₁
  obtain ⟨g, o₃, run₃, idle₃, calm₃, quiet₃⟩ :=
    ipv4_selects.rests settled.ip4 settled.ip4Ahead quiet₂
  obtain ⟨u, o₄, run₄, idle₄, _, quiet₄⟩ :=
    udp_selects.rests settled.udp (by simp [udpStage]) quiet₃
  exact ⟨⟨m, s, g, u⟩, o₄, RxPath.runOn_stages _ run₁ run₂ run₃ run₄,
    ⟨idle₁, calm₁, idle₂, calm₂, idle₃, calm₃, idle₄⟩, quiet₄⟩

/-- A quiet cycle between packets has a word of no packet, any other one a word of its packet. -/
theorem Framed.valid_origin {f : Ipv4Frame} {outs : List Bus} {P : Ipv4Frame → Prop}
    (framed : Framed Bus.Quiet (Selects P fun _ ws => Train ws) 0 0 0 [f] outs) :
    ∀ o ∈ outs, o.valid = true → P f := by
  -- A valid word is in the packet, and only a selected frame has one.
  intro o member valid
  have silent : ∀ q : Bus, q.Quiet → q.valid = true → P f :=
    fun q quiet valid => absurd (quiet.1.symm.trans valid) Bool.false_ne_true
  cases framed with
  | @packet _ _ qs ws ts s calm _ selects after _ rest =>
    cases rest with
    | done idle _ =>
      simp only [List.mem_append] at member
      rcases member with ((early | word) | gap) | late
      · exact silent o (calm o early) valid
      · rcases selects with ⟨selected, _⟩ | ⟨_, rfl⟩
        · exact selected
        · exact absurd word List.not_mem_nil
      · exact silent o (after o gap) valid
      · exact silent o (idle o late) valid

/-- The word on the wire of an idle cycle is quiet. -/
theorem Row.Idle.quiet {idles : List Row} (idle : ∀ r ∈ idles, r.Idle) :
    ∀ q ∈ idles.map Row.bus, q.Quiet := by
  -- Neither valid nor last is set, and there are no bad ends.
  intro q member
  obtain ⟨r, inside, rfl⟩ := List.mem_map.mp member
  exact ⟨(idle r inside).1, (idle r inside).2, rfl⟩

/-- A frame with enough idle cycles after it is a framed stream. -/
theorem Sending.framed {s : Sending} (idle : ∀ r ∈ s.idles, r.Idle) (enough : 7 ≤ s.idles.length) :
    Framed Bus.Quiet CarriesIpv4 0 2 5 [s.frame] (s.rows.map Row.bus) := by
  -- Two idle cycles belong to the frame, and the others end the stream.
  have long := s.frame.long
  have words : CarriesIpv4 s.frame ((if s.padded then padBeats (frameRows s.fno s.frame.bytes)
      else frameRows s.fno s.frame.bytes).map Row.bus) := by
    cases s.padded with
    | true => exact Packet.leads 6 (padBeats_packet s.fno _ (by omega)) (by omega)
    | false =>
      have packet : Packet ((frameRows s.fno s.frame.bytes).map Row.bus) (s.frame.bytes ++ []) := by
        rw [List.append_nil]
        exact frameRows_packet s.fno s.frame.bytes (by omega)
      exact Packet.leads 6 packet (by omega)
  have quiet := Row.Idle.quiet idle
  have cut : s.rows.map Row.bus = [] ++ (if s.padded then padBeats (frameRows s.fno s.frame.bytes)
      else frameRows s.fno s.frame.bytes).map Row.bus ++ (s.idles.map Row.bus).take 2 ++
        (s.idles.map Row.bus).drop 2 := by
    rw [List.nil_append, List.append_assoc, List.take_append_drop, ← List.map_append, Sending.rows]
  rw [cut]
  refine .packet (by simp) (Nat.zero_le _) words ?_ ?_ (.done ?_ ?_)
  · exact fun t member => quiet t (List.mem_of_mem_take member)
  · rw [List.length_take, List.length_map]
    omega
  · exact fun t member => quiet t (List.mem_of_mem_drop member)
  · rw [List.length_drop, List.length_map]
    omega

end MarketData
