import Mathlib.Data.List.Forall2
import MarketData.Netlist.NetworkLaws

/-! Every frame sent to the station comes out of the receive path as its UDP payload. -/

namespace MarketData

/-- Four answered stages in a row are an answered run of the path. -/
theorem RxPath.runOn_stages (is : List Bus) :
    ∀ {m m' : MacFilter} {s s' : FindSubframe} {g g' : Ipv4Filter} {u u' : UdpRx}
      {o₁ o₂ : List Bus} {o₃ : List (Bus × Ipv4Header)} {o₄ : List Bus},
      runOn macStage.step m is = some (m', o₁) → runOn subStage.step s o₁ = some (s', o₂) →
      runOn ipv4Stage.step g o₂ = some (g', o₃) → runOn udpStage.step u o₃ = some (u', o₄) →
      runOn RxPath.step ⟨m, s, g, u⟩ is = some (⟨m', s', g', u'⟩, o₄) := by
  -- Induction on the cycles: each output is the next stage's input in the same cycle.
  induction is with
  | nil =>
    intro m m' s s' g g' u u' o₁ o₂ o₃ o₄ first second third fourth
    simp only [runOn, Option.some.injEq, Prod.mk.injEq] at first
    obtain ⟨rfl, rfl⟩ := first
    simp only [runOn, Option.some.injEq, Prod.mk.injEq] at second
    obtain ⟨rfl, rfl⟩ := second
    simp only [runOn, Option.some.injEq, Prod.mk.injEq] at third
    obtain ⟨rfl, rfl⟩ := third
    simp only [runOn, Option.some.injEq, Prod.mk.injEq] at fourth
    obtain ⟨rfl, rfl⟩ := fourth
    rfl
  | cons i is ih =>
    intro m m' s s' g g' u u' o₁ o₂ o₃ o₄ first second third fourth
    obtain ⟨m₁, a, as, step₁, rest₁, rfl⟩ := runOn_cons_some first
    obtain ⟨s₁, b, bs, step₂, rest₂, rfl⟩ := runOn_cons_some second
    obtain ⟨g₁, c, cs, step₃, rest₃, rfl⟩ := runOn_cons_some third
    obtain ⟨u₁, d, ds, step₄, rest₄, rfl⟩ := runOn_cons_some fourth
    refine runOn_cons ?_ (ih rest₁ rest₂ rest₃ rest₄)
    simp only [macStage, subStage, ipv4Stage, udpStage, Option.some.injEq] at step₁ step₂ step₃ step₄
    simp only [RxPath.step, step₁, step₂, step₃, step₄]

/-- A cycle without a beat. -/
def Row.Idle (r : Row) : Prop :=
  r.tv = false ∧ r.tl = false

/-- The padded beats of numbered frames, any idle cycles before each, enough at the end. -/
inductive Sent (drain : Nat) : List (List Byte × Nat) → List Row → Prop
  | done {idles} : (∀ r ∈ idles, r.Idle) → drain ≤ idles.length → Sent drain [] idles
  | frame {f fno fs idles rows} : (∀ r ∈ idles, r.Idle) → Sent drain fs rows →
      Sent drain ((f, fno) :: fs) (idles ++ padBeats (frameRows fno f) ++ rows)

/-- The bytes of the enabled lanes. -/
def enabledBytes (b : Bus) : List Byte :=
  (b.data.toList.zip b.be.toList).filterMap fun lane => if lane.2 then some lane.1 else none

/-- A cycle that is handed to the parser. -/
def Bus.isElement (b : Bus) : Bool :=
  b.valid || b.eog || b.eob

/-- The elements of one frame: its payload and at most two zero bytes, ended by the last one. -/
structure Delivers (f : UdpFrame) (ws : List Bus) : Prop where
  valid : ∀ w ∈ ws, w.valid = true ∧ w.eob = false
  contiguous : ∀ w ∈ ws, ∃ n, n ≤ 8 ∧ w.be = firstLanes n
  bytes : ∃ z, z ≤ 2 ∧ ws.flatMap enabledBytes = f.payload ++ List.replicate z 0#8
  ended : ∃ front last, ws = front ++ [last] ∧ last.eog = true ∧ ∀ w ∈ front, w.eog = false

/-- The enabled bytes of first lanes are the first bytes. -/
theorem enabledBytes_firstLanes {b : Bus} {n : Nat} (small : n ≤ 8) (be : b.be = firstLanes n) :
    enabledBytes b = b.data.toList.take n := by
  -- The word is cut behind its enabled lanes.
  have size : b.data.toList.length = 8 := by simp
  have disabled : ∀ (bytes : List Byte) (k : Nat), ((bytes.zip (List.replicate k false)).filterMap
      fun lane => if lane.2 then some lane.1 else none) = [] := by
    intro bytes k
    rw [List.filterMap_eq_nil_iff]
    intro lane member
    have off := List.of_mem_zip member
    simp [(List.mem_replicate.mp off.2).2]
  have enabled : ∀ (bytes : List Byte), ((bytes.zip (List.replicate bytes.length true)).filterMap
      fun lane => if lane.2 then some lane.1 else none) = bytes := by
    intro bytes
    induction bytes with
    | nil => rfl
    | cons b bytes ih => simpa [List.replicate_succ] using ih
  have cut : b.data.toList = b.data.toList.take n ++ b.data.toList.drop n :=
    (List.take_append_drop n _).symm
  have count : (b.data.toList.take n).length = n := by rw [List.length_take, size]; omega
  rw [enabledBytes, be, firstLanes_toList small, cut, List.zip_append (by simpa using count),
    List.filterMap_append, disabled, List.append_nil]
  have all := enabled (b.data.toList.take n)
  rw [count] at all
  rw [all, ← cut]

/-- A packet is valid elements with contiguous lanes whose enabled bytes are what it carries. -/
theorem Packet.elements {ws : List Bus} {bs : List Byte} (packet : Packet ws bs) :
    (∀ w ∈ ws, w.valid = true ∧ w.eob = false) ∧
      (∀ w ∈ ws, ∃ n, n ≤ 8 ∧ w.be = firstLanes n) ∧ ws.flatMap enabledBytes = bs ∧
      ∃ front last, ws = front ++ [last] ∧ last.eog = true ∧ ∀ w ∈ front, w.eog = false := by
  -- Induction on the packet; the last word is the one with eog.
  induction packet with
  | last w n some small valid eog eob be =>
    refine ⟨by simp [valid, eob], by simpa using ⟨n, small, be⟩, ?_, [], w, rfl, eog, by simp⟩
    simp [enabledBytes_firstLanes small be]
  | @more w ws bs valid eog eob be rest ih =>
    obtain ⟨valids, lanes, bytes, front, last, rfl, ended, before⟩ := ih
    refine ⟨?_, ?_, ?_, w :: front, last, rfl, ended, ?_⟩
    · intro v member
      rcases List.mem_cons.mp member with rfl | later
      · exact ⟨valid, eob⟩
      · exact valids v later
    · intro v member
      rcases List.mem_cons.mp member with rfl | later
      · exact ⟨8, Nat.le_refl 8, be⟩
      · exact lanes v later
    · have whole : w.data.toList.take 8 = w.data.toList := List.take_of_length_le (by simp)
      rw [List.flatMap_cons, bytes, enabledBytes_firstLanes (Nat.le_refl 8) be, whole]
    · intro v member
      rcases List.mem_cons.mp member with rfl | later
      · exact eog
      · exact before v later

/-- A packet of the payload delivers the frame. -/
theorem CarriesFrom.delivers {f : UdpFrame} {ws : List Bus} (carries : CarriesFrom 42 f ws) :
    Delivers f ws := by
  -- Behind the headers the packet carries the payload and the pad bytes.
  obtain ⟨_, pads, _⟩ := f.after_length 42
  obtain ⟨valid, contiguous, bytes, ended⟩ := Packet.elements carries
  exact ⟨valid, contiguous, ⟨_, pads, bytes.trans f.after_payload⟩, ended⟩

/-- A quiet cycle hands nothing over. -/
theorem Bus.Quiet.not_element (q : Bus) (quiet : q.Quiet) : q.isElement = false := by
  -- None of the three signals is set.
  obtain ⟨valid, eog, eob⟩ := quiet
  simp [Bus.isElement, valid, eog, eob]

/-- Every word of a frame's packet is handed over. -/
theorem CarriesFrom.elements (f : UdpFrame) (ws : List Bus) (carries : CarriesFrom 42 f ws) :
    ∀ w ∈ ws, w.isElement = true := by
  -- Every word of a packet is valid.
  intro w member
  simp [Bus.isElement, (carries.delivers.valid w member).1]

/-- What is sent is a framed stream of the frames that the padded beats carry. -/
theorem Sent.framed_by {γ : Type} {bytes : γ → List Byte} {carries : γ → List Bus → Prop}
    (words : ∀ f k, carries f ((padBeats (frameRows k (bytes f))).map Row.bus)) (frames : List γ) :
    ∀ {drain k : Nat} {cycles : List Row}, Sent drain ((frames.map bytes).zipIdx k) cycles →
      Framed Bus.Quiet carries 0 0 drain frames (cycles.map Row.bus) := by
  -- Induction on the frames; the idle rows are quiet, and the padded beats are a packet.
  have calm : ∀ idles : List Row, (∀ r ∈ idles, r.Idle) → ∀ q ∈ idles.map Row.bus, q.Quiet := by
    intro idles idle q member
    obtain ⟨r, inside, rfl⟩ := List.mem_map.mp member
    exact ⟨(idle r inside).1, (idle r inside).2, rfl⟩
  induction frames with
  | nil =>
    intro drain k cycles sent
    cases sent with
    | done idle long => exact .done (calm _ idle) (by simpa using long)
  | cons f frames ih =>
    intro drain k cycles sent
    rw [List.map_cons, List.zipIdx_cons] at sent
    cases sent with
    | @frame _ _ _ idles rows idle rest =>
      have framed := Framed.packet (calm idles idle) (Nat.zero_le _) (words f k)
        (fun _ member => absurd member List.not_mem_nil) rfl (ih rest)
      simpa using framed

/-- What is sent is a framed stream of the frames. -/
theorem Sent.framed (frames : List UdpFrame) {drain k : Nat} {cycles : List Row}
    (sent : Sent drain ((frames.map UdpFrame.bytes).zipIdx k) cycles) :
    Framed Bus.Quiet (CarriesFrom 0) 0 0 drain frames (cycles.map Row.bus) := by
  refine Sent.framed_by (fun f k => ?_) frames sent
  have long := f.long
  exact padBeats_packet k f.bytes (by omega)

/-- The fresh path passes frames through as their payloads. -/
theorem RxPath.framed (frames : List UdpFrame) {cycles : List Row}
    (sent : Sent 6 ((frames.map UdpFrame.bytes).zipIdx) cycles) :
    ∃ c outs, runOn RxPath.step RxPath.fresh (cycles.map Row.bus) = some (c, outs) ∧
      Framed Bus.Quiet (CarriesFrom 42) 0 0 0 frames outs := by
  -- Each stage turns a framed stream into a framed stream, its latency taken from the end.
  have input : Framed Bus.Quiet (CarriesFrom 0) 0 0 (4 + 2) frames (cycles.map Row.bus) :=
    Sent.framed frames sent
  have none : Vector.replicate 8 false = firstLanes 0 := by decide
  obtain ⟨m, o₁, run₁, framed₁⟩ := mac_passes.outputs (fun _ => rfl) (s := MacFilter.fresh) rfl
    (by simp [macStage, MacFilter.fresh, MacFilter.second, Bus.Silent, Bus.Quiet, none]) input
  rw [show macStage.view = id from rfl, List.map_id] at framed₁
  -- The quiet cycles in front of each packet serve as those after the packet before it.
  obtain ⟨q, rest, rfl, calm, follow⟩ := framed₁.follow
  have input₂ : Framed Bus.Silent (CarriesFrom 14) 0 1 (2 + 1) frames ([q] ++ rest) :=
    follow.prepend (by simpa using calm)
  obtain ⟨s, o₂, run₂, framed₂⟩ := sub_passes.outputs (fun _ => rfl) (s := FindSubframe.fresh) rfl
    (by decide) input₂
  rw [show subStage.view = id from rfl, List.map_id] at framed₂
  have input₃ : Framed Bus.Silent (CarriesFrom 14) 0 1 (0 + 2) frames o₂ := framed₂
  obtain ⟨g, o₃, run₃, framed₃⟩ := ipv4_passes.outputs (fun _ => rfl) (s := Ipv4Filter.fresh)
    ⟨rfl, rfl, rfl⟩ (by decide) input₃
  have input₄ : Framed (fun x => (ipv4Stage.view x).1.Quiet)
      (fun f xs => CarriesAccepted 34 f (xs.map ipv4Stage.view)) 0 0 (0 + 0) frames o₃ :=
    framed₃.of_map rfl
  obtain ⟨u, o₄, run₄, framed₄⟩ := udp_passes.outputs (fun _ => rfl) (s := UdpRx.fresh)
    ⟨rfl, rfl⟩ (by simp [udpStage]) input₄
  rw [show udpStage.view = id from rfl, List.map_id] at framed₄
  exact ⟨⟨m, s, g, u⟩, o₄, RxPath.runOn_stages _ run₁ run₂ run₃ run₄, framed₄⟩

/-- Every frame is delivered whole and in order, and nothing else is. -/
theorem receive_path_complete (frames : List UdpFrame) (cycles : List Row)
    (sent : Sent 6 ((frames.map UdpFrame.bytes).zipIdx) cycles) :
    ∃ c outs packets, runOn RxPath.step RxPath.fresh (cycles.map Row.bus) = some (c, outs) ∧
      outs.filter Bus.isElement = packets.flatten ∧ List.Forall₂ Delivers frames packets := by
  -- The framed output is filtered down to its packets.
  obtain ⟨c, outs, runs, framed⟩ := RxPath.framed frames sent
  obtain ⟨packets, carried, kept⟩ := framed.filter Bus.Quiet.not_element CarriesFrom.elements
  exact ⟨c, outs, packets, runs, kept, carried.imp fun _ _ => CarriesFrom.delivers⟩

/-- A heartbeat-sized datagram: one unit of one ten-byte message. -/
def sampleUdpFrame : UdpFrame where
  bytes :=
    [0x00, 0x0A, 0x35, 0x18, 0x3C, 0x1F, 0x02, 0x00, 0x00, 0x00, 0x00, 0x01, 0x08, 0x00,
     0x45, 0x00, 0x00, 0x2E, 0x12, 0x34, 0x40, 0x00, 0x40, 0x11, 0x00, 0x00,
     0x0A, 0x00, 0x00, 0x01, 0x0A, 0x00, 0x01, 0x0E,
     0x1F, 0x40, 0x1F, 0x40, 0x00, 0x1A, 0x00, 0x00,
     0x12, 0x00, 0x01, 0x01, 0x07, 0x00, 0x00, 0x00, 0x0A, 0x20, 1, 2, 3, 4, 5, 6, 7, 8]
  long := by decide
  mac := by decide
  version := by decide
  totalLength := by decide
  unfragmented := by decide
  offset := by decide
  protocol := by decide
  ip := by decide
  port := by decide

/-- A cycle in which nothing is sent. -/
def idleRow : Row :=
  { td := 0#64, tk := 0#8, tl := false, fno := 0, tv := false }

/-- The completeness theorem at two frames, one idle cycle between them. -/
theorem receive_path_complete_sample :
    ∃ c outs packets,
      runOn RxPath.step RxPath.fresh
        ((([] ++ padBeats (frameRows 0 sampleUdpFrame.bytes)) ++
          (([idleRow] ++ padBeats (frameRows 1 sampleUdpFrame.bytes)) ++
            List.replicate 6 idleRow)).map Row.bus) = some (c, outs) ∧
      outs.filter Bus.isElement = packets.flatten ∧
      List.Forall₂ Delivers [sampleUdpFrame, sampleUdpFrame] packets :=
  receive_path_complete [sampleUdpFrame, sampleUdpFrame] _
    (.frame (by simp) (.frame (by simp [Row.Idle, idleRow])
      (.done (by simp [Row.Idle, idleRow]) (by simp))))

end MarketData
