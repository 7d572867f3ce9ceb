import MarketData.Netlist.Stuttering

/-! Gaps between the beats of a frame change what is delivered, those at two places apart. -/

namespace MarketData

/-- The stages of an answered run are answered. -/
theorem RxPath.runOn_split (is : List Bus) :
    ∀ {c c' : RxPath} {outs : List Bus}, runOn RxPath.step c is = some (c', outs) →
      ∃ o₁ o₂ o₃, runOn macStage.step c.mac is = some (c'.mac, o₁) ∧
        runOn subStage.step c.sub o₁ = some (c'.sub, o₂) ∧
        runOn keyedStage.step c.ip4 o₂ = some (c'.ip4, o₃) ∧
        runOn udpStage.step c.udp o₃ = some (c'.udp, outs) := by
  -- Cycle by cycle; only the finder may refuse one.
  induction is with
  | nil =>
    intro c c' outs runs
    obtain ⟨rfl, rfl⟩ := Prod.mk.inj (Option.some.inj runs)
    exact ⟨[], [], [], rfl, rfl, rfl, rfl⟩
  | cons i is ih =>
    intro c c' outs runs
    obtain ⟨c₁, o, later, step, rest, rfl⟩ := runOn_cons_some runs
    obtain ⟨o₁, o₂, o₃, mac, sub, ip4, udp⟩ := ih rest
    cases answered : subStage.step c.sub (c.mac.step i).2 with
    | none =>
      have refused : c.sub.step (c.mac.step i).2 = none := answered
      simp [RxPath.step, refused] at step
    | some s =>
      have accepted : c.sub.step (c.mac.step i).2 = some s := answered
      simp only [RxPath.step, accepted, Option.some.injEq, Prod.mk.injEq] at step
      obtain ⟨rfl, rfl⟩ := step
      exact ⟨_, _, _, runOn_cons rfl mac, runOn_cons answered sub, runOn_cons rfl ip4,
        runOn_cons rfl udp⟩

/-- Words with gaps in quiet surroundings, at least `late` silent cycles behind them. -/
def Carried (late : Nat) (ps : List (Bus × Nat)) (is : List Bus) : Prop :=
  ∃ qs ts, is = qs ++ paced Bus.mute ps ++ ts ∧ (∀ q ∈ qs, q.Quiet) ∧ (∀ t ∈ ts, t.Silent) ∧
    late ≤ ts.length

/-- The outputs of a stage are those of its registers and the added ones, the last ones apart. -/
theorem Carried.of_emits {σ ω : Type} {m : Stage σ Bus ω Bus} {s s' : σ} {is : List Bus}
    {late latency : Nat} {ps : List (Bus × Nat)} {es : List Bus}
    (depth : ∀ s, (m.ahead s).length = latency) (calm : ∀ e ∈ m.ahead s, e.Quiet)
    (emits : m.Emits s is s' es) (carried : Carried (late + latency) ps es) :
    ∃ os, runOn m.step s is = some (s', os) ∧ Carried late ps (os.map m.view) := by
  -- The registers come in front and as many of the added words are cut off behind, all of them
  -- quiet.
  obtain ⟨qs, ts, rfl, before, after, long⟩ := carried
  obtain ⟨os, runs, seen⟩ := emits.trimmed (depth s') (by omega)
  refine ⟨os, runs, m.ahead s ++ qs, ts.take (ts.length - latency), ?_,
    List.forall_mem_append.mpr ⟨calm, before⟩, fun t member => after t (List.mem_of_mem_take member),
    ?_⟩
  · rw [seen]
    simp only [List.append_assoc]
  · rw [List.length_take]
    omega

/-- A full word at a position of a frame, not the last one. -/
structure FullAt (bytes : List Byte) (n : Nat) (w : Bus) : Prop where
  valid : w.valid = true
  eog : w.eog = false
  eob : w.eob = false
  lanes : w.be = firstLanes 8
  data : w.data.toList = (bytes.drop n).take 8

/-- A long packet starts with a full word. -/
theorem Packet.full {ws : List Bus} {bytes : List Byte} {n : Nat} (packet : Packet ws (bytes.drop n))
    (more : n + 8 < bytes.length) :
    ∃ w ws', ws = w :: ws' ∧ FullAt bytes n w ∧ Packet ws' (bytes.drop (n + 8)) := by
  -- More than eight bytes are left, so the packet does not end with this word.
  obtain ⟨w, ws', bs, rfl, split, valid, eog, eob, lanes, rest⟩ :=
    packet.uncons (by rw [List.length_drop]; omega)
  have size : w.data.toList.length = 8 := by simp
  refine ⟨w, ws', rfl, ⟨valid, eog, eob, lanes, by rw [split, List.take_left' size]⟩, ?_⟩
  rw [← List.drop_drop, split, List.drop_left' size]
  exact rest

/-- Two consecutive full words are joined to a full one, two bytes before the second. -/
theorem FullAt.joined {bytes : List Byte} {n : Nat} {p w : Bus} (old : FullAt bytes n p)
    (new : FullAt bytes (n + 8) w) : FullAt bytes (n + 6) (joined 6 p w) where
  valid := rfl
  eog := joined_eog 6 p new.eog
  eob := rfl
  lanes := by
    rw [MarketData.joined, old.lanes, new.lanes, window_full 6 (Nat.le_refl 8)]
    rfl
  -- The last two bytes of the first word stand in front of the first six of the second.
  data := by
    have data := window_take 6 old.data (by rw [List.drop_drop]; exact new.data)
    rw [List.drop_drop] at data
    exact data

/-- The first six beats of a frame. -/
structure Opens (bytes : List Byte) (w₁ w₂ w₃ w₄ w₅ w₆ : Bus) : Prop where
  first : FullAt bytes 0 w₁
  second : FullAt bytes 8 w₂
  third : FullAt bytes 16 w₃
  fourth : FullAt bytes 24 w₄
  fifth : FullAt bytes 32 w₅
  sixth : FullAt bytes 40 w₆

/-- A frame opens with six full beats. -/
theorem UdpFrame.opens (f : UdpFrame) (fno : Nat) :
    ∃ w₁ w₂ w₃ w₄ w₅ w₆ ws, (frameRows fno f.bytes).map Row.bus =
        w₁ :: w₂ :: w₃ :: w₄ :: w₅ :: w₆ :: ws ∧
      Opens f.bytes w₁ w₂ w₃ w₄ w₅ w₆ ∧ Packet ws (f.bytes.drop 48) := by
  -- The frame has more than forty-eight bytes, so six words are peeled off one by one.
  have long := f.long
  have packet : Packet ((frameRows fno f.bytes).map Row.bus) (f.bytes.drop 0) :=
    frameRows_packet fno f.bytes (by omega)
  obtain ⟨w₁, ws₁, split₁, full₁, packet₁⟩ := packet.full (by omega)
  obtain ⟨w₂, ws₂, rfl, full₂, packet₂⟩ := packet₁.full (by omega)
  obtain ⟨w₃, ws₃, rfl, full₃, packet₃⟩ := packet₂.full (by omega)
  obtain ⟨w₄, ws₄, rfl, full₄, packet₄⟩ := packet₃.full (by omega)
  obtain ⟨w₅, ws₅, rfl, full₅, packet₅⟩ := packet₄.full (by omega)
  obtain ⟨w₆, ws₆, rfl, full₆, packet₆⟩ := packet₅.full (by omega)
  exact ⟨w₁, w₂, w₃, w₄, w₅, w₆, ws₆, split₁, ⟨full₁, full₂, full₃, full₄, full₅, full₆⟩, packet₆⟩

/-- The beats of a frame with gaps between them and idle cycles behind them. -/
theorem stuttered_bus (gaps : Nat → Nat) (drain : Nat) {rows : List Row} (some : rows ≠ []) :
    ∃ q : Bus, q.Quiet ∧ (stuttered gaps drain rows).map Row.bus =
      paced Bus.hold (gapped gaps 1 (rows.map Row.bus)) ++ List.replicate drain q := by
  -- Holding a row and holding its word is the same, and so the gaps are.
  have last := List.getLast?_eq_some_getLast some
  refine ⟨(rows.getLast some).held.bus, ⟨rfl, rfl, rfl⟩, ?_⟩
  have beats : (paced Row.held (gapped gaps 1 rows)).map Row.bus =
      paced Bus.hold ((gapped gaps 1 rows).map (Prod.map Row.bus id)) :=
    paced_map (show ∀ r : Row, r.held.bus = r.bus.hold from fun _ => rfl) _
  rw [stuttered, List.map_append, beats, gapped_map, last, Option.toList_some, List.flatMap_cons,
    List.flatMap_nil, List.append_nil, List.map_replicate]

/-- The destination of a frame passes the MAC filter. -/
theorem UdpFrame.addressed (f : UdpFrame) {w : Bus} (first : FullAt f.bytes 0 w) :
    addressMatches macAddr w.data (by decide) = true := by
  -- The first six bytes of the frame are the address.
  refine addressMatches_of_take macAddr w.data (by decide) ?_
  rw [first.data, List.take_take, List.drop_zero]
  exact f.mac

/-- What the MAC filter hands on of a frame with gaps. -/
theorem RxPath.Settled.link {c : RxPath} (settled : c.Settled) (f : UdpFrame)
    {w₁ w₂ w₃ w₄ w₅ w₆ q : Bus} (opens : Opens f.bytes w₁ w₂ w₃ w₄ w₅ w₆) (g₁ g₂ drain : Nat)
    {ps : List (Bus × Nat)} (train : PacedTrain ps) (quiet : q.Quiet) :
    ∃ m' o₁, runOn macStage.step c.mac
        (paced Bus.hold ((w₁, g₁) :: (w₂, g₂) :: ps) ++ List.replicate (drain + 7) q) =
          some (m', o₁) ∧
      Carried (drain + 4) (relayedFrame w₁ g₁ w₂ g₂ ps) o₁ := by
  -- The filter looks at the first beat, and hands on the frame from its second or third one.
  obtain ⟨first, second, -, -, -, -⟩ := opens
  have still : ∀ r ∈ q :: List.replicate (drain + 6) q, r.Quiet := by
    intro r member
    rw [← List.replicate_succ] at member
    rw [(List.mem_replicate.mp member).2]
    exact quiet
  obtain ⟨m', qs, ts, emits, before, after, long⟩ := settled.mac.frame g₁ g₂
    ⟨first.valid, second.valid⟩ ⟨first.eog, second.eog⟩ ⟨first.eob, second.eob⟩
    (f.addressed first) train still
  rw [List.length_replicate] at long
  -- Its two registers come in front, and the last two cycles are cut off.
  obtain ⟨o₁, runs, carried⟩ := Carried.of_emits (m := macStage)
    (show ∀ s, (macStage.ahead s).length = 2 from fun _ => rfl)
    (fun e member => (settled.macAhead e member).1) emits
    ⟨qs, ts, rfl, fun e member => (before e member).1, after, long⟩
  rw [show macStage.view = id from rfl, List.map_id] at carried
  exact ⟨m', o₁, runs, carried⟩

/-- What the finder hands on in the cycles that it answers. -/
theorem FindSubframe.hands_on {s s' : FindSubframe} {o₁ o₂ : List Bus} {late : Nat}
    {ps : List (Bus × Nat)} (calm : ∀ e ∈ subStage.ahead s, e.Quiet)
    (runs : runOn subStage.step s o₁ = some (s', o₂)) (carried : Carried (late + 1) ps o₁) :
    Carried late ps o₂ := by
  -- The finder delays by one cycle, and what it did is what it does.
  obtain ⟨o, runs', carried'⟩ := Carried.of_emits (m := subStage) (fun _ => rfl) calm
    (FindSubframe.delays o₁ runs) carried
  obtain ⟨-, rfl⟩ := Prod.mk.inj (Option.some.inj (runs.symm.trans runs'))
  rwa [show subStage.view = id from rfl, List.map_id] at carried'

/-- What a receiver adds is what it puts out. -/
theorem UdpRx.runs_of_emits {u u' : UdpRx} {xs : List (Bus × Ipv4Header)} {os : List Bus}
    (emits : udpStage.Emits u xs u' os) : runOn udpStage.step u xs = some (u', os) := by
  obtain ⟨os', runs, shift⟩ := emits
  have same : os' = os := by simpa [udpStage] using shift
  exact same ▸ runs

/-- Quiet cycles in front of a packet change nothing. -/
theorem Ipv4Filter.Idle.mutes_behind {f : Ipv4Filter} (idle : f.Idle) {qs is : List Bus}
    (quiet : ∀ q ∈ qs, q.Quiet) (rest : ∀ g : Ipv4Filter, g.Idle → g.Mutes is) :
    f.Mutes (qs ++ is) := by
  obtain ⟨g, es, lead, idle', silent, -⟩ := idle.rests quiet
  obtain ⟨f', fs, emits, muffled⟩ := rest g idle'
  exact ⟨f', _, lead.append emits, muffled.prepend silent⟩

/-- What is put out in muted cycles is muffled. -/
theorem Ipv4Filter.Mutes.muffled {f f' : Ipv4Filter} {is : List Bus}
    {os : List (Bus × Ipv4Header)} (mutes : f.Mutes is)
    (calm : ∀ e ∈ keyedStage.ahead f, e.1.Quiet)
    (runs : runOn keyedStage.step f is = some (f', os)) : Muffled (os.map keyedStage.view) := by
  obtain ⟨f'', es, ⟨os', runs', shift⟩, muffled⟩ := mutes
  obtain ⟨-, rfl⟩ := Prod.mk.inj (Option.some.inj (runs.symm.trans runs'))
  have whole := muffled.prepend calm
  rw [← shift] at whole
  exact whole.of_append

/-- A packet whose header is no match, or has a gap in it, is lost whole. -/
theorem RxPath.Settled.loses {c c' : RxPath} (settled : c.Settled) {x y z : Bus} {n m : Nat}
    (k : Nat) {ps : List (Bus × Nat)} {late : Nat} {o₁ o₂ : List Bus}
    {o₃ : List (Bus × Ipv4Header)} {outs : List Bus}
    (valid : x.valid = true ∧ y.valid = true ∧ z.valid = true)
    (eog : x.eog = false ∧ y.eog = false ∧ z.eog = false)
    (eob : x.eob = false ∧ y.eob = false ∧ z.eob = false) (train : PacedTrain ps)
    (faulty : ¬ (x.data.get 0 = 0x45#8 ∧ n = 0 ∧ m = 0 ∧
      addressMatches ipAddr z.data (by decide) = true))
    (carried : Carried (late + 1) ((x, n) :: (y, m) :: (z, k) :: ps) o₁)
    (sub : runOn subStage.step c.sub o₁ = some (c'.sub, o₂))
    (ip4 : runOn keyedStage.step c.ip4 o₂ = some (c'.ip4, o₃))
    (udp : runOn udpStage.step c.udp o₃ = some (c'.udp, outs)) : delivery outs = ([], []) := by
  -- Stage by stage: the finder hands the packet on, the IPv4 filter mutes it, and the receiver
  -- stays silent.
  obtain ⟨qs, ts, rfl, before, after, -⟩ :=
    FindSubframe.hands_on (fun e member => (settled.subAhead e member).1) sub carried
  have mutes : c.ip4.Mutes (qs ++ (paced Bus.mute ((x, n) :: (y, m) :: (z, k) :: ps) ++ ts)) :=
    settled.ip4.mutes_behind before fun g idle => idle.stops k valid eog eob train
      (fun t member => (after t member).1) faulty
  rw [← List.append_assoc] at mutes
  obtain ⟨u', os, emits, silent⟩ :=
    settled.udp.muffled o₃ (mutes.muffled settled.ip4Ahead ip4)
  obtain ⟨-, rfl⟩ := Prod.mk.inj (Option.some.inj (udp.symm.trans (UdpRx.runs_of_emits emits)))
  exact delivery_quiet silent

/-- A frame with a gap behind its first, third or fourth beat is lost whole. -/
theorem RxPath.Settled.loses_frame {c c' : RxPath} (settled : c.Settled) (f : UdpFrame)
    {w₁ w₂ w₃ w₄ w₅ w₆ q : Bus} (opens : Opens f.bytes w₁ w₂ w₃ w₄ w₅ w₆)
    (g₁ g₂ g₃ g₄ g₅ g₆ drain : Nat) {ps : List (Bus × Nat)} (train : PacedTrain ps) (quiet : q.Quiet)
    (gap : ¬ (g₁ = 0 ∧ g₃ = 0 ∧ g₄ = 0)) {outs : List Bus}
    (runs : runOn RxPath.step c (paced Bus.hold ((w₁, g₁) :: (w₂, g₂) :: (w₃, g₃) :: (w₄, g₄) ::
      (w₅, g₅) :: (w₆, g₆) :: ps) ++ List.replicate (drain + 7) q) = some (c', outs)) :
    delivery outs = ([], []) := by
  -- What the MAC filter hands on begins with the third beat, or with the second one behind a gap.
  obtain ⟨first, second, third, fourth, fifth, sixth⟩ := opens
  have long := f.long
  have sixths : PacedTrain ((w₆, g₆) :: ps) := .more w₆ g₆ sixth.valid sixth.eog sixth.eob train
  have fifths : PacedTrain ((w₅, g₅) :: (w₆, g₆) :: ps) :=
    .more w₅ g₅ fifth.valid fifth.eog fifth.eob sixths
  have beats : PacedTrain ((w₃, g₃) :: (w₄, g₄) :: (w₅, g₅) :: (w₆, g₆) :: ps) :=
    .more w₃ g₃ third.valid third.eog third.eob
      (.more w₄ g₄ fourth.valid fourth.eog fourth.eob fifths)
  obtain ⟨o₁, o₂, o₃, mac, sub, ip4, udp⟩ := RxPath.runOn_split _ runs
  -- The run of the first stage is the one that is known.
  obtain ⟨m', o, mac', carried⟩ := settled.link f ⟨first, second, third, fourth, fifth, sixth⟩ g₁ g₂
    drain beats quiet
  obtain ⟨-, rfl⟩ := Prod.mk.inj (Option.some.inj (mac.symm.trans mac'))
  have a := second.joined third
  have b := third.joined fourth
  have d := fourth.joined fifth
  by_cases none : g₁ = 0
  · -- The header of the packet has a gap in it.
    rw [relayedFrame, if_pos none, relayed_cons _ _ _ _ third.eog, relayed_cons _ _ _ _ fourth.eog,
      relayed_cons _ _ _ _ fifth.eog] at carried
    refine settled.loses g₅ ⟨a.valid, b.valid, d.valid⟩ ⟨a.eog, b.eog, d.eog⟩
      ⟨a.eob, b.eob, d.eob⟩ (sixths.relayed w₅) ?_ carried sub ip4 udp
    rintro ⟨-, whole, whole', -⟩
    exact gap ⟨none, whole, whole'⟩
  · -- A word of the Ethernet header comes first, so the protocol stands in place of the address.
    have z := first.joined second
    rw [relayedFrame, if_neg none, relayed_cons _ _ _ _ second.eog, relayed_cons _ _ _ _ third.eog,
      relayed_cons _ _ _ _ fourth.eog] at carried
    refine settled.loses g₄ ⟨z.valid, a.valid, b.valid⟩ ⟨z.eog, a.eog, b.eog⟩
      ⟨z.eob, a.eob, b.eob⟩ (fifths.relayed w₄) ?_ carried sub ip4 udp
    rintro ⟨-, -, -, like⟩
    have one := (addressMatches_iff ipAddr (by decide) b.data).mp like 1
    have proto := f.protocol
    rw [show (22 : Nat) + (1 : Fin 4).val = 23 from rfl, proto] at one
    rcases one with one | one
    · exact absurd one (by decide)
    · exact absurd one (by decide)

/-- The header fields of a frame are read off the packet. -/
def UdpFrame.ipv4 (f : UdpFrame) : Ipv4Frame :=
  ⟨f.bytes, f.long, f.version, f.totalLength, f.unfragmented, f.offset⟩

/-- The word joined from the fourth and the fifth beat starts with the address of the station. -/
theorem UdpFrame.address_joined (f : UdpFrame) {d : Bus} (full : FullAt f.bytes 30 d) :
    addressMatches ipAddr d.data (by decide) = true := by
  -- The address of the station stands from byte 30 of the frame on.
  refine addressMatches_of_take ipAddr d.data (by decide) ?_
  rw [full.data, List.take_take]
  exact f.ip

/-- The first word behind the header of the packet holds the ports, with a gap in front or not. -/
theorem UdpFrame.port_joined (f : UdpFrame) {d e : Bus} (n : Nat) (old : FullAt f.bytes 30 d)
    (new : FullAt f.bytes 38 e) :
    destinationPort (joined 4 (d.behind n) e).data = udpPort := by
  -- A gap leaves the data as they are.
  have header : (joined 4 (d.behind n) e).data.toList = (f.bytes.drop 34).take 8 := by
    have known := window_take 4 old.data (by rw [List.drop_drop]; exact new.data)
    rw [List.drop_drop] at known
    rw [joined, Bus.behind_data]
    exact known
  have value := u16LE_eq (f.bytes.getD 37 0#8) (f.bytes.getD 36 0#8)
  rw [u16LE, Nat.or_comm] at value
  rw [destinationPort, known_getElem header 2 (by omega), known_getElem header 3 (by omega), value, Nat.add_comm]
  exact f.port

/-- A frame without a gap behind its first, third or fourth beat is delivered, cut by later gaps. -/
theorem RxPath.Settled.passes {c : RxPath} (settled : c.Settled) (f : UdpFrame)
    {w₁ w₂ w₃ w₄ w₅ w₆ q : Bus} (opens : Opens f.bytes w₁ w₂ w₃ w₄ w₅ w₆) (g₂ g₅ g₆ drain : Nat)
    {ps : List (Bus × Nat)} (train : PacedTrain ps) (quiet : q.Quiet) :
    ∃ c' outs, runOn RxPath.step c (paced Bus.hold ((w₁, 0) :: (w₂, g₂) :: (w₃, 0) :: (w₄, 0) ::
        (w₅, g₅) :: (w₆, g₆) :: ps) ++ List.replicate (drain + 7) q) = some (c', outs) ∧
      delivery outs = (((joined 6 w₅ w₆).behind g₆).upper ++ kept (relayed w₆ ps),
        [(true, false)]) := by
  obtain ⟨first, second, third, fourth, fifth, sixth⟩ := opens
  have long := f.long
  have fifths : PacedTrain ((w₅, g₅) :: (w₆, g₆) :: ps) :=
    .more w₅ g₅ fifth.valid fifth.eog fifth.eob (.more w₆ g₆ sixth.valid sixth.eog sixth.eob train)
  have beats : PacedTrain ((w₃, 0) :: (w₄, 0) :: (w₅, g₅) :: (w₆, g₆) :: ps) :=
    .more w₃ 0 third.valid third.eog third.eob
      (.more w₄ 0 fourth.valid fourth.eog fourth.eob fifths)
  obtain ⟨m', o₁, mac, carried⟩ := settled.link f ⟨first, second, third, fourth, fifth, sixth⟩ 0 g₂
    drain beats quiet
  have a := second.joined third
  have b := third.joined fourth
  have d := fourth.joined fifth
  have e := fifth.joined sixth
  rw [relayedFrame, if_pos rfl, relayed_cons _ _ _ _ third.eog, relayed_cons _ _ _ _ fourth.eog,
    relayed_cons _ _ _ _ fifth.eog, relayed_cons _ _ _ _ sixth.eog] at carried
  -- The finder answers, as the packet is not a small one.
  obtain ⟨version, normal⟩ := f.ipv4.opens a.data
  have later : PacedTrain ((joined 6 w₅ w₆, g₆) :: relayed w₆ ps) :=
    .more _ g₆ e.valid e.eog e.eob (train.relayed w₆)
  have answered : ∃ s' o₂, runOn subStage.step c.sub o₁ = some (s', o₂) := by
    obtain ⟨qs, ts, shape, before, after, -⟩ := carried
    rw [shape]
    exact settled.sub.answers 0 before (fun t member => (after t member).1) a.valid a.eog a.eob version
      normal (.more _ 0 b.valid b.eog b.eob (.more _ g₅ d.valid d.eog d.eob later))
  obtain ⟨s', o₂, sub⟩ := answered
  obtain ⟨qs, ts, shape, before, after, many⟩ :=
    FindSubframe.hands_on (fun e member => (settled.subAhead e member).1) sub carried
  cases ts with
  | nil => simp at many
  | cons r rs =>
    rw [List.length_cons] at many
    -- The IPv4 filter joins the words under the header of the frame.
    obtain ⟨g', es, us, g, emits, sounds, silent, drained, latch₀, latch₁⟩ :=
      settled.ip4.paced g₅ before (fun t member => (after t member).1) ⟨a.valid, b.valid, d.valid⟩
        ⟨a.eog, b.eog, d.eog⟩ ⟨a.eob, b.eob, d.eob⟩ version (f.address_joined d) later
    rw [← shape] at emits
    obtain ⟨o₃, ip4, seen⟩ := emits.trimmed
      (show (keyedStage.ahead g').length = 2 from rfl) (by omega)
    obtain ⟨proto, frag, flags⟩ := f.ipv4.keyed latch₀ latch₁ a.data b.data
    have heard : Sounds Prod.fst ((rejoined r ((joined 6 w₄ w₅).behind g₅)
        ((joined 6 w₅ w₆, g₆) :: relayed w₆ ps)).map (·, some g.header.key))
        (o₃.map keyedStage.view) := by
      rw [seen]
      exact (sounds.behind settled.ip4Ahead).ahead fun u member =>
        silent u (List.mem_of_mem_take member)
    rw [rejoined_cons _ _ _ _ _ e.eog, List.map_cons] at heard
    have rest : Train (rejoined r ((joined 6 w₅ w₆).behind g₆) (relayed w₆ ps)) :=
      (train.relayed w₆).rejoined r _
    have words : ((rejoined r ((joined 6 w₅ w₆).behind g₆) (relayed w₆ ps)).map
        (·, some g.header.key)).map Prod.fst =
          rejoined r ((joined 6 w₅ w₆).behind g₆) (relayed w₆ ps) := by
      rw [List.map_map]
      exact List.map_id _
    obtain ⟨u', outs, udp, delivered⟩ := UdpRx.Idle.sounds o₃ (joined_eog 4 _ e.eog) rfl
      (f.port_joined g₅ d e) (proto.trans f.protocol) frag flags (by rw [words]; exact rest) settled.udp heard
    rw [words] at delivered
    refine ⟨⟨m', s', g', u'⟩, outs, RxPath.runOn_stages _ mac sub ip4 (UdpRx.runs_of_emits udp), ?_⟩
    rw [delivered.delivery rest,
      enabled_rejoined (train.relayed w₆) (after r List.mem_cons_self).2]

/-- A word whose lanes are all enabled has four bytes in the last ones. -/
theorem upper_full {w : Bus} (lanes : w.be = firstLanes 8) : w.upper = w.data.toList.drop 4 := by
  -- All lanes are enabled, so nothing is sifted out.
  have all : w.be.toList.drop 4 = List.replicate 4 true := by
    rw [lanes, firstLanes_toList (Nat.le_refl 8)]
    rfl
  have sifted : ∀ {xs : List Byte} {n : Nat}, xs.length = n → sift xs (List.replicate n true) = xs := by
    intro xs n size
    subst size
    induction xs with
    | nil => rfl
    | cons x xs ih =>
      rw [sift] at ih ⊢
      rw [List.length_cons, List.replicate_succ, List.zip_cons_cons, List.filterMap_cons, ih]
      rfl
  rw [Bus.upper, all]
  exact sifted (by simp)

/-- A gap costs the four bytes in the last lanes of a full word. -/
theorem upper_behind {w : Bus} (lanes : w.be = firstLanes 8) (n : Nat) :
    (w.behind n).upper.length = if n = 0 then 4 else 0 := by
  -- Behind a gap the word is mute, and a mute word enables no lane.
  rw [Bus.behind]
  split
  · rw [upper_full lanes]
    simp
  · rw [(Bus.silent_halves (q := w.mute) rfl).2, List.length_nil]

/-- Gaps between full words lose bytes, and only gaps do. -/
theorem kept_gapped {ws : List Bus} {bs : List Byte} (packet : Packet ws bs) (gaps : Nat → Nat) :
    ∀ {p : Bus}, p.be = firstLanes 8 → ∀ i,
      (kept (relayed p (gapped gaps i ws))).length ≤
          (kept (relayed p (gapped (fun _ => 0) i ws))).length ∧
        ((kept (relayed p (gapped gaps i ws))).length =
          (kept (relayed p (gapped (fun _ => 0) i ws))).length →
            ∀ k, i ≤ k → k + 1 < i + ws.length → gaps k = 0) := by
  -- Induction on the packet; every word but the last one is full, and so is what it is joined to.
  induction packet with
  | last w n some small valid eog eob be =>
    intro p _ i
    refine ⟨Nat.le_refl _, fun _ k from_ within => ?_⟩
    rw [List.length_singleton] at within
    omega
  | @more w ws bs valid eog eob be rest ih =>
    intro p full i
    obtain ⟨fewer, equal⟩ := ih be (i + 1)
    have lanes : (joined 6 p w).be = firstLanes 8 := by
      rw [joined, full, be, window_full 6 (Nat.le_refl 8)]
      rfl
    have here := upper_behind lanes (gaps i)
    have whole := upper_behind lanes 0
    rw [if_pos rfl] at whole
    rw [gapped_cons gaps i w rest.train.ne_nil, gapped_cons _ i w rest.train.ne_nil,
      relayed_cons p w _ _ eog, relayed_cons p w _ _ eog, kept_cons, kept_cons]
    simp only [List.length_append, here, whole]
    constructor
    · split <;> omega
    · intro same k from_ within
      have none : gaps i = 0 := by
        by_contra some
        rw [if_neg some] at same
        omega
      rw [if_pos none] at same
      rcases Nat.eq_or_lt_of_le from_ with rfl | later
      · exact none
      · refine equal (by omega) k later ?_
        rw [List.length_cons] at within
        omega

/-- The cycles of a frame with gaps, its first six beats written out. -/
theorem stuttered_opens {rows : List Row} {w₁ w₂ w₃ w₄ w₅ w₆ : Bus} {ws : List Bus}
    (beats : rows.map Row.bus = w₁ :: w₂ :: w₃ :: w₄ :: w₅ :: w₆ :: ws) (more : ws ≠ [])
    (gaps : Nat → Nat) (drain : Nat) :
    ∃ q : Bus, q.Quiet ∧ (stuttered gaps drain rows).map Row.bus =
      paced Bus.hold ((w₁, gaps 1) :: (w₂, gaps 2) :: (w₃, gaps 3) :: (w₄, gaps 4) ::
        (w₅, gaps 5) :: (w₆, gaps 6) :: gapped gaps 7 ws) ++ List.replicate drain q := by
  -- Six beats and another one are written out, so each of the six has its gap.
  have some : rows ≠ [] := by
    intro none
    rw [none] at beats
    exact nomatch beats
  obtain ⟨q, quiet, cycles⟩ := stuttered_bus gaps drain some
  refine ⟨q, quiet, ?_⟩
  rw [cycles, beats, gapped, gapped, gapped, gapped, gapped, gapped_cons _ _ _ more]

/-- What is delivered of a frame with gaps behind the second, the fifth and later beats only. -/
theorem RxPath.Settled.received_eq {c : RxPath} (settled : c.Settled) (f : UdpFrame) (fno : Nat)
    {w₁ w₂ w₃ w₄ w₅ w₆ : Bus} {ws : List Bus}
    (beats : (frameRows fno f.bytes).map Row.bus = w₁ :: w₂ :: w₃ :: w₄ :: w₅ :: w₆ :: ws)
    (opens : Opens f.bytes w₁ w₂ w₃ w₄ w₅ w₆) (packet : Packet ws (f.bytes.drop 48))
    (gaps : Nat → Nat) (drain : Nat) (whole : gaps 1 = 0 ∧ gaps 3 = 0 ∧ gaps 4 = 0) :
    c.received (stuttered gaps (drain + 7) (frameRows fno f.bytes)) =
      some (((joined 6 w₅ w₆).behind (gaps 6)).upper ++ kept (relayed w₆ (gapped gaps 7 ws)),
        [(true, false)]) := by
  -- The gaps that matter are none, and the others are those of the run.
  obtain ⟨q, quiet, cycles⟩ := stuttered_opens beats packet.train.ne_nil gaps (drain + 7)
  obtain ⟨c', outs, runs, delivered⟩ := settled.passes f opens (gaps 2) (gaps 5) (gaps 6) drain
    (packet.train.gapped gaps 7) quiet
  rw [RxPath.received, cycles, whole.1, whole.2.1, whole.2.2, runs, Option.map_some,
    delivered]

/-- A gap behind the first, third or fourth beat changes what is delivered. -/
theorem RxPath.Settled.received_ne {c : RxPath} (settled : c.Settled) (f : UdpFrame) (fno : Nat)
    (gaps : Nat → Nat) (drain : Nat) (gap : ¬ (gaps 1 = 0 ∧ gaps 3 = 0 ∧ gaps 4 = 0)) :
    c.received (stuttered gaps (drain + 7) (frameRows fno f.bytes)) ≠
      c.received (stuttered (fun _ => 0) (drain + 7) (frameRows fno f.bytes)) := by
  -- Nothing is delivered at the end of the frame, which a frame without gaps is.
  obtain ⟨w₁, w₂, w₃, w₄, w₅, w₆, ws, beats, opens, packet⟩ := f.opens fno
  obtain ⟨q, quiet, cycles⟩ := stuttered_opens beats packet.train.ne_nil gaps (drain + 7)
  rw [settled.received_eq f fno beats opens packet (fun _ => 0) drain ⟨rfl, rfl, rfl⟩]
  intro same
  obtain ⟨⟨c', outs⟩, runs, delivered⟩ := Option.map_eq_some_iff.mp same
  rw [cycles] at runs
  have lost := settled.loses_frame f opens (gaps 1) (gaps 2) (gaps 3) (gaps 4) (gaps 5) (gaps 6)
    drain (packet.train.gapped gaps 7) quiet gap runs
  rw [lost] at delivered
  exact nomatch congrArg Prod.snd delivered

/-- A frame with gaps is delivered like one without exactly when they follow beat two or five. -/
theorem stutter_iff {c : RxPath} (settled : c.Settled) (f : UdpFrame) (fno : Nat)
    (gaps : Nat → Nat) (drain : Nat) :
    c.received (stuttered gaps (drain + 7) (frameRows fno f.bytes)) =
        c.received (stuttered (fun _ => 0) (drain + 7) (frameRows fno f.bytes)) ↔
      ∀ i, 0 < i → i < (frameRows fno f.bytes).length → gaps i ≠ 0 → i = 2 ∨ i = 5 := by
  obtain ⟨w₁, w₂, w₃, w₄, w₅, w₆, ws, beats, opens, packet⟩ := f.opens fno
  have count : (frameRows fno f.bytes).length = ws.length + 6 := by
    rw [← List.length_map (f := Row.bus), beats]
    rfl
  have some : 0 < ws.length := List.length_pos_of_ne_nil packet.train.ne_nil
  have full : (joined 6 w₅ w₆).be = firstLanes 8 := (opens.fifth.joined opens.sixth).lanes
  constructor
  · intro same
    -- Without a gap behind the first, third or fourth beat something is delivered, perhaps cut.
    have whole : gaps 1 = 0 ∧ gaps 3 = 0 ∧ gaps 4 = 0 := by
      by_contra gap
      exact settled.received_ne f fno gaps drain gap same
    rw [settled.received_eq f fno beats opens packet gaps drain whole,
      settled.received_eq f fno beats opens packet (fun _ => 0) drain ⟨rfl, rfl, rfl⟩] at same
    have bytes := congrArg (fun d => d.1.length) (Option.some.inj same)
    simp only [List.length_append, upper_behind full, if_true] at bytes
    obtain ⟨fewer, equal⟩ := kept_gapped packet gaps opens.sixth.lanes 7
    have sixth : gaps 6 = 0 := by
      by_contra gap
      rw [if_neg gap] at bytes
      omega
    rw [if_pos sixth] at bytes
    have later := equal (by omega)
    intro i positive within gap
    by_contra other
    rw [not_or] at other
    rcases Nat.lt_or_ge i 7 with early | late
    · have cases_ : i = 1 ∨ i = 3 ∨ i = 4 ∨ i = 6 := by omega
      rcases cases_ with rfl | rfl | rfl | rfl
      · exact gap whole.1
      · exact gap whole.2.1
      · exact gap whole.2.2
      · exact gap sixth
    · exact gap (later i late (by omega))
  · intro allowed
    have none : ∀ i, 0 < i → i < ws.length + 6 → i ≠ 2 → i ≠ 5 → gaps i = 0 := by
      intro i positive within second fifth
      by_contra gap
      rcases allowed i positive (by omega) gap with rfl | rfl
      · exact second rfl
      · exact fifth rfl
    have later : gapped gaps 7 ws = gapped (fun _ => 0) 7 ws :=
      gapped_congr fun k from_ within => none k (by omega) (by omega) (by omega) (by omega)
    rw [settled.received_eq f fno beats opens packet gaps drain ⟨none 1 (by omega) (by omega)
        (by omega) (by omega), none 3 (by omega) (by omega) (by omega) (by omega),
        none 4 (by omega) (by omega) (by omega) (by omega)⟩,
      settled.received_eq f fno beats opens packet (fun _ => 0) drain ⟨rfl, rfl, rfl⟩, later,
      none 6 (by omega) (by omega) (by omega) (by omega)]

/-- Gaps behind the second and the fifth beat of a frame are harmless. -/
theorem stutter_sample :
    RxPath.fresh.received (stuttered (fun i => if i = 2 ∨ i = 5 then 3 else 0) 64
        (frameRows 0 sampleUdpFrame.bytes)) =
      RxPath.fresh.received (stuttered (fun _ => 0) 64 (frameRows 0 sampleUdpFrame.bytes)) := by
  refine (stutter_iff RxPath.fresh_settled sampleUdpFrame 0 _ 57).mpr fun i _ _ gap => ?_
  by_contra other
  exact gap (if_neg other)

/-- A single idle cycle behind the third beat loses the frame. -/
theorem third_gap_loses :
    ¬ ∀ (f : UdpFrame) (gaps : Nat → Nat),
      RxPath.fresh.received (stuttered gaps 64 (frameRows 0 f.bytes)) =
        RxPath.fresh.received (stuttered (fun _ => 0) 64 (frameRows 0 f.bytes)) := by
  intro always
  exact RxPath.fresh_settled.received_ne sampleUdpFrame 0 (fun i => if i = 3 then 1 else 0) 57
    (by simp) (always sampleUdpFrame _)

end MarketData
