import MarketData.Netlist.PcapFrames

/-! The replay recovers a capture exactly when every payload is read right behind the last one. -/

namespace MarketData

/-- The reports that `pcap_msgs` stands for: length and type of each message, by frame. -/
def pcapReports (payloads : List (List Byte)) : Option (List (Nat × Nat × Byte)) :=
  (payloads.zipIdx.mapM fun frame => (pcapMsgs frame.1).map fun msgs =>
    inFrame frame.2 (msgs.map fun m => (m.2.1.toNat, m.2.2))).map List.flatten

/-- The splitting loop reads the messages from where they start. -/
theorem splitMsgs_messages (ms : List (Message 6 47)) :
    ∀ (p : List Byte) (fuel o : Nat), p.drop o = messageBytes ms → ms.length ≤ fuel →
      ∃ msgs, splitMsgs p fuel o = some msgs ∧ msgs.map (fun m => (m.2.1.toNat, m.2.2)) = items ms := by
  -- Induction on the messages; each length byte leads to the next message.
  induction ms with
  | nil =>
    intro p fuel o rest _
    have past : ¬ o < p.length := by
      have := List.drop_eq_nil_iff.mp rest
      omega
    cases fuel with
    | zero => exact ⟨[], by rw [splitMsgs, if_neg past], rfl⟩
    | succ fuel => exact ⟨[], by rw [splitMsgs, if_neg past], rfl⟩
  | cons m ms ih =>
    intro p fuel o rest enough
    cases fuel with
    | zero => simp at enough
    | succ fuel =>
      have low := m.lo_le
      have size := congrArg List.length rest
      rw [List.length_drop, messageBytes_length_cons] at size
      obtain ⟨length, type⟩ := Message.front (by decide) (by decide)
        (show p.drop o ++ [] = m.bytes ++ messageBytes ms by rw [List.append_nil, rest]; rfl)
      have first : p[o]? = some ((p.drop o).getD 0 0#8) := by
        simp [List.getD_eq_getElem?_getD, List.getElem?_eq_getElem (show o < p.length by omega)]
      have second : p[o + 1]? = some ((p.drop o).getD 1 0#8) := by
        simp [List.getD_eq_getElem?_getD, List.getElem?_eq_getElem (show o + 1 < p.length by omega)]
      have len := length (by rw [← List.length_pos_iff, List.length_drop]; omega)
      have ty := type (by rw [List.length_drop]; omega)
      have later : p.drop (o + m.bytes.length) = messageBytes ms := by
        rw [← List.drop_drop, rest, messageBytes_cons, List.drop_left]
      obtain ⟨msgs, split, same⟩ := ih p fuel (o + m.bytes.length) later (by simpa using enough)
      refine ⟨(o, (p.drop o).getD 0 0#8, (p.drop o).getD 1 0#8) :: msgs, ?_, ?_⟩
      · rw [splitMsgs, if_pos (by omega)]
        simp only [first, second, len, split, Option.map_some]
      · rw [List.map_cons, same, items_cons, len, ty]

/-- `pcap_msgs` reads the messages of a frame. -/
theorem pcapMsgs_frame (f : PcapFrame) :
    ∃ msgs, pcapMsgs f.payload = some msgs ∧
      msgs.map (fun m => (m.2.1.toNat, m.2.2)) = items f.messages := by
  -- The messages start behind the header, and each is at least one byte.
  have count : ∀ ms : List (Message 6 47), ms.length ≤ (messageBytes ms).length := by
    intro ms
    induction ms with
    | nil => exact Nat.le_refl 0
    | cons m ms ih =>
      have := m.lo_le
      rw [List.length_cons, messageBytes_length_cons]
      omega
  have enough := count f.messages
  have length := f.payload_length
  exact splitMsgs_messages f.messages f.payload f.payload.length 8 f.drop_payload (by omega)

/-- The reports a list of frames should lead to, numbered from `k`. -/
def frameReports (fs : List (PcapFrame)) (k : Nat) : List (Nat × Nat × Byte) :=
  (fs.zipIdx k).flatMap fun f => inFrame f.2 (items f.1.messages)

/-- The reports of `pcap_msgs` are those of the frames. -/
theorem pcapReports_frames (fs : List (PcapFrame)) :
    pcapReports (fs.map PcapFrame.payload) = some (frameReports fs 0) := by
  -- Each payload is read, and its entries get its number.
  have numbered : ∀ (fs : List (PcapFrame)) (k : Nat),
      (((fs.map PcapFrame.payload).zipIdx k).mapM fun frame => (pcapMsgs frame.1).map fun msgs =>
        inFrame frame.2 (msgs.map fun m => (m.2.1.toNat, m.2.2))) =
      some ((fs.zipIdx k).map fun f => inFrame f.2 (items f.1.messages)) := by
    intro fs
    induction fs with
    | nil => exact fun _ => rfl
    | cons f fs ih =>
      intro k
      obtain ⟨msgs, read, same⟩ := pcapMsgs_frame f
      rw [List.map_cons, List.zipIdx_cons, List.mapM_cons, ih (k + 1), read, List.zipIdx_cons,
        List.map_cons, ← same]
      rfl
  rw [pcapReports, numbered, Option.map_some, frameReports, List.flatMap_def]

/-- The replay loop over numbered payloads from any state. -/
def Parser.replayAll (p : Parser) (payloads : List (List Byte)) (k : Nat) : Parser :=
  (payloads.zipIdx k).foldl (fun p frame => p.replayFrame frame.2 frame.1) p

/-- The loop replays the first payload, then the others. -/
theorem Parser.replayAll_cons (p : Parser) (payload : List Byte) (payloads : List (List Byte))
    (k : Nat) :
    p.replayAll (payload :: payloads) k = (p.replayFrame k payload).replayAll payloads (k + 1) := by
  -- The fold takes the first payload first.
  simp [Parser.replayAll]

/-- Later payloads report under their own numbers only. -/
theorem Parser.replayAll_adds (payloads : List (List Byte)) :
    ∀ {p : Parser} (k : Nat), p.L < 256 →
      ∃ rs, (p.replayAll payloads k).reports = p.reports ++ rs ∧ ∀ r ∈ rs, k ≤ r.1 := by
  -- Induction on the payloads; the numbers go up.
  induction payloads with
  | nil => exact fun _ _ => ⟨[], by simp [Parser.replayAll], by simp⟩
  | cons payload payloads ih =>
    intro p k small
    obtain ⟨es, adds⟩ := Parser.replayFrom_adds payload k 0 small
    rw [← Parser.replayFrame_eq] at adds
    obtain ⟨rs, reports, later⟩ := ih (k + 1) adds.small
    refine ⟨inFrame k es ++ rs, ?_, ?_⟩
    · rw [Parser.replayAll_cons, reports, adds.reports, List.append_assoc]
    · intro r member
      rcases List.mem_append.mp member with here | behind
      · obtain ⟨e, _, rfl⟩ := List.mem_map.mp here
        exact Nat.le_refl k
      · exact Nat.le_of_succ_le (later r behind)

/-- Reports of later frames carry later numbers. -/
theorem frameReports_later (fs : List (PcapFrame)) (k : Nat) :
    ∀ r ∈ frameReports fs k, k ≤ r.1 := by
  -- The numbers start at `k`.
  intro r member
  obtain ⟨f, inside, here⟩ := List.mem_flatMap.mp member
  obtain ⟨e, _, rfl⟩ := List.mem_map.mp here
  exact List.le_snd_of_mem_zipIdx inside

/-- What is reported under the first number is told apart from what follows. -/
theorem inFrame_inj {k : Nat} {es es' : List (Nat × Byte)} {rs rs' : List (Nat × Nat × Byte)}
    (later : ∀ r ∈ rs, k + 1 ≤ r.1) (later' : ∀ r ∈ rs', k + 1 ≤ r.1)
    (same : inFrame k es ++ rs = inFrame k es' ++ rs') : es = es' := by
  -- Filtering by the first number keeps what is reported under it.
  have own : ∀ es : List (Nat × Byte),
      (inFrame k es).filter (fun r => r.1 = k) = inFrame k es := by
    intro es
    rw [List.filter_eq_self]
    intro r member
    obtain ⟨e, _, rfl⟩ := List.mem_map.mp member
    exact decide_eq_true rfl
  have others : ∀ rs : List (Nat × Nat × Byte), (∀ r ∈ rs, k + 1 ≤ r.1) →
      rs.filter (fun r => r.1 = k) = [] := by
    intro rs later
    rw [List.filter_eq_nil_iff]
    intro r member
    have := later r member
    simp
    omega
  have first := congrArg (List.filter fun r => r.1 = k) same
  rw [List.filter_append, List.filter_append, own, own, others rs later, others rs' later',
    List.append_nil, List.append_nil] at first
  exact List.map_injective_iff.mpr (fun _ _ same => (Prod.mk.inj same).2) first

/-- A frame is read right, behind a header alone or behind anything else. -/
def PcapFrame.ReadsBehind (f : PcapFrame) (bare : Bool) : Prop :=
  if bare = true then f.ReadsShifted else f.KeepsUp

instance (f : PcapFrame) (bare : Bool) : Decidable (f.ReadsBehind bare) :=
  inferInstanceAs (Decidable (if bare = true then _ else _))

/-- Every frame is read right behind the one in front of it. -/
def FramesRead : Bool → List PcapFrame → Prop
  | _, [] => True
  | bare, f :: fs => f.ReadsBehind bare ∧ FramesRead f.messages.isEmpty fs

/-- The parser between two frames, the first of them a header alone or not. -/
structure Parser.Between (p : Parser) (bare : Bool) : Prop where
  stale : bare = true → p.Stale
  idle : bare = false → p.Idle

/-- Between frames the parser holds nothing. -/
theorem Parser.Between.L {p : Parser} {bare : Bool} (between : p.Between bare) : p.L = 0 := by
  cases bare with
  | true => exact (between.stale rfl).holding.L
  | false => exact (between.idle rfl).holding.L

/-- A frame reports its messages exactly when it is read right, and the next one follows it. -/
theorem Parser.Between.replayFrame {p : Parser} {bare : Bool} (between : p.Between bare)
    (f : PcapFrame) (fno : Nat) :
    ∃ es, (p.replayFrame fno f.payload).reports = p.reports ++ inFrame fno es ∧
      (es = items f.messages ↔ f.ReadsBehind bare) ∧
      (f.ReadsBehind bare → (p.replayFrame fno f.payload).Between f.messages.isEmpty) := by
  cases bare with
  | false =>
    obtain ⟨es, reports, iff, stale, idle⟩ := (between.idle rfl).replayFrame f fno
    refine ⟨es, reports, iff, fun keeps => ⟨fun empty => ?_, fun some => ?_⟩⟩
    · exact stale (List.isEmpty_iff.mp empty)
    · exact idle (List.isEmpty_eq_false_iff.mp some) keeps
  | true =>
    -- A frame that is read shifted has messages.
    obtain ⟨es, reports, iff, idle⟩ := (between.stale rfl).replayFrame f fno
    refine ⟨es, reports, iff, fun shifted => ⟨fun empty => ?_, fun _ => idle shifted⟩⟩
    obtain ⟨m, ms, messages, -⟩ := PcapFrame.ReadsShifted.first shifted
    rw [messages, List.isEmpty_iff] at empty
    exact absurd empty (List.cons_ne_nil m ms)

/-- Between frames on, the reports are right exactly when every frame is read right. -/
theorem Parser.Between.replayAll (fs : List PcapFrame) :
    ∀ {p : Parser} {bare : Bool} (k : Nat), p.Between bare →
      ((p.replayAll (fs.map PcapFrame.payload) k).reports = p.reports ++ frameReports fs k ↔
        FramesRead bare fs) := by
  -- Induction on the frames: the first one that goes wrong shows under its own number.
  induction fs with
  | nil => exact fun _ _ => ⟨fun _ => trivial, fun _ => by simp [Parser.replayAll, frameReports]⟩
  | cons f fs ih =>
    intro p bare k between
    obtain ⟨es, reports, iff, after⟩ := between.replayFrame f k
    have expected : frameReports (f :: fs) k =
        inFrame k (items f.messages) ++ frameReports fs (k + 1) := by
      rw [frameReports, List.zipIdx_cons, List.flatMap_cons]
      rfl
    have rest : f.ReadsBehind bare →
        (((p.replayFrame k f.payload).replayAll (fs.map PcapFrame.payload) (k + 1)).reports =
            p.reports ++ (inFrame k (items f.messages) ++ frameReports fs (k + 1)) ↔
          FramesRead f.messages.isEmpty fs) := by
      intro right
      rw [← ih (k + 1) (after right), reports, iff.mpr right, List.append_assoc]
    rw [List.map_cons, Parser.replayAll_cons, expected, FramesRead]
    constructor
    · intro right
      have small : (p.replayFrame k f.payload).L < 256 := by
        have held : p.L < 256 := by
          rw [between.L]
          decide
        obtain ⟨_, adds⟩ := Parser.replayFrom_adds f.payload k 0 held
        rw [Parser.replayFrame_eq]
        exact adds.small
      obtain ⟨rs, all, later⟩ := Parser.replayAll_adds (fs.map PcapFrame.payload) (k + 1) small
      have same := right
      rw [all, reports, List.append_assoc, List.append_cancel_left_eq] at same
      have reads := iff.mp (inFrame_inj later (frameReports_later fs (k + 1)) same)
      exact ⟨reads, (rest reads).mp right⟩
    · rintro ⟨reads, others⟩
      exact (rest reads).mpr others

/-- The replay reports what `pcap_msgs` reads exactly when every frame is read right. -/
theorem replay_recovers_iff (fs : List PcapFrame) :
    pcapReports (fs.map PcapFrame.payload) = some (replay (fs.map PcapFrame.payload)).reports ↔
      FramesRead false fs := by
  -- The fresh parser is between frames, and the replay is its loop from frame 0 on.
  have fresh : Parser.fresh.Between false :=
    ⟨fun bare => absurd bare (by decide), fun _ => ⟨rfl, Parser.fresh_holding⟩⟩
  have all := fresh.replayAll fs 0
  rw [pcapReports_frames, Option.some.injEq, ← all, eq_comm]
  rfl

/-- Four Time messages in a row. -/
def timeMessages : PcapFrame where
  header := [32, 0, 4, 1, 5, 0, 0, 0]
  messages :=
    [⟨[6, 0x20, 1, 0, 0, 0], by decide, by decide, by decide⟩,
     ⟨[6, 0x20, 2, 0, 0, 0], by decide, by decide, by decide⟩,
     ⟨[6, 0x20, 3, 0, 0, 0], by decide, by decide, by decide⟩,
     ⟨[6, 0x20, 4, 0, 0, 0], by decide, by decide, by decide⟩]
  header_length := by decide
  lengthField := by decide

/-- Of four Time messages in a row the last one is lost: three words are left for them. -/
theorem time_messages_lost :
    ¬ ∀ fs : List PcapFrame, pcapReports (fs.map PcapFrame.payload) =
      some (replay (fs.map PcapFrame.payload)).reports := by
  -- The replay of the one frame is evaluated.
  intro recovers
  have wrong := recovers [timeMessages]
  revert wrong
  decide

end MarketData
