import MarketData.Netlist.Completeness

/-! What the receive stages do with a frame for any station: pass it on or drop it whole. -/

namespace MarketData

/-- An unfragmented IPv4 frame without options, for any station, protocol and port. -/
structure Ipv4Frame where
  /-- The Ethernet frame without its check sequence. -/
  bytes : List Byte
  /-- The IP total length is at least 46. -/
  long : 60 ≤ bytes.length
  /-- IPv4 without options. -/
  version : bytes.getD 14 0#8 = 0x45#8
  /-- The IP total length counts everything after the Ethernet header. -/
  totalLength :
    256 * (bytes.getD 16 0#8).toNat + (bytes.getD 17 0#8).toNat = bytes.length - 14
  /-- More fragments is clear. -/
  unfragmented : (bytes.getD 20 0#8).getLsbD 5 = false
  /-- The fragment offset is zero. -/
  offset : bytes.getD 20 0#8 &&& 0x1F#8 = 0#8 ∧ bytes.getD 21 0#8 = 0#8

/-- The bytes from position `k` on are the address, each of them or 255 in its place. -/
def likeAddress {n : Nat} (addr : Vector Byte n) (bytes : List Byte) (k : Nat) : Prop :=
  ∀ i : Fin n, bytes.getD (k + i.val) 0#8 = addr.get i ∨ bytes.getD (k + i.val) 0#8 = 0xFF#8

/-- The destination address of the Ethernet header passes the MAC filter. -/
def Ipv4Frame.LikeMac (f : Ipv4Frame) : Prop :=
  likeAddress macAddr f.bytes 0

/-- The destination address of the IP header passes the IPv4 filter. -/
def Ipv4Frame.LikeIp (f : Ipv4Frame) : Prop :=
  likeAddress ipAddr f.bytes 30

/-- A UDP datagram for the port. -/
def Ipv4Frame.ForPort (f : Ipv4Frame) : Prop :=
  f.bytes.getD 23 0#8 = 17#8 ∧
    256 * (f.bytes.getD 36 0#8).toNat + (f.bytes.getD 37 0#8).toNat = udpPort

/-- The first `k` words carry the first bytes, and a train follows them. -/
def Leads (bytes : List Byte) : Nat → List Bus → Prop
  | 0, ws => Train ws
  | k + 1, ws => ∃ w ws', ws = w :: ws' ∧ w.valid = true ∧ w.eog = false ∧ w.eob = false ∧
      w.data.toList = bytes.take 8 ∧ Leads (bytes.drop 8) k ws'

/-- The words carry the frame, the first six of them known. -/
def CarriesIpv4 (f : Ipv4Frame) (ws : List Bus) : Prop :=
  Leads f.bytes 6 ws

/-- The words carry the IPv4 packet of the frame, the first four of them known. -/
def CarriesPacket (f : Ipv4Frame) (ws : List Bus) : Prop :=
  Leads (f.bytes.drop 14) 4 ws

/-- What is selected is carried, and of anything else there is nothing. -/
def Selects {α γ : Type} (selected : γ → Prop) (carries : γ → List α → Prop) (p : γ)
    (ws : List α) : Prop :=
  selected p ∧ carries p ws ∨ ¬ selected p ∧ ws = []

/-- Words that start with known ones are a train. -/
theorem Leads.train {k : Nat} : ∀ {bytes : List Byte} {ws : List Bus}, Leads bytes k ws → Train ws := by
  -- Induction on the number of known words.
  induction k with
  | zero => exact fun leads => leads
  | succ k ih =>
    rintro bytes ws ⟨w, ws', rfl, valid, eog, eob, _, rest⟩
    exact .more w valid eog eob (ih rest)

/-- A packet starts with its first full words. -/
theorem Packet.leads (k : Nat) : ∀ {ws : List Bus} {bs rest : List Byte},
    Packet ws (bs ++ rest) → 8 * k < bs.length → Leads bs k ws := by
  -- Induction on the number of words, each of which is full.
  induction k with
  | zero => exact fun packet _ => packet.train
  | succ k ih =>
    intro ws bs rest packet long
    obtain ⟨w, ws', bs', rfl, split, valid, eog, eob, _, later⟩ :=
      packet.uncons (by rw [List.length_append]; omega)
    have size : w.data.toList.length = 8 := by simp
    have here : w.data.toList = bs.take 8 := by
      rw [← List.take_append_of_le_length (by omega), split, List.take_left' size]
    have there : bs' = bs.drop 8 ++ rest := by
      rw [← List.drop_append_of_le_length (by omega), split, List.drop_left' size]
    rw [there] at later
    exact ⟨w, ws', rfl, valid, eog, eob, here, ih later (by rw [List.length_drop]; omega)⟩

/-- A window over two consecutive words is the word at the position between them. -/
theorem window_take (s : Fin 9) {p w : Vector Byte 8} {bytes : List Byte}
    (old : p.toList = bytes.take 8) (new : w.toList = (bytes.drop 8).take 8) :
    (window s p w).toList = (bytes.drop s.val).take 8 := by
  -- The end of the old word is followed by the start of the new one.
  have bound := s.isLt
  have cut : 8 = (8 - s.val) + s.val := by omega
  have early : (bytes.take 8).drop s.val = (bytes.drop s.val).take (8 - s.val) := List.drop_take
  have late : ((bytes.drop 8).take 8).take s.val =
      ((bytes.drop s.val).drop (8 - s.val)).take s.val := by
    rw [List.take_take, List.drop_drop, Nat.min_eq_left (by omega)]
    congr 2
    omega
  rw [window_toList, old, new, early, late, ← List.take_add, ← cut]

/-- A byte of a known word is read off the bytes. -/
theorem known_getElem {data : Vector Byte 8} {bytes : List Byte} {n : Nat}
    (known : data.toList = (bytes.drop n).take 8) (k : Nat) (inside : k < 8) :
    data[k] = bytes.getD (n + k) 0#8 := by
  -- The word is as long as what is taken, so the byte is there.
  have size : data.toList.length = 8 := by simp
  have read : data.toList.getD k 0#8 = bytes.getD (n + k) 0#8 := by
    rw [known, getD_take, if_pos inside, getD_drop]
  rw [← read, List.getD_eq_getElem?_getD, List.getElem?_eq_getElem (by omega)]
  simp

/-- A known word matches an address exactly when its bytes do. -/
theorem addressMatches_iff {n : Nat} (addr : Vector Byte n) {data : Vector Byte 8}
    {bytes : List Byte} {k : Nat} (fits : n ≤ 8) (known : data.toList = (bytes.drop k).take 8) :
    addressMatches addr data fits = true ↔ likeAddress addr bytes k := by
  -- Each byte of the word is the byte in its place.
  have read : ∀ i : Fin n, data.get ⟨i.val, by omega⟩ = bytes.getD (k + i.val) 0#8 := fun i =>
    known_getElem known i.val (by omega)
  simp only [addressMatches, List.all_eq_true, List.mem_finRange, forall_const, likeAddress,
    Bool.or_eq_true, decide_eq_true_eq, read]

/-- The MAC filter drops the frame. -/
def MacFilter.Dropping (m : MacFilter) : Prop :=
  m.fb0 = .waitForLast ∧ m.fb1 = false

section Mac

variable {m : MacFilter}

/-- The first word of a frame with another address is dropped. -/
theorem MacFilter.Idle.drops {w : Bus} (idle : m.Idle) (valid : w.valid = true)
    (other : addressMatches macAddr w.data (by decide) = false) :
    (m.step w).1.Dropping ∧ (m.step w).1.second.Quiet := by
  -- The idle branch is evaluated on a word without the address.
  unfold MacFilter.Idle at idle
  simp [MacFilter.Dropping, MacFilter.step, MacFilter.second, idle, valid, other, Bus.Quiet,
    MacRoles.gate]

/-- A word of a dropped frame is dropped, and the last one ends the dropping. -/
theorem MacFilter.Dropping.word (dropping : m.Dropping) (w : Bus) (eob : w.eob = false) :
    (m.step w).1.second.Quiet ∧ (w.eog = false → (m.step w).1.Dropping) ∧
      (w.eog = true → (m.step w).1.Idle) := by
  -- Nothing is accepted, so every role and every end of frame is gated.
  obtain ⟨state, closed⟩ := dropping
  refine ⟨?_, fun eog => ?_, fun eog => ?_⟩
  · simp [MacFilter.step, MacFilter.second, state, closed, Bus.Quiet, MacRoles.gate]
  · simp [MacFilter.Dropping, MacFilter.step, state, closed, eog, eob]
  · simp [MacFilter.Idle, MacFilter.step, state, closed, eog]

/-- A dropped frame leaves nothing but quiet outputs. -/
theorem MacFilter.Dropping.run {ws : List Bus} (train : Train ws) :
    ∀ {m : MacFilter}, m.Dropping → ∃ m' es, macStage.Emits m ws m' es ∧ m'.Idle ∧
      ∀ e ∈ es, e.Quiet := by
  -- Induction on the words; the last one returns to the idle state.
  induction train with
  | last w valid eog eob =>
    intro m dropping
    obtain ⟨quiet, _, ends⟩ := dropping.word w eob
    exact ⟨_, _, m.emits w, ends eog, by simpa using quiet⟩
  | @more w ws valid eog eob rest ih =>
    intro m dropping
    obtain ⟨quiet, stays, _⟩ := dropping.word w eob
    obtain ⟨m', es, emits, idle, quiets⟩ := ih (stays eog)
    exact ⟨m', _, (m.emits w).cons emits, idle, List.forall_mem_cons.mpr ⟨quiet, quiets⟩⟩

/-- A last word that leaves lanes over is put out once more in the next cycle. -/
theorem MacFilter.Streaming.overflows {p w q : Bus} (streaming : m.Streaming p)
    (valid : w.valid = true) (eog : w.eog = true) (eob : w.eob = false)
    (past : spills 6 w.be = true) :
    let m' := ((m.step w).1.step q).1
    m'.Idle ∧ m'.second.valid = true ∧ m'.second.eog = true ∧ m'.second.eob = false := by
  -- The purge state repeats the payload role and the end of frame of the word before.
  obtain ⟨state, accepted, schedule, data, lanes⟩ := streaming
  rw [spills_six] at past
  have past : (w.be[6] || w.be[7]) = true := past
  have purges : (m.step w).1.fb0 = .purge ∧ (m.step w).1.fb10 = (true, false) := by
    simp [MacFilter.step, state, accepted, valid, eog, eob, past]
  generalize (m.step w).1 = m₁ at purges
  obtain ⟨purge, ended⟩ := purges
  simp [MacFilter.Idle, MacFilter.step, MacFilter.second, purge, ended, macSched]

end Mac

/-- A streamed train and the quiet cycle after it are a train again. -/
theorem MacFilter.Streaming.train {ws : List Bus} (train : Train ws) {q : Bus} (quiet : q.Quiet) :
    ∀ {m : MacFilter} {p : Bus}, m.Streaming p →
      ∃ m' es ts, macStage.Emits m (ws ++ [q]) m' (es ++ ts) ∧ Train es ∧ m'.Idle ∧
        ∀ t ∈ ts, t.Quiet := by
  -- Induction on the train; the quiet cycle after the last word carries the flush, if any.
  induction train with
  | last w valid eog eob =>
    intro m p streaming
    have joins := streaming.joins valid eob
    have emits := (m.emits w).cons ((m.step w).1.emits q)
    rw [joins] at emits
    cases past : spills 6 w.be with
    | false =>
      obtain ⟨idle, silent⟩ := (streaming.ends valid eog past).quiet quiet
      refine ⟨_, [joined 6 p w], _, emits, .last _ rfl (by simp [joined, eog, past]) rfl, idle, ?_⟩
      simpa using silent.1
    | true =>
      obtain ⟨idle, valid', eog', eob'⟩ := streaming.overflows (q := q) valid eog eob past
      refine ⟨_, _, [], by simpa using emits, ?_, idle, by simp⟩
      exact .more _ rfl (by simp [joined, past]) rfl (.last _ valid' eog' eob')
  | @more w ws valid eog eob rest ih =>
    intro m p streaming
    have here := m.emits w
    rw [streaming.joins valid eob] at here
    obtain ⟨m', es, ts, emits, later, idle, silent⟩ := ih (streaming.next valid eog eob)
    exact ⟨m', joined 6 p w :: es, ts, here.cons emits, .more _ rfl (by simp [joined, eog]) rfl later,
      idle, silent⟩

/-- Known words behind a known one stay known, two bytes before the next word. -/
theorem MacFilter.Streaming.leads (k : Nat) {q : Bus} (quiet : q.Quiet) :
    ∀ {bytes : List Byte} {ws : List Bus} {m : MacFilter} {p : Bus}, m.Streaming p →
      p.data.toList = bytes.take 8 → Leads (bytes.drop 8) k ws →
      ∃ m' es ts, macStage.Emits m (ws ++ [q]) m' (es ++ ts) ∧ Leads (bytes.drop 6) k es ∧
        m'.Idle ∧ ∀ t ∈ ts, t.Quiet := by
  -- Induction on the number of known words.
  induction k with
  | zero => exact fun streaming _ train => streaming.train train quiet
  | succ k ih =>
    rintro bytes _ m p streaming known ⟨w, ws, rfl, valid, eog, eob, data, rest⟩
    have here := m.emits w
    rw [streaming.joins valid eob] at here
    obtain ⟨m', es, ts, emits, later, idle, silent⟩ := ih (streaming.next valid eog eob) data rest
    refine ⟨m', joined 6 p w :: es, ts, here.cons emits, ?_, idle, silent⟩
    refine ⟨_, es, rfl, rfl, by simp [joined, eog], rfl, window_take 6 known data, ?_⟩
    rw [List.drop_drop] at later ⊢
    exact later

/-- A word of the MAC filter without data has no enabled lanes. -/
theorem MacFilter.emits_silent {m m' : MacFilter} {is es : List Bus}
    (emits : macStage.Emits m is m' es) : ∀ e ∈ es, e.Quiet → e.Silent := by
  -- The byte enables of every output are gated with its valid signal.
  have gated : ∀ (b : Bus) (lanes : Vector Bool 8), (b.be = lanes.map fun e => e && b.valid) →
      b.Quiet → b.Silent := by
    intro b lanes be quiet
    refine ⟨quiet, ?_⟩
    rw [be, quiet.1]
    simp
  have outputs : ∀ (is : List Bus) {m m' : MacFilter} {os : List Bus},
      runOn macStage.step m is = some (m', os) → ∀ o ∈ os, o.Quiet → o.Silent := by
    intro is
    induction is with
    | nil =>
      intro m m' os runs o member
      simp only [runOn, Option.some.injEq, Prod.mk.injEq] at runs
      rw [← runs.2] at member
      cases member
    | cons i is ih =>
      intro m m' os runs o member
      obtain ⟨m₁, first, later, here, rest, rfl⟩ := runOn_cons_some runs
      rcases List.mem_cons.mp member with rfl | behind
      · obtain ⟨-, rfl⟩ := Prod.mk.inj (Option.some.inj here)
        exact gated _ m.fb5 rfl
      · exact ih rest o behind
  obtain ⟨os, runs, shift⟩ := emits
  intro e member
  have among : e ∈ os.map macStage.view ++ macStage.ahead m' := by
    rw [shift]
    exact List.mem_append_right _ member
  rcases List.mem_append.mp among with out | held
  · obtain ⟨o, inside, rfl⟩ := List.mem_map.mp out
    exact outputs is runs o inside
  · rcases List.mem_cons.mp held with rfl | second
    · exact gated _ m'.fb5 rfl
    · rw [List.mem_singleton.mp second]
      exact gated _ _ rfl

/-- The MAC filter passes a frame on without its Ethernet header, or drops it whole. -/
theorem mac_selects :
    macStage.Passes MacFilter.Idle Bus.Quiet CarriesIpv4 2 Bus.Silent
      (Selects Ipv4Frame.LikeMac CarriesPacket) 0 1 where
  idle m q idle quiet := by
    obtain ⟨between, silent⟩ := idle.quiet quiet
    exact ⟨_, _, m.emits q, between, silent⟩
  packet m f ws ts idle leads calm two := by
    obtain ⟨w₀, ws, rfl, valid₀, eog₀, eob₀, data₀, w₁, ws', rfl, valid₁, eog₁, eob₁, data₁, rest⟩ :=
      leads
    obtain ⟨q, t, rfl⟩ := List.length_eq_two.mp two
    obtain ⟨quiet, quiet'⟩ : q.Quiet ∧ t.Quiet := by simpa using calm
    have decided : _ ↔ f.LikeMac := addressMatches_iff macAddr (k := 0) (by decide) data₀
    cases matched : addressMatches macAddr w₀.data (by decide) with
    | true =>
      -- The frame is for this station, and its payload is streamed.
      obtain ⟨state, accepted, schedule, silent₀⟩ := idle.first valid₀ eog₀ eob₀ matched
      obtain ⟨streaming, silent₁⟩ :=
        MacFilter.second_word state accepted schedule valid₁ eog₁ eob₁
      obtain ⟨m', es, ts, emits, later, idle', silent⟩ := streaming.leads 4 quiet data₁ rest
      obtain ⟨idle'', silent'⟩ := idle'.quiet quiet'
      have opening := (m.emits w₀).cons ((m.step w₀).1.emits w₁)
      have whole := (opening.append emits).append (m'.emits t)
      rw [List.drop_drop] at later
      refine ⟨_, [(m.step w₀).1.second, ((m.step w₀).1.step w₁).1.second], es,
        ts ++ [(m'.step t).1.second], by simpa using whole, idle'', ?_, Nat.zero_le _,
        .inl ⟨decided.mp matched, later⟩, ?_, by simp⟩
      · simp [silent₀, silent₁]
      · intro e member
        rcases List.mem_append.mp member with early | last
        · exact MacFilter.emits_silent whole e (by simp [early]) (silent e early)
        · rw [List.mem_singleton.mp last]
          exact silent'
    | false =>
      -- The frame is for another station, and nothing comes out.
      obtain ⟨dropping, silent₀⟩ := idle.drops valid₀ matched
      have train : Train (w₁ :: ws') := .more w₁ valid₁ eog₁ eob₁ (Leads.train rest)
      obtain ⟨m', es, emits, idle', silent⟩ := dropping.run train
      obtain ⟨idle₁, silent₁⟩ := idle'.quiet quiet
      obtain ⟨idle₂, silent₂⟩ := idle₁.quiet quiet'
      have whole := ((m.emits w₀).cons emits).append ((m'.emits q).cons ((m'.step q).1.emits t))
      refine ⟨_, (m.step w₀).1.second :: es, [],
        [(m'.step q).1.second, ((m'.step q).1.step t).1.second], by simpa using whole, idle₂, ?_,
        Nat.zero_le _, .inr ⟨?_, rfl⟩, ?_, by simp⟩
      · intro e member
        refine MacFilter.emits_silent whole e ?_ (List.forall_mem_cons.mpr ⟨silent₀, silent⟩ e member)
        exact List.mem_append_left _ member
      · rw [← decided, matched]
        exact Bool.false_ne_true
      · simp [silent₁, silent₂]

/-- The first word of an IPv4 packet is not that of a small one. -/
theorem Ipv4Frame.opens (f : Ipv4Frame) {data : Vector Byte 8}
    (known : data.toList = (f.bytes.drop 14).take 8) :
    data.get 0 = 0x45#8 ∧ ¬ (data.get 2 = 0#8 ∧ data.get 3 < 46#8) := by
  -- The total length is at least 46, so it is not below 46 with a high byte of zero.
  have long := f.long
  have length := f.totalLength
  refine ⟨(known_getElem known 0 (by omega)).trans f.version, ?_⟩
  rintro ⟨zero, small⟩
  have high : data.get 2 = f.bytes.getD 16 0#8 := known_getElem known 2 (by omega)
  have low : data.get 3 = f.bytes.getD 17 0#8 := known_getElem known 3 (by omega)
  rw [high] at zero
  rw [low, BitVec.lt_def] at small
  rw [zero] at length
  have bound : (f.bytes.getD 17 0#8).toNat < 46 := small
  have none : (0#8).toNat = 0 := rfl
  omega

/-- The subframe finder passes the packets of the selected frames on. -/
theorem sub_selects :
    subStage.Passes FindSubframe.Idle Bus.Silent (Selects Ipv4Frame.LikeMac CarriesPacket) 1
      Bus.Silent (Selects Ipv4Frame.LikeMac CarriesPacket) 0 1 where
  -- A selected frame is an IPv4 packet, and of another one the MAC filter hands on nothing.
  idle f q idle silent := by
    obtain ⟨f', emits, between⟩ := idle.quiet silent.1
    exact ⟨f', q, emits, between, silent⟩
  packet s f ws ts idle selects calm one := by
    obtain ⟨q, rfl⟩ := List.length_eq_one_iff.mp one
    have quiet : q.Quiet := (calm q (List.mem_singleton_self q)).1
    rcases selects with ⟨selected, leads⟩ | ⟨other, rfl⟩
    · -- The packet is not a small one, so it is passed on to its last word.
      obtain ⟨w, ws', rfl, valid, eog, eob, data, rest⟩ := id leads
      obtain ⟨version, normal⟩ := f.opens data
      obtain ⟨s₁, emits₁, active⟩ := idle.first valid eog eob version normal
      obtain ⟨s₂, emits₂, idle₂⟩ := active.run (Leads.train rest)
      obtain ⟨s₃, emits₃, idle₃⟩ := idle₂.quiet quiet
      exact ⟨s₃, [], w :: ws', [q], (emits₁.cons emits₂).append emits₃, idle₃, by simp, by simp,
        .inl ⟨selected, leads⟩, calm, by simp⟩
    · obtain ⟨s', emits, idle'⟩ := idle.quiet quiet
      exact ⟨s', [], [], [q], emits, idle', by simp, by simp, .inr ⟨other, rfl⟩, calm, by simp⟩

/-- The header fields by which the UDP receiver decides. -/
structure HeaderKey where
  proto : Byte
  frag : Nat
  flags : Nat

/-- What the UDP receiver reads of the header. -/
def Ipv4Header.key (h : Ipv4Header) : HeaderKey :=
  ⟨h.proto, h.frag, h.flags⟩

/-- An output, and for a valid word the header fields beside it. -/
def Ipv4Filter.keyed (f : Ipv4Filter) (b : Bus) : Bus × Option HeaderKey :=
  (b, if b.valid then some f.header.key else none)

/-- The IPv4 filter as a stage of latency two, with the header fields of its valid words. -/
def keyedStage : Stage Ipv4Filter Bus (Bus × Ipv4Header) (Bus × Option HeaderKey) where
  step f i := some (f.step i)
  view o := (o.1, if o.1.valid then some o.2.key else none)
  ahead f :=
    [f.keyed { data := f.fb23, valid := f.fb6, be := f.fb24, eog := f.fb8.1, eob := f.fb8.2 },
      f.keyed f.second]

/-- Without a latch the header fields stay. -/
theorem Ipv4Filter.Steady.key {f : Ipv4Filter} (steady : f.Steady) (i : Bus) :
    (f.step i).1.header.key = f.header.key := by
  -- Neither of the two header registers that they are read from is written.
  obtain ⟨first, second⟩ := steady
  simp [Ipv4Header.key, Ipv4Filter.header, Ipv4Filter.step, first, second]

/-- A cycle outputs what was fixed and fixes the output two cycles later. -/
theorem Ipv4Filter.emits_keyed {f : Ipv4Filter} (i : Bus) (steady : f.fb2.pd = true → f.Steady) :
    keyedStage.Emits f [i] (f.step i).1 [(f.step i).1.keyed (f.step i).1.second] := by
  -- The queue moves up by one; a valid word keeps its header.
  refine .single rfl ?_
  have middle : (f.step i).1.keyed f.second = f.keyed f.second := by
    cases pd : f.fb2.pd with
    | false => simp [Ipv4Filter.keyed, Ipv4Filter.second, pd]
    | true => simp only [Ipv4Filter.keyed, (steady pd).key i]
  show _ :: (f.step i).1.keyed f.second :: _ = _ :: f.keyed f.second :: _
  rw [middle]
  rfl

/-- The IPv4 filter drops the packet. -/
structure Ipv4Filter.Dropping (f : Ipv4Filter) : Prop where
  state : f.fb0 = .waitForLast
  closed : f.fb1 = false
  steady : f.Steady

/-- A word of a dropped packet is dropped, and the last one ends the dropping. -/
theorem Ipv4Filter.Dropping.word {f : Ipv4Filter} (dropping : f.Dropping) (w : Bus)
    (eob : w.eob = false) :
    (f.step w).1.second.Quiet ∧ (w.eog = false → (f.step w).1.Dropping) ∧
      (w.eog = true → (f.step w).1.Idle) := by
  -- Nothing is accepted, so every role and every end of frame is gated.
  obtain ⟨state, closed, steady⟩ := dropping
  refine ⟨?_, fun eog => ⟨?_, ?_, ?_⟩, fun eog => ⟨?_, ?_⟩⟩
  all_goals simp_all [Ipv4Filter.step, Ipv4Filter.second, Ipv4Filter.Steady, Bus.Quiet,
    Ipv4Roles.gate]

/-- A dropped packet leaves nothing but quiet outputs. -/
theorem Ipv4Filter.Dropping.run {ws : List Bus} (train : Train ws) :
    ∀ {f : Ipv4Filter}, f.Dropping → ∃ f' es, keyedStage.Emits f ws f' es ∧ f'.Idle ∧
      ∀ e ∈ es, e.1.Quiet := by
  -- Induction on the words; the last one returns to the first state.
  induction train with
  | last w valid eog eob =>
    intro f dropping
    obtain ⟨quiet, _, ends⟩ := dropping.word w eob
    exact ⟨_, _, f.emits_keyed w fun _ => dropping.steady, ends eog,
      List.forall_mem_singleton.mpr quiet⟩
  | @more w ws valid eog eob rest ih =>
    intro f dropping
    obtain ⟨quiet, stays, _⟩ := dropping.word w eob
    obtain ⟨f', es, emits, idle, quiets⟩ := ih (stays eog)
    exact ⟨f', _, (f.emits_keyed w fun _ => dropping.steady).cons emits, idle,
      List.forall_mem_cons.mpr ⟨quiet, quiets⟩⟩

/-- A word that is passed on is joined to the one before it, under the same header. -/
theorem Ipv4Filter.Passing.emits {f : Ipv4Filter} {p w : Bus} (passing : f.Passing p)
    (valid : w.valid = true) (eob : w.eob = false) :
    keyedStage.Emits f [w] (f.step w).1 [(joined 4 p w, some f.header.key)] := by
  -- The header registers do not change in this cycle.
  have here := f.emits_keyed w fun _ => passing.steady
  rw [passing.joins valid eob, Ipv4Filter.keyed, passing.steady.key w] at here
  exact here

/-- The joined words of a train are a train. -/
theorem Train.realigned {ws : List Bus} (train : Train ws) (s : Fin 9) (q : Bus) :
    ∀ p, Train (realigned s q p ws) := by
  -- Induction on the train; the last word, or the flush word behind it, ends the joined one.
  induction train with
  | last w valid eog eob =>
    intro p
    rw [MarketData.realigned, MarketData.realigned]
    cases past : spills s w.be with
    | false =>
      rw [if_neg Bool.false_ne_true]
      exact .last _ rfl (by simp [joined, eog, past]) rfl
    | true =>
      rw [if_pos rfl]
      exact .more _ rfl (by simp [joined, past]) rfl (.last _ rfl rfl rfl)
  | more w valid eog eob rest ih =>
    intro p
    exact .more _ rfl (by simp [joined, eog]) rfl (ih w)

/-- A train that is passed on, with the quiet cycle after it, is joined under one header. -/
theorem Ipv4Filter.Passing.run {ws : List Bus} (train : Train ws) {q : Bus} (quiet : q.Quiet) :
    ∀ {f : Ipv4Filter} {p : Bus} {key : HeaderKey}, f.Passing p → f.header.key = key →
      ∃ f' ts, keyedStage.Emits f (ws ++ [q]) f'
          ((realigned 4 q p ws).map (fun w => (w, some key)) ++ ts) ∧
        f'.Idle ∧ ∀ t ∈ ts, t.1.Quiet := by
  -- Induction on the train; the quiet cycle after the last word carries the flush, if any.
  induction train with
  | last w valid eog eob =>
    rintro f p key passing rfl
    have first := passing.emits valid eob
    rw [realigned, realigned]
    cases past : spills 4 w.be with
    | false =>
      have idle := passing.ends valid eog past
      have second := (f.step w).1.emits_keyed q fun _ => idle.steady
      obtain ⟨idle', silent⟩ := idle.quiet quiet
      exact ⟨_, _, first.cons second, idle', List.forall_mem_singleton.mpr silent⟩
    | true =>
      have purging := passing.overflows valid eog eob past
      have second := (f.step w).1.emits_keyed q fun _ => purging.steady
      obtain ⟨idle', last⟩ := purging.flush (q := q)
      rw [last, Ipv4Filter.keyed, purging.steady.key q, passing.steady.key w] at second
      exact ⟨_, [], first.cons second, idle', fun t member => absurd member List.not_mem_nil⟩
  | @more w ws valid eog eob rest ih =>
    rintro f p key passing rfl
    obtain ⟨f', ts, emits, idle, silent⟩ :=
      ih (passing.next valid eog eob) (passing.steady.key w)
    exact ⟨f', ts, (passing.emits valid eob).cons emits, idle, silent⟩

/-- So a train under one header comes out. -/
theorem Ipv4Filter.Passing.train {ws : List Bus} (train : Train ws) {q : Bus} (quiet : q.Quiet)
    {f : Ipv4Filter} {p : Bus} {key : HeaderKey} (passing : f.Passing p)
    (header : f.header.key = key) :
    ∃ f' es ts, keyedStage.Emits f (ws ++ [q]) f' (es ++ ts) ∧ Train (es.map Prod.fst) ∧
      (∀ e ∈ es, e.2 = some key) ∧ f'.Idle ∧ ∀ t ∈ ts, t.1.Quiet := by
  -- The words come out realigned, all of them under the header that was latched.
  obtain ⟨f', ts, emits, idle, silent⟩ := Ipv4Filter.Passing.run train quiet passing header
  refine ⟨f', _, ts, emits, ?_, ?_, idle, silent⟩
  · rw [List.map_map]
    exact (List.map_id _).symm ▸ train.realigned 4 q p
  · intro e member
    obtain ⟨w, _, rfl⟩ := List.mem_map.mp member
    rfl

/-- Both destination addresses pass. -/
def Ipv4Frame.LikeStation (f : Ipv4Frame) : Prop :=
  f.LikeMac ∧ f.LikeIp

/-- The header fields beside the words of the frame. -/
structure Ipv4Frame.Keyed (f : Ipv4Frame) (key : HeaderKey) : Prop where
  proto : key.proto = f.bytes.getD 23 0#8
  frag : key.frag = 0
  flags : (key.flags >>> 0) &&& 1 = 0

/-- The words of the datagram of a frame, the first one known, each with the header fields. -/
def CarriesDatagram (f : Ipv4Frame) (ws : List (Bus × Option HeaderKey)) : Prop :=
  Leads (f.bytes.drop 34) 1 (ws.map Prod.fst) ∧ ∀ w ∈ ws, ∃ key ∈ w.2, f.Keyed key

/-- The latched header words of a frame hold its header fields. -/
theorem Ipv4Frame.keyed (f : Ipv4Frame) {g : Ipv4Filter} {w₀ w₁ : Vector Byte 8}
    (first : g.fb5 = w₀) (second : g.fb4 = w₁) (known₀ : w₀.toList = (f.bytes.drop 14).take 8)
    (known₁ : w₁.toList = (f.bytes.drop 22).take 8) : f.Keyed g.header.key := by
  -- The fragment field is in the first word, the protocol in the second one.
  subst first second
  have high : g.fb5.get 6 = f.bytes.getD 20 0#8 := known_getElem known₀ 6 (by omega)
  have low : g.fb5.get 7 = f.bytes.getD 21 0#8 := known_getElem known₀ 7 (by omega)
  obtain ⟨frag, flags⟩ := Ipv4Filter.unfragmented (g := g) (by rw [high]; exact f.unfragmented)
    (by rw [high, low]; exact f.offset)
  exact ⟨known_getElem known₁ 1 (by omega), frag, flags⟩

/-- The IPv4 filter passes a packet on without its IP header, or drops it whole. -/
theorem ipv4_selects :
    keyedStage.Passes Ipv4Filter.Idle Bus.Silent (Selects Ipv4Frame.LikeMac CarriesPacket) 1
      (fun e => e.1.Quiet) (Selects Ipv4Frame.LikeStation CarriesDatagram) 0 0 where
  idle f q idle quiet := by
    obtain ⟨between, silent⟩ := idle.quiet quiet.1
    exact ⟨_, _, f.emits_keyed q fun _ => idle.steady, between, silent⟩
  packet g f ws ts idle selects calm one := by
    obtain ⟨q, rfl⟩ := List.length_eq_one_iff.mp one
    have quiet : q.Quiet := (calm q (List.mem_singleton_self q)).1
    rcases selects with ⟨selected, leads⟩ | ⟨other, rfl⟩
    · obtain ⟨w₀, _, rfl, valid₀, eog₀, eob₀, data₀, w₁, _, rfl, valid₁, eog₁, eob₁, data₁,
        w₂, _, rfl, valid₂, eog₂, eob₂, data₂, w₃, ws, rfl, valid₃, eog₃, eob₃, data₃, rest⟩ := leads
      simp only [List.drop_drop, Nat.reduceAdd] at data₁ data₂ data₃
      obtain ⟨version, _⟩ := f.opens data₀
      obtain ⟨⟨pd₁, quiet₁⟩, ⟨pd₂, quiet₂⟩, quiet₃, opened⟩ := idle.opens ⟨valid₀, valid₁, valid₂⟩
        ⟨eog₀, eog₁, eog₂⟩ ⟨eob₀, eob₁, eob₂⟩ version
      have opening := (g.emits_keyed w₀ fun _ => idle.steady).cons
        (((g.step w₀).1.emits_keyed w₁ (by simp [pd₁])).cons
          (((g.step w₀).1.step w₁).1.emits_keyed w₂ (by simp [pd₂])))
      generalize (((g.step w₀).1.step w₁).1.step w₂).1 = g₃ at opening quiet₃ opened
      have decided : _ ↔ f.LikeIp := addressMatches_iff ipAddr (by decide) data₂
      have silent : ∀ e ∈ [(g.step w₀).1.keyed (g.step w₀).1.second,
          ((g.step w₀).1.step w₁).1.keyed ((g.step w₀).1.step w₁).1.second,
          g₃.keyed g₃.second], e.1.Quiet := by
        simp [Ipv4Filter.keyed, quiet₁, quiet₂, quiet₃]
      have keyed := f.keyed opened.first opened.second data₀ data₁
      obtain ⟨state, closed, schedule, _, _, data, lanes, steady⟩ := opened
      cases matched : addressMatches ipAddr w₂.data (by decide) with
      | true =>
        -- The packet is for this station; its first output word starts behind the IP header.
        have passing : g₃.Passing w₂ := ⟨state, closed.trans matched, schedule, data, lanes, steady⟩
        obtain ⟨g₄, es, ts, emits, train, keys, idle₄, after⟩ := Ipv4Filter.Passing.train rest quiet
          (passing.next valid₃ eog₃ eob₃) (steady.key w₃)
        have whole := (opening.append (passing.emits valid₃ eob₃)).append emits
        refine ⟨g₄, _, (joined 4 w₂ w₃, some g₃.header.key) :: es, ts, by simpa using whole, idle₄,
          silent, Nat.zero_le _, .inl ⟨⟨selected, decided.mp matched⟩, ?_, ?_⟩, after,
          Nat.zero_le _⟩
        · refine ⟨_, _, rfl, rfl, by simp [joined, eog₃], rfl, ?_, train⟩
          have known : (window 4 w₂.data w₃.data).toList = ((f.bytes.drop 30).drop 4).take 8 :=
            window_take 4 data₂ (by rw [List.drop_drop]; exact data₃)
          rwa [List.drop_drop] at known
        · intro e member
          rcases List.mem_cons.mp member with rfl | later
          · exact ⟨_, rfl, keyed⟩
          · exact ⟨_, keys e later, keyed⟩
      | false =>
        -- The packet is for another station, and nothing comes out.
        have dropping : g₃.Dropping := ⟨state, closed.trans matched, steady⟩
        have train : Train (w₃ :: ws) := .more w₃ valid₃ eog₃ eob₃ (Leads.train rest)
        obtain ⟨g₄, es, emits, idle₄, silents⟩ := Ipv4Filter.Dropping.run train dropping
        obtain ⟨idle₅, last⟩ := idle₄.quiet quiet
        have whole := (opening.append emits).append (g₄.emits_keyed q fun _ => idle₄.steady)
        refine ⟨_, _, [], [(g₄.step q).1.keyed (g₄.step q).1.second], by simpa using whole, idle₅,
          List.forall_mem_append.mpr ⟨silent, silents⟩, Nat.zero_le _, .inr ⟨?_, rfl⟩,
          List.forall_mem_singleton.mpr last, Nat.zero_le _⟩
        rintro ⟨_, like⟩
        exact Bool.false_ne_true (matched.symm.trans (decided.mpr like))
    · obtain ⟨idle', silent⟩ := idle.quiet quiet
      exact ⟨_, [], [], _, g.emits_keyed q fun _ => idle.steady, idle', by simp, Nat.zero_le _,
        .inr ⟨fun like => other like.1, rfl⟩, List.forall_mem_singleton.mpr silent, Nat.zero_le _⟩

/-- A frame that the receive path delivers. -/
def Ipv4Frame.LikeWanted (f : Ipv4Frame) : Prop :=
  f.LikeStation ∧ f.ForPort

/-- The receiver drops the datagram and expects no fragments. -/
def UdpRx.Dropping (u : UdpRx) : Prop :=
  u.fb2 = true ∧ u.fb0 = false ∧ u.fb4 = false

/-- A word of a dropped datagram is dropped, and the last one ends the dropping. -/
theorem UdpRx.Dropping.word {u : UdpRx} (dropping : u.Dropping) (x : Bus × Ipv4Header)
    (valid : x.1.valid = true) (eob : x.1.eob = false) :
    (u.step x.1 x.2).2.Quiet ∧ (x.1.eog = false → (u.step x.1 x.2).1.Dropping) ∧
      (x.1.eog = true → (u.step x.1 x.2).1.Idle) := by
  -- The branch of an active packet is evaluated, with and without its end.
  obtain ⟨active, closed, whole⟩ := dropping
  refine ⟨?_, fun eog => ?_, fun eog => ?_⟩
  · simp [UdpRx.step, active, closed, Bus.Quiet]
  · simp [UdpRx.step, UdpRx.Dropping, active, closed, whole, eog, eob]
  · simp [UdpRx.step, UdpRx.Idle, active, whole, valid, eog]

/-- A dropped datagram leaves nothing but quiet outputs. -/
theorem UdpRx.Dropping.run (xs : List (Bus × Ipv4Header)) :
    ∀ {u : UdpRx}, u.Dropping → Train (xs.map Prod.fst) →
      ∃ u' es, udpStage.Emits u xs u' es ∧ u'.Idle ∧ ∀ e ∈ es, e.Quiet := by
  -- Induction on the words; the last one closes the datagram.
  induction xs with
  | nil =>
    intro u _ train
    cases train
  | cons x xs ih =>
    intro u dropping train
    rw [List.map_cons] at train
    generalize rest : xs.map Prod.fst = ws at train
    cases train with
    | last w valid eog eob =>
      obtain ⟨quiet, _, ends⟩ := dropping.word x valid eob
      have none : xs = [] := by simpa using rest
      subst none
      exact ⟨_, _, u.emits x, ends eog, List.forall_mem_singleton.mpr quiet⟩
    | more w valid eog eob later =>
      obtain ⟨quiet, stays, _⟩ := dropping.word x valid eob
      rw [← rest] at later
      obtain ⟨u', es, emits, idle, quiets⟩ := ih (stays eog) later
      exact ⟨u', _, (u.emits x).cons emits, idle, List.forall_mem_cons.mpr ⟨quiet, quiets⟩⟩

/-- The first word of another datagram is dropped. -/
theorem UdpRx.Idle.drops {u : UdpRx} (idle : u.Idle) (x : Bus × Ipv4Header)
    (valid : x.1.valid = true) (eog : x.1.eog = false) (eob : x.1.eob = false)
    (other : ¬ (destinationPort x.1.data = udpPort ∧ x.2.proto = 17#8)) :
    (u.step x.1 x.2).1.Dropping ∧ (u.step x.1 x.2).2.Quiet := by
  -- Neither the port and protocol nor an expected fragment lets it in.
  obtain ⟨inactive, whole⟩ := idle
  rw [destinationPort] at other
  have refused : (decide ((x.1.data[2].toNat <<< 8) ||| x.1.data[3].toNat = udpPort) &&
      decide (x.2.proto = 17#8)) = false := by simpa using other
  simp [UdpRx.step, UdpRx.Dropping, Bus.Quiet, inactive, whole, valid, eog, eob, refused]

/-- The UDP receiver passes the payload of a datagram on, or drops it whole. -/
theorem udp_selects :
    udpStage.Passes UdpRx.Idle (fun x => (keyedStage.view x).1.Quiet)
      (fun f xs => Selects Ipv4Frame.LikeStation CarriesDatagram f (xs.map keyedStage.view)) 0
      Bus.Quiet (Selects Ipv4Frame.LikeWanted fun _ ws => Train ws) 0 0 where
  idle u q idle quiet := by
    obtain ⟨between, silent⟩ := idle.quiet quiet
    exact ⟨_, _, u.emits q, between, silent⟩
  packet u f xs ts idle selects _ none := by
    have nothing : ts = [] := List.eq_nil_of_length_eq_zero none
    subst nothing
    rcases selects with ⟨selected, leads, keys⟩ | ⟨other, empty⟩
    · have plain : (xs.map keyedStage.view).map Prod.fst = xs.map Prod.fst := by
        rw [List.map_map]
        rfl
      rw [plain] at leads
      obtain ⟨w, ws, words, valid, eog, eob, data, rest⟩ := leads
      obtain ⟨x, xs, rfl, rfl, rfl⟩ := List.map_eq_cons_iff.mp words
      obtain ⟨key, shown, proto, frag, flags⟩ := keys (keyedStage.view x) (by simp)
      have same : x.2.key = key := by simpa [keyedStage, valid] using shown
      subst same
      -- The first word holds the ports.
      have port : (x.1.data[2].toNat <<< 8) ||| x.1.data[3].toNat =
          256 * (f.bytes.getD 36 0#8).toNat + (f.bytes.getD 37 0#8).toNat := by
        have value := u16LE_eq x.1.data[3] x.1.data[2]
        rw [u16LE, Nat.or_comm] at value
        rw [value, known_getElem data 2 (by omega), known_getElem data 3 (by omega), Nat.add_comm]
      by_cases wanted : f.ForPort
      · have accepted : x.2.accepted = true := by
          have udp : x.2.proto = 17#8 := proto.trans wanted.1
          have whole : x.2.frag = 0 := frag
          have last : (x.2.flags >>> 0) &&& 1 = 0 := flags
          simp only [Ipv4Header.accepted, udp, whole, last, decide_true, Bool.and_true]
        obtain ⟨active, silent⟩ := idle.header valid eog eob (port.trans wanted.2) accepted
        obtain ⟨u', emits, closed⟩ := active.run xs rest
        exact ⟨u', [(u.step x.1 x.2).2], xs.map Prod.fst, [], by simpa using (u.emits x).cons emits,
          closed, List.forall_mem_singleton.mpr silent, Nat.zero_le _, .inl ⟨⟨selected, wanted⟩, rest⟩,
          by simp, Nat.zero_le _⟩
      · obtain ⟨dropping, silent⟩ := idle.drops x valid eog eob (by
          rintro ⟨number, udp⟩
          exact wanted ⟨proto.symm.trans udp, port.symm.trans number⟩)
        obtain ⟨u', es, emits, closed, silents⟩ := UdpRx.Dropping.run xs dropping rest
        exact ⟨u', (u.step x.1 x.2).2 :: es, [], [], by simpa using (u.emits x).cons emits, closed,
          List.forall_mem_cons.mpr ⟨silent, silents⟩, Nat.zero_le _,
          .inr ⟨fun like => wanted like.2, rfl⟩, by simp, Nat.zero_le _⟩
    · have empty : xs = [] := by simpa using empty
      subst empty
      exact ⟨u, [], [], [], .nil _ u, idle, by simp, Nat.zero_le _,
        .inr ⟨fun like => other like.1, rfl⟩, by simp, Nat.zero_le _⟩

end MarketData
