import MarketData.Netlist.NetworkLaws

/-! Which packets the UDP receiver accepts: first datagrams, and what it takes for their fragments. -/

namespace MarketData

/-- The end of a frame, good or bad. -/
def Bus.eof (b : Bus) : Bool :=
  b.eog || b.eob

/-- The cycles of a packet behind its first word: an eof ends its last valid word and no other.

Cycles without a valid word may stand between the words, whatever their other signals are. -/
inductive Closes : List Bus → Prop
  | last (w : Bus) : w.valid = true → w.eof = true → Closes [w]
  | word (w : Bus) {ws} : w.valid = true → w.eof = false → Closes ws → Closes (w :: ws)
  | idle (w : Bus) {ws} : w.valid = false → Closes ws → Closes (w :: ws)

/-- A packet of two or more valid words under one header. -/
structure UdpPacket where
  /-- What the IPv4 filter holds beside every word. -/
  hdr : Ipv4Header
  /-- The word with the ports, when the packet starts a datagram. -/
  first : Bus
  /-- The cycles after it. -/
  rest : List Bus
  valid : first.valid = true
  opens : first.eof = false
  closes : Closes rest

/-- The cycles of the packet, each with the header. -/
def UdpPacket.cycles (p : UdpPacket) : List (Bus × Ipv4Header) :=
  (p.first :: p.rest).map (·, p.hdr)

/-- A first datagram: the station's port, the UDP protocol and fragment offset zero. -/
def UdpPacket.isFirst (p : UdpPacket) : Bool :=
  decide (destinationPort p.first.data = udpPort) &&
    decide (p.hdr.proto = 17#8) && decide (p.hdr.frag = 0)

/-- The more-fragments bit of the packet. -/
def UdpPacket.moreFragments (p : UdpPacket) : Bool :=
  decide ((p.hdr.flags >>> 0) &&& 1 ≠ 0)

/-- Acceptance by Identification: a first datagram, or a fragment of the packet accepted last. -/
def UdpPacket.wanted (latest : Option UdpPacket) (p : UdpPacket) : Bool :=
  p.isFirst || latest.any fun q => q.moreFragments && decide (p.hdr.ident = q.hdr.ident)

/-- Which cycles of the packet deliver a word; the UDP header of a first datagram is not delivered. -/
def UdpPacket.delivered (p : UdpPacket) (accepted : Bool) : List Bool :=
  (accepted && !p.isFirst) :: p.rest.map fun w => accepted && w.valid

/-- Cycles without a valid word, and the packet after them. -/
structure Slot where
  gap : List (Bus × Ipv4Header)
  packet : UdpPacket

/-- The cycles presented to the receiver. -/
def presented (slots : List Slot) : List (Bus × Ipv4Header) :=
  slots.flatMap fun s => s.gap ++ s.packet.cycles

/-- The header of the last of these cycles, or the one before them. -/
def lastHeader (before : Option Ipv4Header) (gap : List (Bus × Ipv4Header)) : Option Ipv4Header :=
  gap.foldl (fun _ q => some q.2) before

/-- In the cycle before each packet its header is already there; the gaps hold no valid word. -/
def Settles : Option Ipv4Header → List Slot → Prop
  | _, [] => True
  | before, s :: slots =>
    (∀ q ∈ s.gap, q.1.valid = false) ∧ lastHeader before s.gap = some s.packet.hdr ∧
      Settles (some s.packet.hdr) slots

/-- The cycles in which a word should be delivered. -/
def wantedCycles : Option UdpPacket → List Slot → List Bool
  | _, [] => []
  | latest, s :: slots =>
    List.replicate s.gap.length false ++
      (s.packet.delivered (s.packet.wanted latest) ++
        wantedCycles (if s.packet.wanted latest then some s.packet else latest) slots)

/-- No foreign packet comes while fragments are expected.

Behind an accepted packet with more fragments only a first datagram or a packet with the same
Identification follows. -/
def NoForeign : Option UdpPacket → List UdpPacket → Prop
  | _, [] => True
  | latest, p :: ps =>
    (p.isFirst = true ∨ ∀ q ∈ latest, q.moreFragments = true → p.hdr.ident = q.hdr.ident) ∧
      NoForeign (if p.wanted latest then some p else latest) ps

/-- The receiver after some cycles. -/
def UdpRx.feed (u : UdpRx) (is : List (Bus × Ipv4Header)) : UdpRx :=
  is.foldl (fun u i => (u.step i.1 i.2).1) u

/-- The outputs of the receiver, one for each cycle. -/
def UdpRx.outputs : UdpRx → List (Bus × Ipv4Header) → List Bus
  | _, [] => []
  | u, i :: is => (u.step i.1 i.2).2 :: UdpRx.outputs (u.step i.1 i.2).1 is

/-- The cycles in which the receiver delivers a word. -/
def UdpRx.delivers (u : UdpRx) (is : List (Bus × Ipv4Header)) : List Bool :=
  (u.outputs is).map Bus.valid

/-- What is delivered is delivered as it came. -/
theorem UdpRx.outputs_data (u : UdpRx) (is : List (Bus × Ipv4Header)) :
    (u.outputs is).map (fun b => (b.data, b.be)) = is.map fun i => (i.1.data, i.1.be) := by
  -- Induction on the cycles; no branch touches the data or the enables.
  induction is generalizing u with
  | nil => rfl
  | cons i is ih => simp [UdpRx.outputs, ih, UdpRx.step]

/-- Consecutive cycles deliver one after the other. -/
theorem UdpRx.delivers_append (u : UdpRx) (is js : List (Bus × Ipv4Header)) :
    u.delivers (is ++ js) = u.delivers is ++ (u.feed is).delivers js := by
  -- Induction on the first cycles.
  induction is generalizing u with
  | nil => rfl
  | cons i is ih =>
    have rest := ih (u.step i.1 i.2).1
    simp only [UdpRx.delivers, UdpRx.feed] at rest ⊢
    simp [UdpRx.outputs, rest]

/-- The receiver is between packets; what it knows of the cycle before and of fragments. -/
structure UdpRx.Between (u : UdpRx) (before : Option Ipv4Header) (fragments : Bool) : Prop where
  closed : u.fb2 = false
  ident : ∀ h ∈ before, u.fb3 = h.ident
  expects : u.fb4 = fragments

section Steps

variable {u : UdpRx}

/-- A cycle without a valid word delivers nothing and only moves the Identification on. -/
theorem UdpRx.Between.idle {before : Option Ipv4Header} {fragments : Bool}
    (between : u.Between before fragments) {i : Bus × Ipv4Header} (invalid : i.1.valid = false) :
    (u.step i.1 i.2).1.Between (some i.2) fragments ∧ (u.step i.1 i.2).2.valid = false := by
  -- Nothing is opened without a valid word.
  obtain ⟨closed, _, expects⟩ := between
  refine ⟨⟨?_, ?_, ?_⟩, ?_⟩
  all_goals simp [UdpRx.step, closed, expects, invalid]

/-- A gap delivers nothing and leaves the header of its last cycle behind. -/
theorem UdpRx.Between.gap (gap : List (Bus × Ipv4Header)) {before : Option Ipv4Header}
    {fragments : Bool} (between : u.Between before fragments)
    (invalid : ∀ q ∈ gap, q.1.valid = false) :
    (u.feed gap).Between (lastHeader before gap) fragments ∧
      u.delivers gap = List.replicate gap.length false := by
  -- Induction on the gap, one cycle at a time.
  induction gap generalizing u before with
  | nil => exact ⟨between, rfl⟩
  | cons q gap ih =>
    obtain ⟨here, later⟩ := List.forall_mem_cons.mp invalid
    obtain ⟨next, silent⟩ := between.idle here
    obtain ⟨final, silents⟩ := ih next later
    refine ⟨final, ?_⟩
    simp only [UdpRx.delivers] at silents ⊢
    simp [UdpRx.outputs, silent, silents, List.replicate_succ]

/-- The first word opens its packet.

The Identification register already holds the packet's own Identification, so that the comparison
with it never rejects. -/
theorem UdpRx.Between.opens {p : UdpPacket} {fragments : Bool}
    (between : u.Between (some p.hdr) fragments) :
    let v := (u.step p.first p.hdr).1
    v.fb2 = true ∧ v.fb0 = (p.isFirst || fragments) ∧ v.fb3 = p.hdr.ident ∧
      v.fb4 = (if p.isFirst || fragments then p.moreFragments else fragments) ∧
      (u.step p.first p.hdr).2.valid = ((p.isFirst || fragments) && !p.isFirst) := by
  -- The branch of a first valid word is evaluated for both ways the decision can go.
  obtain ⟨closed, ident, expects⟩ := between
  have same : u.fb3 = p.hdr.ident := ident p.hdr rfl
  have valid := p.valid
  have eof := p.opens
  unfold Bus.eof at eof
  have start : (decide ((p.first.data[2].toNat <<< 8) ||| p.first.data[3].toNat = udpPort) &&
      decide (p.hdr.proto = 17#8) && decide (p.hdr.frag = 0)) = p.isFirst := rfl
  have more : decide ((p.hdr.flags >>> 0) &&& 1 ≠ 0) = p.moreFragments := rfl
  simp only [UdpRx.step, closed, valid, eof, start, more, same, expects]
  cases p.isFirst <;> cases fragments <;> simp

/-- An open packet delivers its valid words when it was accepted, and closes with its last one. -/
theorem UdpRx.closing {ws : List Bus} (closes : Closes ws) (hdr : Ipv4Header) :
    ∀ {u : UdpRx}, u.fb2 = true →
      (u.feed (ws.map (·, hdr))).Between (some hdr) u.fb4 ∧
        u.delivers (ws.map (·, hdr)) = ws.map fun w => u.fb0 && w.valid := by
  -- Induction on the cycles; neither flag changes before the eof.
  induction closes with
  | last w valid eof =>
    intro u active
    unfold Bus.eof at eof
    have stops : (u.step w hdr).1.fb2 = false ∧ (u.step w hdr).1.fb4 = u.fb4 ∧
        (u.step w hdr).2.valid = (u.fb0 && w.valid) := by
      simp only [UdpRx.step, active, valid, eof, Bool.not_true, Bool.false_eq_true, if_false,
        Bool.and_self, if_true, and_self]
    obtain ⟨closed, expects, here⟩ := stops
    refine ⟨⟨closed, ?_, expects⟩, by simp [UdpRx.delivers, UdpRx.outputs, here]⟩
    rintro h ⟨⟩
    rfl
  | @word w ws valid eof _ ih =>
    intro u active
    unfold Bus.eof at eof
    have stays : (u.step w hdr).1.fb2 = true ∧ (u.step w hdr).1.fb0 = u.fb0 ∧
        (u.step w hdr).1.fb4 = u.fb4 ∧ (u.step w hdr).2.valid = (u.fb0 && w.valid) := by
      simp [UdpRx.step, active, eof]
    obtain ⟨open_, accepted, expects, here⟩ := stays
    obtain ⟨between, rest⟩ := ih open_
    rw [expects] at between
    rw [accepted] at rest
    refine ⟨between, ?_⟩
    simp only [UdpRx.delivers] at rest ⊢
    simp [UdpRx.outputs, here, rest]
  | @idle w ws invalid _ ih =>
    intro u active
    have stays : (u.step w hdr).1.fb2 = true ∧ (u.step w hdr).1.fb0 = u.fb0 ∧
        (u.step w hdr).1.fb4 = u.fb4 ∧ (u.step w hdr).2.valid = (u.fb0 && w.valid) := by
      simp [UdpRx.step, active, invalid]
    obtain ⟨open_, accepted, expects, here⟩ := stays
    obtain ⟨between, rest⟩ := ih open_
    rw [expects] at between
    rw [accepted] at rest
    refine ⟨between, ?_⟩
    simp only [UdpRx.delivers] at rest ⊢
    simp [UdpRx.outputs, here, rest]

/-- The receiver accepts first datagrams, and every packet while it expects fragments. -/
theorem UdpRx.Between.packet {p : UdpPacket} {fragments : Bool}
    (between : u.Between (some p.hdr) fragments) :
    (u.feed p.cycles).Between (some p.hdr)
        (if p.isFirst || fragments then p.moreFragments else fragments) ∧
      u.delivers p.cycles = p.delivered (p.isFirst || fragments) := by
  -- The decision of the first word holds for the rest.
  obtain ⟨open_, accepted, _, expects, first⟩ := between.opens
  obtain ⟨next, rest⟩ := UdpRx.closing p.closes p.hdr open_
  rw [expects] at next
  rw [accepted] at rest
  refine ⟨next, ?_⟩
  simp only [UdpRx.delivers] at rest ⊢
  simp [UdpPacket.cycles, UdpRx.outputs, UdpPacket.delivered, first, rest]

end Steps

/-- A delivered word of an accepted packet is delivered. -/
theorem UdpPacket.delivered_inj {p : UdpPacket} {a b : Bool}
    (same : p.delivered a = p.delivered b) : a = b := by
  -- The last valid word of the packet is delivered exactly when the packet is accepted.
  have last : ∃ w ∈ p.rest, w.valid = true := by
    have closes := p.closes
    generalize p.rest = ws at closes
    induction closes with
    | last w valid => exact ⟨w, by simp, valid⟩
    | word w valid => exact ⟨w, by simp, valid⟩
    | idle w _ _ ih =>
      obtain ⟨v, member, valid⟩ := ih
      exact ⟨v, by simp [member], valid⟩
  obtain ⟨w, member, valid⟩ := last
  rw [UdpPacket.delivered, UdpPacket.delivered, List.cons.injEq, List.map_inj_left] at same
  simpa [valid] using same.2 w member

/-- The two rules decide alike unless a foreign packet comes while fragments are expected. -/
theorem UdpPacket.wanted_eq_iff (p : UdpPacket) (latest : Option UdpPacket) :
    (p.isFirst || latest.any UdpPacket.moreFragments) = p.wanted latest ↔
      p.isFirst = true ∨ ∀ q ∈ latest, q.moreFragments = true → p.hdr.ident = q.hdr.ident := by
  -- They differ in the comparison with the packet accepted last only.
  unfold UdpPacket.wanted
  cases p.isFirst with
  | true => simp
  | false =>
    cases latest with
    | none => simp
    | some q => cases more : q.moreFragments <;> simp [more]

/-- The expectation of fragments is that of the packet accepted last. -/
theorem UdpPacket.remembered (p : UdpPacket) (latest : Option UdpPacket) :
    (if p.wanted latest then some p else latest).any UdpPacket.moreFragments =
      if p.wanted latest then p.moreFragments else latest.any UdpPacket.moreFragments := by
  -- An accepted packet replaces the one before.
  cases p.wanted latest <;> rfl

/-- From between two packets, deliveries are by Identification exactly without foreign packets. -/
theorem UdpRx.Between.delivers_iff (slots : List Slot) :
    ∀ {u : UdpRx} {before : Option Ipv4Header} (latest : Option UdpPacket),
      u.Between before (latest.any UdpPacket.moreFragments) → Settles before slots →
      (u.delivers (presented slots) = wantedCycles latest slots ↔
        NoForeign latest (slots.map Slot.packet)) := by
  -- Induction on the slots: as long as the decisions agree, both remember the same packet.
  induction slots with
  | nil => exact fun _ _ _ => ⟨fun _ => trivial, fun _ => rfl⟩
  | cons s slots ih =>
    intro u before latest between settles
    obtain ⟨invalid, settled, later⟩ := settles
    obtain ⟨ready, silent⟩ := between.gap s.gap invalid
    rw [settled] at ready
    obtain ⟨next, delivers⟩ := ready.packet
    have split : presented (s :: slots) = s.gap ++ (s.packet.cycles ++ presented slots) := by
      simp [presented]
    rw [split, UdpRx.delivers_append, UdpRx.delivers_append, silent, delivers, wantedCycles,
      List.append_cancel_left_eq, List.map_cons, NoForeign]
    generalize (u.feed s.gap).feed s.packet.cycles = v at next
    rw [List.append_eq_append_iff_of_size_eq_left (by simp [UdpPacket.delivered]),
      ← s.packet.wanted_eq_iff latest]
    constructor
    · rintro ⟨same, rest⟩
      have agree := UdpPacket.delivered_inj same
      rw [agree, ← UdpPacket.remembered] at next
      exact ⟨agree, (ih _ next later).mp rest⟩
    · rintro ⟨agree, rest⟩
      rw [agree, ← UdpPacket.remembered] at next
      exact ⟨by rw [agree], (ih _ next later).mpr rest⟩

/-- Settled packets leave the receiver between packets. -/
theorem UdpRx.Between.slots (slots : List Slot) :
    ∀ {u : UdpRx} {before : Option Ipv4Header} {fragments : Bool},
      u.Between before fragments → Settles before slots →
      ∃ before' fragments', (u.feed (presented slots)).Between before' fragments' := by
  -- Induction on the slots; every packet closes.
  induction slots with
  | nil => exact fun between _ => ⟨_, _, between⟩
  | cons s slots ih =>
    intro u before fragments between settles
    obtain ⟨invalid, settled, later⟩ := settles
    obtain ⟨ready, _⟩ := between.gap s.gap invalid
    rw [settled] at ready
    obtain ⟨next, _⟩ := ready.packet
    have final := ih next later
    simpa [presented, UdpRx.feed] using final

/-- The deliveries from the initial state are by Identification exactly without foreign packets.

`wantedCycles` is the acceptance rule: first datagrams, and packets with the Identification of the
packet accepted last, when that one announced more fragments. Data and byte enables of every cycle
are those presented in it. -/
theorem fragments_by_identification_iff (slots : List Slot) (tail : List (Bus × Ipv4Header))
    (settles : Settles none slots) (idle : ∀ q ∈ tail, q.1.valid = false) :
    (UdpRx.fresh.outputs (presented slots ++ tail)).map (fun b => (b.data, b.be)) =
        (presented slots ++ tail).map (fun i => (i.1.data, i.1.be)) ∧
      (UdpRx.fresh.delivers (presented slots ++ tail) =
          wantedCycles none slots ++ List.replicate tail.length false ↔
        NoForeign none (slots.map Slot.packet)) := by
  refine ⟨UdpRx.fresh.outputs_data _, ?_⟩
  -- The cycles at the end deliver nothing on either side.
  have fresh : UdpRx.fresh.Between none (none.any UdpPacket.moreFragments) :=
    ⟨rfl, by simp, rfl⟩
  obtain ⟨before, fragments, between⟩ := UdpRx.Between.slots slots fresh settles
  rw [UdpRx.delivers_append, (between.gap tail idle).2, List.append_left_inj]
  exact fresh.delivers_iff slots none settles

/-- A cycle without a valid word under this header. -/
def quietUnder (hdr : Ipv4Header) : Bus × Ipv4Header :=
  ({ data := Vector.replicate 8 0, valid := false, be := Vector.replicate 8 false, eog := false,
     eob := false }, hdr)

/-- A packet of two words: ports 8000 and 8000 if it is a first datagram, then one word of payload. -/
def twoWords (hdr : Ipv4Header) : UdpPacket where
  hdr := hdr
  first := { data := #v[0x1F, 0x40, 0x1F, 0x40, 0, 16, 0, 0], valid := true,
             be := Vector.replicate 8 true, eog := false, eob := false }
  rest := [{ data := Vector.replicate 8 0xAB, valid := true, be := Vector.replicate 8 true,
             eog := true, eob := false }]
  valid := rfl
  opens := rfl
  closes := .last _ rfl rfl

/-- The header of a datagram or a fragment for this station. -/
def fragmentHeader (ident flags frag : Nat) : Ipv4Header :=
  { totalLen := 36, ident, flags, frag, proto := 17, dstIp := ipAddr }

/-- A datagram with more fragments, and a fragment with another Identification behind it. -/
def foreignSlots : List Slot :=
  [⟨[quietUnder (fragmentHeader 7 1 0)], twoWords (fragmentHeader 7 1 0)⟩,
    ⟨[quietUnder (fragmentHeader 9 0 2)], twoWords (fragmentHeader 9 0 2)⟩]

/-- A fragment of another datagram is delivered. -/
theorem foreign_fragment_delivered :
    ¬ ∀ (slots : List Slot) (tail : List (Bus × Ipv4Header)), Settles none slots →
      (∀ q ∈ tail, q.1.valid = false) →
      UdpRx.fresh.delivers (presented slots ++ tail) =
        wantedCycles none slots ++ List.replicate tail.length false := by
  -- The two words of the second packet are delivered, although its Identification is 9 and not 7.
  intro always
  have delivered := always foreignSlots [] (by simp [Settles, foreignSlots, lastHeader, quietUnder,
    twoWords, fragmentHeader]) (by simp)
  revert delivered
  decide

/-- A datagram with more fragments, its fragment, and a fragment after the last one. -/
def ownSlots : List Slot :=
  [⟨[quietUnder (fragmentHeader 7 1 0)], twoWords (fragmentHeader 7 1 0)⟩,
    ⟨[quietUnder (fragmentHeader 7 0 2)], twoWords (fragmentHeader 7 0 2)⟩,
    ⟨[quietUnder (fragmentHeader 7 0 4)], twoWords (fragmentHeader 7 0 4)⟩]

/-- The fragment is delivered whole, and the packet after it is not. -/
theorem fragments_by_identification_own :
    UdpRx.fresh.delivers (presented ownSlots ++ []) =
      [false, false, true, false, true, true, false, false, false] := by
  -- No packet of the sample is foreign, so the rule gives the deliveries.
  have rule := fragments_by_identification_iff ownSlots [] (by simp [Settles, ownSlots, lastHeader,
    quietUnder, twoWords, fragmentHeader]) (by simp)
  rw [rule.2.mpr (by simp [NoForeign, ownSlots, twoWords, fragmentHeader, UdpPacket.wanted,
    UdpPacket.isFirst, UdpPacket.moreFragments, udpPort])]
  decide

end MarketData
