import MarketData.Netlist.LinkLaws

/-! The network layer: the IPv4 filter strips the IP header, the UDP receiver the UDP header. -/

namespace MarketData

/-- The header fields admit a whole UDP datagram. -/
def Ipv4Header.accepted (h : Ipv4Header) : Bool :=
  decide (h.proto = 17#8) && decide (h.frag = 0) && decide ((h.flags >>> 0) &&& 1 = 0)

/-- The output the registers hold for the next cycle but one. -/
def Ipv4Filter.second (f : Ipv4Filter) : Bus where
  data := window 4 f.fb19 f.fb18
  valid := f.fb2.pd
  be := window 4 f.fb21 f.fb20
  eog := f.fb7.1
  eob := f.fb7.2

/-- An output, and whether it is a word of a datagram whose header is accepted. -/
def Ipv4Filter.tagged (f : Ipv4Filter) (b : Bus) : Bus × Bool :=
  (b, b.valid && f.header.accepted)

/-- The IPv4 filter as a stage of latency two; the header is observed on valid words only. -/
def ipv4Stage : Stage Ipv4Filter Bus (Bus × Ipv4Header) (Bus × Bool) where
  step f i := some (f.step i)
  view o := (o.1, o.1.valid && o.2.accepted)
  ahead f :=
    [f.tagged { data := f.fb23, valid := f.fb6, be := f.fb24, eog := f.fb8.1, eob := f.fb8.2 },
      f.tagged f.second]

/-- No header word is latched in this cycle. -/
def Ipv4Filter.Steady (f : Ipv4Filter) : Prop :=
  f.fb2.h1 = false ∧ f.fb2.h2 = false

/-- Acceptance reads the two latched header words only. -/
theorem Ipv4Filter.accepted_congr {f g : Ipv4Filter} (second : f.fb4 = g.fb4)
    (first : f.fb5 = g.fb5) : f.header.accepted = g.header.accepted := by
  -- The address register is not part of the acceptance.
  unfold Ipv4Filter.header Ipv4Header.accepted
  rw [first, second]

/-- Without a latch the fields of the header stay accepted or not. -/
theorem Ipv4Filter.Steady.accepted {f : Ipv4Filter} (steady : f.Steady) (i : Bus) :
    (f.step i).1.header.accepted = f.header.accepted := by
  -- Neither header register is written.
  obtain ⟨first, second⟩ := steady
  apply Ipv4Filter.accepted_congr
  · simp [Ipv4Filter.step, second]
  · simp [Ipv4Filter.step, first]

/-- A cycle outputs what was fixed and fixes the output two cycles later. -/
theorem Ipv4Filter.emits {f : Ipv4Filter} (i : Bus) (steady : f.fb2.pd = true → f.Steady) :
    ipv4Stage.Emits f [i] (f.step i).1 [(f.step i).1.tagged (f.step i).1.second] := by
  -- The queue moves up by one, each entry tagged with the header of its cycle.
  refine .single rfl ?_
  -- The middle output is observed under the new header, which differs on quiet cycles only.
  have middle : (f.step i).1.tagged f.second = f.tagged f.second := by
    cases pd : f.fb2.pd with
    | false => simp [Ipv4Filter.tagged, Ipv4Filter.second, pd]
    | true => simp only [Ipv4Filter.tagged, (steady pd).accepted i]
  show _ :: (f.step i).1.tagged f.second :: _ = _ :: f.tagged f.second :: _
  rw [middle]
  rfl

/-- The filter is between two packets. -/
structure Ipv4Filter.Idle (f : Ipv4Filter) : Prop where
  state : f.fb0 = .waitForFirst
  steady : f.Steady

/-- The filter passes the payload of an accepted packet on, the last word being `p`. -/
structure Ipv4Filter.Streaming (f : Ipv4Filter) (p : Bus) : Prop where
  state : f.fb0 = .waitForLast
  open_ : f.fb1 = true
  schedule : f.fb22 = ipv4Payload
  data : f.fb18 = p.data
  lanes : f.fb20 = p.be
  steady : f.Steady
  accepted : f.header.accepted = true

/-- The filter owes a flush word for the lanes that the last word `p` left over. -/
structure Ipv4Filter.Flushing (f : Ipv4Filter) (p : Bus) : Prop where
  state : f.fb0 = .purge
  ended : f.fb9 = (true, false)
  data : f.fb18 = p.data
  lanes : f.fb20 = p.be
  steady : f.Steady
  accepted : f.header.accepted = true

/-- The filter passes the payload of a packet for this station on, whatever its header says. -/
structure Ipv4Filter.Passing (f : Ipv4Filter) (p : Bus) : Prop where
  state : f.fb0 = .waitForLast
  open_ : f.fb1 = true
  schedule : f.fb22 = ipv4Payload
  data : f.fb18 = p.data
  lanes : f.fb20 = p.be
  steady : f.Steady

/-- The filter owes the flush word of a packet for this station. -/
structure Ipv4Filter.Purging (f : Ipv4Filter) (p : Bus) : Prop where
  state : f.fb0 = .purge
  ended : f.fb9 = (true, false)
  data : f.fb18 = p.data
  lanes : f.fb20 = p.be
  steady : f.Steady

/-- The filter has taken three header words and decided about the address. -/
structure Ipv4Filter.Opened (f : Ipv4Filter) (w₀ w₁ w₂ : Bus) : Prop where
  state : f.fb0 = .waitForLast
  decided : f.fb1 = addressMatches ipAddr w₂.data (by decide)
  schedule : f.fb22 = ipv4Payload
  first : f.fb5 = w₀.data
  second : f.fb4 = w₁.data
  data : f.fb18 = w₂.data
  lanes : f.fb20 = w₂.be
  steady : f.Steady

section Step

variable {f : Ipv4Filter}

/-- Between packets a quiet cycle adds a quiet output. -/
theorem Ipv4Filter.Idle.quiet {q : Bus} (idle : f.Idle) (quiet : q.Quiet) :
    (f.step q).1.Idle ∧ (f.step q).1.second.Quiet := by
  -- The first state is evaluated without a valid word.
  obtain ⟨state, _⟩ := idle
  obtain ⟨valid, eog, eob⟩ := quiet
  refine ⟨⟨?_, ?_⟩, ?_⟩
  all_goals simp [Ipv4Filter.step, Ipv4Filter.second, Ipv4Filter.Steady, state, valid, eog, eob,
    Bus.Quiet, Ipv4Roles.gate]

/-- Three header words are latched one cycle after they come, and nothing is passed on. -/
theorem Ipv4Filter.Idle.opens {w₀ w₁ w₂ : Bus} (idle : f.Idle)
    (valid : w₀.valid = true ∧ w₁.valid = true ∧ w₂.valid = true)
    (eog : w₀.eog = false ∧ w₁.eog = false ∧ w₂.eog = false)
    (eob : w₀.eob = false ∧ w₁.eob = false ∧ w₂.eob = false)
    (version : w₀.data.get 0 = 0x45#8) :
    let f₁ := (f.step w₀).1
    let f₂ := (f₁.step w₁).1
    let f₃ := (f₂.step w₂).1
    (f₁.fb2.pd = false ∧ f₁.second.Quiet) ∧ (f₂.fb2.pd = false ∧ f₂.second.Quiet) ∧
      f₃.second.Quiet ∧ f₃.Opened w₀ w₁ w₂ := by
  -- Three cycles are evaluated one after the other, the header word of each latched in the next.
  obtain ⟨state, steady⟩ := idle
  have version : w₀.data[0] = 0x45#8 := version
  intro f₁ f₂ f₃
  -- First word: its latch is scheduled for the next cycle.
  have first : f₁.fb0 = .waitForSecond ∧ f₁.fb2 = ipv4First ∧ f₁.fb18 = w₀.data ∧
      f₁.fb22 = ipv4Second ∧ f₁.second.Quiet := by
    refine ⟨?_, ?_, ?_, ?_, ?_⟩
    all_goals simp [f₁, Ipv4Filter.step, Ipv4Filter.second, Bus.Quiet, state, valid, eog, eob,
      version, Ipv4Roles.gate, ipv4Sched]
  clear_value f₁
  obtain ⟨state₁, roles₁, data₁, schedule₁, quiet₁⟩ := first
  -- Second word: the first one is latched.
  have second : f₂.fb0 = .waitForThird ∧ f₂.fb2 = ipv4Sched[1] ∧ f₂.fb5 = w₀.data ∧
      f₂.fb18 = w₁.data ∧ f₂.fb22 = ipv4Third ∧
      f₂.second.Quiet := by
    refine ⟨?_, ?_, ?_, ?_, ?_, ?_⟩
    all_goals simp [f₂, Ipv4Filter.step, Ipv4Filter.second, Bus.Quiet, state₁, roles₁, data₁,
      schedule₁, valid, eog, eob, Ipv4Roles.gate, ipv4Sched]
  clear_value f₂
  obtain ⟨state₂, roles₂, latch₂, data₂, schedule₂, quiet₂⟩ := second
  refine ⟨⟨by simp [roles₁, ipv4Sched], quiet₁⟩, ⟨by simp [roles₂, ipv4Sched], quiet₂⟩, ?_, ?_⟩
  -- Third word: the second one is latched, and the address is compared.
  · simp [f₃, Ipv4Filter.step, Ipv4Filter.second, Bus.Quiet, state₂, schedule₂, valid, eog, eob,
      Ipv4Roles.gate, ipv4Sched]
  · constructor
    all_goals simp [f₃, Ipv4Filter.step, Ipv4Filter.Steady, state₂, roles₂, latch₂, data₂,
      schedule₂, valid, eog, eob, Ipv4Roles.gate, ipv4Sched]

/-- The three header words of a packet for this station open it and latch its header. -/
theorem Ipv4Filter.Idle.header {w₀ w₁ w₂ : Bus} (idle : f.Idle)
    (valid : w₀.valid = true ∧ w₁.valid = true ∧ w₂.valid = true)
    (eog : w₀.eog = false ∧ w₁.eog = false ∧ w₂.eog = false)
    (eob : w₀.eob = false ∧ w₁.eob = false ∧ w₂.eob = false)
    (version : w₀.data.get 0 = 0x45#8)
    (address : addressMatches ipAddr w₂.data (by decide) = true) :
    ∃ f' e₀ e₁ e₂, ipv4Stage.Emits f [w₀, w₁, w₂] f' [e₀, e₁, e₂] ∧
      e₀.1.Quiet ∧ e₁.1.Quiet ∧ e₂.1.Quiet ∧ f'.fb4 = w₁.data ∧ f'.fb5 = w₀.data ∧
      (f'.header.accepted = true → f'.Streaming w₂) := by
  -- The cycles are observed one after the other; the address opens the packet.
  obtain ⟨⟨pd₁, quiet₁⟩, ⟨pd₂, quiet₂⟩, quiet₃, opened⟩ := idle.opens valid eog eob version
  have emits₀ := f.emits w₀ fun _ => idle.steady
  have emits₁ := (f.step w₀).1.emits w₁ (by simp [pd₁])
  have emits₂ := ((f.step w₀).1.step w₁).1.emits w₂ (by simp [pd₂])
  obtain ⟨state, decided, schedule, first, second, data, lanes, steady⟩ := opened
  refine ⟨_, _, _, _, emits₀.cons (emits₁.cons emits₂), quiet₁, quiet₂, quiet₃, second, first, ?_⟩
  intro accepted
  exact ⟨state, decided.trans address, schedule, data, lanes, steady, accepted⟩

/-- A packet that is streamed is passed on. -/
theorem Ipv4Filter.Streaming.passing {p : Bus} (streaming : f.Streaming p) : f.Passing p := by
  -- What the header says is forgotten.
  obtain ⟨state, opened, schedule, data, lanes, steady, _⟩ := streaming
  exact ⟨state, opened, schedule, data, lanes, steady⟩

/-- While passing, a word is joined to the one before it. -/
theorem Ipv4Filter.Passing.joins {p w : Bus} (passing : f.Passing p) (valid : w.valid = true)
    (eob : w.eob = false) : (f.step w).1.second = joined 4 p w := by
  -- The word enters the history behind the last one.
  obtain ⟨state, opened, schedule, data, lanes, steady⟩ := passing
  simp [Ipv4Filter.step, Ipv4Filter.second, state, opened, schedule, data, lanes, valid, eob,
    Ipv4Roles.gate, ipv4Sched, joined, spills_four]
  rfl

/-- A word that does not end the packet keeps the filter passing. -/
theorem Ipv4Filter.Passing.next {p w : Bus} (passing : f.Passing p) (valid : w.valid = true)
    (eog : w.eog = false) (eob : w.eob = false) : (f.step w).1.Passing w := by
  -- Without an end of frame the state and the schedule stay.
  obtain ⟨state, opened, schedule, data, lanes, steady⟩ := passing
  constructor
  all_goals simp [Ipv4Filter.step, Ipv4Filter.Steady, state, opened, schedule, valid, eog, eob,
    Ipv4Roles.gate, ipv4Sched]

/-- A last word that leaves no lane over ends the packet. -/
theorem Ipv4Filter.Passing.ends {p w : Bus} (passing : f.Passing p) (valid : w.valid = true)
    (eog : w.eog = true) (inside : spills 4 w.be = false) : (f.step w).1.Idle := by
  -- Lanes 4 to 7 are disabled, so no flush word is owed.
  obtain ⟨state, opened, schedule, data, lanes, steady⟩ := passing
  rw [spills_four] at inside
  have inside : (w.be[4] || w.be[5] || w.be[6] || w.be[7]) = false := inside
  constructor
  all_goals simp [Ipv4Filter.step, Ipv4Filter.Steady, state, opened, schedule, valid, eog, inside,
    Ipv4Roles.gate, ipv4Sched]

/-- A last word that leaves lanes over is followed by a flush. -/
theorem Ipv4Filter.Passing.overflows {p w : Bus} (passing : f.Passing p) (valid : w.valid = true)
    (eog : w.eog = true) (eob : w.eob = false) (past : spills 4 w.be = true) :
    (f.step w).1.Purging w := by
  -- A lane from 4 on is enabled, so the purge state follows.
  obtain ⟨state, opened, schedule, data, lanes, steady⟩ := passing
  rw [spills_four] at past
  have past : (w.be[4] || w.be[5] || w.be[6] || w.be[7]) = true := past
  constructor
  all_goals simp [Ipv4Filter.step, Ipv4Filter.Steady, state, opened, schedule, valid, eog, eob,
    past, Ipv4Roles.gate, ipv4Sched]

/-- The flush word ends the packet. -/
theorem Ipv4Filter.Purging.flush {p q : Bus} (purging : f.Purging p) :
    (f.step q).1.Idle ∧ (f.step q).1.second = flushed 4 p q := by
  -- The purge state outputs the rest of the last word and returns to the first state.
  obtain ⟨state, ended, data, lanes, steady⟩ := purging
  refine ⟨⟨?_, ?_⟩, ?_⟩
  · simp [Ipv4Filter.step, state]
  · simp [Ipv4Filter.step, Ipv4Filter.Steady, state, ipv4Sched]
  · simp [Ipv4Filter.step, Ipv4Filter.second, state, ended, data, lanes, flushed, ipv4Sched]

/-- While streaming, a word is joined to the one before it. -/
theorem Ipv4Filter.Streaming.joins {p w : Bus} (streaming : f.Streaming p)
    (valid : w.valid = true) (eob : w.eob = false) :
    (f.step w).1.tagged (f.step w).1.second = (joined 4 p w, true) := by
  -- The header does not change, so the word is tagged as accepted.
  rw [streaming.passing.joins valid eob, Ipv4Filter.tagged, streaming.steady.accepted w,
    streaming.accepted]
  rfl

/-- A word that does not end the packet keeps the filter streaming. -/
theorem Ipv4Filter.Streaming.next {p w : Bus} (streaming : f.Streaming p)
    (valid : w.valid = true) (eog : w.eog = false) (eob : w.eob = false) :
    (f.step w).1.Streaming w := by
  -- The header stays accepted.
  have accepted := streaming.accepted
  rw [← streaming.steady.accepted w] at accepted
  obtain ⟨state, opened, schedule, data, lanes, steady⟩ := streaming.passing.next valid eog eob
  exact ⟨state, opened, schedule, data, lanes, steady, accepted⟩

/-- A last word that leaves lanes over is followed by a flush. -/
theorem Ipv4Filter.Streaming.overflows {p w : Bus} (streaming : f.Streaming p)
    (valid : w.valid = true) (eog : w.eog = true) (eob : w.eob = false)
    (past : spills 4 w.be = true) : (f.step w).1.Flushing w := by
  -- The header stays accepted.
  have accepted := streaming.accepted
  rw [← streaming.steady.accepted w] at accepted
  obtain ⟨state, ended, data, lanes, steady⟩ := streaming.passing.overflows valid eog eob past
  exact ⟨state, ended, data, lanes, steady, accepted⟩

/-- The flush word ends the packet. -/
theorem Ipv4Filter.Flushing.flush {p q : Bus} (flushing : f.Flushing p) :
    (f.step q).1.Idle ∧
      (f.step q).1.tagged (f.step q).1.second = (flushed 4 p q, true) := by
  -- The flush word is the one of any packet, under a header that stays accepted.
  obtain ⟨state, ended, data, lanes, steady, accepted⟩ := flushing
  have purging : f.Purging p := ⟨state, ended, data, lanes, steady⟩
  obtain ⟨idle, last⟩ := purging.flush (q := q)
  refine ⟨idle, ?_⟩
  rw [last, Ipv4Filter.tagged, steady.accepted q, accepted]
  rfl

end Step

/-- A streamed payload and the quiet cycle after it are joined word by word and flushed. -/
theorem Ipv4Filter.Streaming.run {ws : List Bus} {bs : List Byte} (packet : Packet ws bs)
    {q : Bus} (quiet : q.Quiet) :
    ∀ {f : Ipv4Filter} {p : Bus}, f.Streaming p →
      ∃ f' ts, ipv4Stage.Emits f (ws ++ [q]) f' ((realigned 4 q p ws).map (·, true) ++ ts) ∧
        f'.Idle ∧ ∀ t ∈ ts, t.1.Quiet := by
  -- Induction on the packet; the quiet cycle after the last word carries the flush, if any.
  induction packet with
  | last w n some small valid eog eob be =>
    intro f p streaming
    have here := f.emits w fun _ => streaming.steady
    rw [streaming.joins valid eob] at here
    cases past : spills 4 w.be with
    | false =>
      have idle := streaming.passing.ends valid eog past
      have rest := (f.step w).1.emits q fun _ => idle.steady
      obtain ⟨idle', quiet'⟩ := idle.quiet quiet
      refine ⟨_, [((f.step w).1.step q).1.tagged ((f.step w).1.step q).1.second], ?_, idle',
        by simpa [Ipv4Filter.tagged] using quiet'⟩
      rw [realigned, realigned, past, if_neg Bool.false_ne_true]
      exact here.cons rest
    | true =>
      have flushing := streaming.overflows valid eog eob past
      have rest := (f.step w).1.emits q fun _ => flushing.steady
      obtain ⟨idle', last⟩ := flushing.flush
      rw [last] at rest
      refine ⟨_, [], ?_, idle', by simp⟩
      rw [realigned, realigned, past, if_pos rfl]
      exact here.cons rest
  | @more w ws bs valid eog eob be rest ih =>
    intro f p streaming
    have here := f.emits w fun _ => streaming.steady
    rw [streaming.joins valid eob] at here
    obtain ⟨f', ts, emits, idle, calm⟩ := ih (streaming.next valid eog eob)
    exact ⟨f', ts, here.cons emits, idle, calm⟩

/-- Words that carry the frame from byte `n` on, each tagged as accepted. -/
def CarriesAccepted (n : Nat) (f : UdpFrame) (ws : List (Bus × Bool)) : Prop :=
  CarriesFrom n f (ws.map Prod.fst) ∧ ∀ w ∈ ws, w.2 = true

/-- A fragment field without offset and without more fragments reads as such. -/
theorem Ipv4Filter.unfragmented {g : Ipv4Filter} (flag : (g.fb5.get 6).getLsbD 5 = false)
    (offset : g.fb5.get 6 &&& 0x1F#8 = 0#8 ∧ g.fb5.get 7 = 0#8) :
    g.header.frag = 0 ∧ (g.header.flags >>> 0) &&& 1 = 0 := by
  -- The offset is read from thirteen bits, all zero.
  obtain ⟨high, low⟩ := offset
  have flag : g.fb5[6].getLsbD 5 = false := flag
  have masked : g.fb5[6].toNat &&& 0x1F = 0 := by
    have value := congrArg BitVec.toNat high
    rwa [BitVec.toNat_and] at value
  have rest : g.fb5[7].toNat = 0 := congrArg BitVec.toNat low
  -- More fragments is the bit above them.
  have more : (g.fb5[6].toNat >>> 5) &&& 1 = 0 := by
    rw [Nat.and_comm]
    simpa [BitVec.getLsbD, Nat.testBit] using flag
  constructor
  · simp only [Ipv4Filter.header, masked, rest, Nat.zero_shiftLeft, Nat.or_zero]
  · rw [Ipv4Filter.header, Nat.shiftRight_zero, Nat.and_assoc]
    exact more

/-- The latched header words of a frame are accepted. -/
theorem UdpFrame.accepted (f : UdpFrame) {g : Ipv4Filter} (proto : g.fb4.get 1 = f.bytes.getD 23 0#8)
    (high : g.fb5.get 6 = f.bytes.getD 20 0#8) (low : g.fb5.get 7 = f.bytes.getD 21 0#8) :
    g.header.accepted = true := by
  -- The latched words hold the fragment field and the protocol of the frame.
  obtain ⟨frag, flags⟩ := Ipv4Filter.unfragmented (g := g) (by rw [high]; exact f.unfragmented)
    (by rw [high, low]; exact f.offset)
  have udp : g.header.proto = 17#8 := proto.trans f.protocol
  simp only [Ipv4Header.accepted, udp, frag, flags, decide_true, Bool.and_true]

/-- The IPv4 filter turns a packet into the datagram it carries. -/
theorem ipv4_passes :
    ipv4Stage.Passes Ipv4Filter.Idle Bus.Silent (CarriesFrom 14) 1 (fun e => e.1.Quiet)
      (CarriesAccepted 34) 0 0 where
  idle f q idle silent := by
    obtain ⟨between, quiet⟩ := idle.quiet silent.1
    exact ⟨_, _, f.emits q fun _ => idle.steady, between, quiet⟩
  packet g f ws ts idle carries silent one := by
    have long := f.long
    -- Three words hold the header and the start of the datagram.
    obtain ⟨w₀, ws₁, rfl, split₀, valid₀, eog₀, eob₀, be₀, carries₁⟩ :=
      carries.uncons (by omega)
    obtain ⟨w₁, ws₂, rfl, split₁, valid₁, eog₁, eob₁, be₁, carries₂⟩ :=
      carries₁.uncons (by omega)
    obtain ⟨w₂, ws₃, rfl, split₂, valid₂, eog₂, eob₂, be₂, carries₃⟩ :=
      carries₂.uncons (by omega)
    obtain ⟨q, rfl⟩ := List.length_eq_one_iff.mp one
    have calm := silent q (by simp)
    have version : w₀.data[0] = 0x45#8 := by
      rw [f.word_getElem split₀ 0 (by omega) (by omega)]
      exact f.version
    have address : w₂.data.toList.take 4 = ipAddr.toList := by
      have read := f.after_take 30 4 (by omega)
      rw [split₂, List.take_append_of_le_length (by simp), f.ip] at read
      exact read
    obtain ⟨g₁, e₀, e₁, e₂, emits, quiet₀, quiet₁, quiet₂, latch₁, latch₀, streams⟩ :=
      idle.header ⟨valid₀, valid₁, valid₂⟩ ⟨eog₀, eog₁, eog₂⟩ ⟨eob₀, eob₁, eob₂⟩ version
        (addressMatches_of_take ipAddr w₂.data (by decide) address)
    have accepted : g₁.header.accepted = true := by
      apply f.accepted
      · rw [latch₁]
        exact f.word_getElem split₁ 1 (by omega) (by omega)
      · rw [latch₀]
        exact f.word_getElem split₀ 6 (by omega) (by omega)
      · rw [latch₀]
        exact f.word_getElem split₀ 7 (by omega) (by omega)
    have streaming := streams accepted
    obtain ⟨g₂, tail, rest, idle₂, after⟩ := streaming.run carries₃ calm.1
    have datagram := carries₃.realign 4 (by decide) be₂ calm.2
    have same : f.after 34 = w₂.data.toList.drop 4 ++ f.after 38 := by
      rw [← f.after_add 30 4, split₂, List.drop_append_of_le_length (by simp)]
    refine ⟨g₂, [e₀, e₁, e₂], (realigned 4 q w₂ ws₃).map (·, true), tail, ?_, idle₂, ?_, by simp,
      ⟨?_, ?_⟩, after, Nat.zero_le _⟩
    · simpa using emits.append rest
    · simp [quiet₀, quiet₁, quiet₂]
    · have untag : (Prod.fst ∘ fun b : Bus => (b, true)) = id := rfl
      rw [CarriesFrom, same, List.map_map, untag, List.map_id]
      exact datagram
    · intro w member
      obtain ⟨b, _, rfl⟩ := List.mem_map.mp member
      rfl

/-- The UDP receiver as a stage without latency. -/
def udpStage : Stage UdpRx (Bus × Ipv4Header) Bus Bus where
  step u i := some (u.step i.1 i.2)
  view := id
  ahead _ := []

/-- One cycle of the receiver answers at once. -/
theorem UdpRx.emits (u : UdpRx) (i : Bus × Ipv4Header) :
    udpStage.Emits u [i] (u.step i.1 i.2).1 [(u.step i.1 i.2).2] :=
  .single rfl rfl

/-- The receiver is between two datagrams and expects no fragments. -/
def UdpRx.Idle (u : UdpRx) : Prop :=
  u.fb2 = false ∧ u.fb4 = false

/-- The receiver passes the payload of an accepted datagram on. -/
def UdpRx.Active (u : UdpRx) : Prop :=
  u.fb2 = true ∧ u.fb0 = true ∧ u.fb4 = false

section Udp

variable {u : UdpRx}

/-- Between datagrams a quiet cycle stays quiet. -/
theorem UdpRx.Idle.quiet {q : Bus × Ipv4Header} (idle : u.Idle) (quiet : q.1.Quiet) :
    (u.step q.1 q.2).1.Idle ∧ (u.step q.1 q.2).2.Quiet := by
  -- Without a valid word nothing is opened and nothing is passed on.
  obtain ⟨inactive, whole⟩ := idle
  obtain ⟨valid, eog, eob⟩ := quiet
  simp [UdpRx.step, UdpRx.Idle, Bus.Quiet, inactive, whole, valid]

/-- The word with the UDP header opens the datagram and is not passed on. -/
theorem UdpRx.Idle.header {w : Bus} {hdr : Ipv4Header} (idle : u.Idle) (valid : w.valid = true)
    (eog : w.eog = false) (eob : w.eob = false)
    (port : destinationPort w.data = udpPort) (accepted : hdr.accepted = true) :
    (u.step w hdr).1.Active ∧ (u.step w hdr).2.Quiet := by
  -- Port, protocol and offset match, and no more fragments are announced.
  obtain ⟨inactive, whole⟩ := idle
  rw [destinationPort] at port
  simp only [Ipv4Header.accepted, Bool.and_eq_true, decide_eq_true_eq] at accepted
  obtain ⟨⟨proto, frag⟩, flags⟩ := accepted
  rw [Nat.shiftRight_zero, Nat.and_one_is_mod] at flags
  simp [UdpRx.step, UdpRx.Active, Bus.Quiet, inactive, valid, eog, eob, port, proto, frag, flags]

/-- A word of an open datagram is passed on as it is. -/
theorem UdpRx.Active.word {w : Bus} (hdr : Ipv4Header) (active : u.Active) (valid : w.valid = true)
    (eob : w.eob = false) :
    (u.step w hdr).2 = w ∧ (w.eog = false → (u.step w hdr).1.Active) ∧
      (w.eog = true → (u.step w hdr).1.Idle) := by
  -- The branch of an open datagram is evaluated, with and without its end.
  obtain ⟨open_, accepted, whole⟩ := active
  refine ⟨?_, ?_, ?_⟩
  · obtain ⟨data, v, be, g, b⟩ := w
    simp only at valid eob
    simp [UdpRx.step, open_, accepted, valid]
  · intro eog
    simp [UdpRx.step, UdpRx.Active, open_, accepted, whole, eog, eob]
  · intro eog
    simp [UdpRx.step, UdpRx.Idle, open_, whole, valid, eog]

end Udp

/-- The payload of an open datagram is passed on to its last word. -/
theorem UdpRx.Active.run (xs : List (Bus × Ipv4Header)) :
    ∀ {u : UdpRx}, u.Active → Train (xs.map Prod.fst) →
      ∃ u', udpStage.Emits u xs u' (xs.map Prod.fst) ∧ u'.Idle := by
  -- Induction on the words; only the last one closes the datagram.
  induction xs with
  | nil =>
    intro u _ train
    cases train
  | cons x xs ih =>
    intro u active train
    have here := u.emits x
    rw [List.map_cons] at train ⊢
    generalize rest : xs.map Prod.fst = ws at train
    cases train with
    | last w valid eog eob =>
      obtain ⟨passed, _, closes⟩ := active.word x.2 valid eob
      have none : xs = [] := by simpa using rest
      rw [passed] at here
      subst none
      exact ⟨_, here, closes eog⟩
    | more w valid eog eob later =>
      obtain ⟨passed, stays, _⟩ := active.word x.2 valid eob
      rw [passed] at here
      rw [← rest] at later
      obtain ⟨u', emits, idle⟩ := ih (stays eog) later
      rw [rest] at emits
      exact ⟨u', here.cons emits, idle⟩

/-- The UDP receiver turns a datagram into its payload. -/
theorem udp_passes :
    udpStage.Passes UdpRx.Idle (fun x => (ipv4Stage.view x).1.Quiet)
      (fun f xs => CarriesAccepted 34 f (xs.map ipv4Stage.view)) 0 Bus.Quiet (CarriesFrom 42)
      0 0 where
  idle u q idle quiet := by
    obtain ⟨between, silent⟩ := idle.quiet quiet
    exact ⟨_, _, u.emits q, between, silent⟩
  packet u f xs ts idle carries _ none := by
    have long := f.long
    obtain ⟨carried, tagged⟩ := carries
    rw [List.map_map] at carried
    have plain : Prod.fst ∘ ipv4Stage.view = Prod.fst := rfl
    rw [plain] at carried
    obtain ⟨w, ws, words, split, valid, eog, eob, be, rest⟩ := carried.uncons (by omega)
    obtain ⟨x, xs, rfl, rfl, rfl⟩ := List.map_eq_cons_iff.mp words
    -- The first word holds the ports.
    have high : x.1.data[2] = f.bytes.getD 36 0#8 := f.word_getElem split 2 (by omega) (by omega)
    have low : x.1.data[3] = f.bytes.getD 37 0#8 := f.word_getElem split 3 (by omega) (by omega)
    have port : (x.1.data[2].toNat <<< 8) ||| x.1.data[3].toNat = udpPort := by
      have value := u16LE_eq x.1.data[3] x.1.data[2]
      rw [u16LE, Nat.or_comm] at value
      rw [value, high, low, Nat.add_comm]
      exact f.port
    have accepted : x.2.accepted = true := by
      have both := tagged (ipv4Stage.view x) (by simp)
      exact (Bool.and_eq_true_iff.mp both).2
    obtain ⟨active, silent⟩ := idle.header valid eog eob port accepted
    obtain ⟨u', emits, closed⟩ := active.run xs (Packet.train rest)
    have nothing : ts = [] := List.eq_nil_of_length_eq_zero none
    refine ⟨u', [(u.step x.1 x.2).2], xs.map Prod.fst, [], ?_, closed, by simpa using silent,
      Nat.zero_le _, rest, by simp, Nat.zero_le _⟩
    rw [nothing, List.append_nil, List.append_nil]
    exact (u.emits x).cons emits

end MarketData
