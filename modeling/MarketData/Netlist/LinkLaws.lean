import MarketData.Netlist.Beats

/-! The link layer: the MAC filter strips the Ethernet header, the subframe finder finds IPv4. -/

namespace MarketData

/-- The output the registers hold for the next cycle but one. -/
def MacFilter.second (m : MacFilter) : Bus where
  data := window 6 m.fb21 m.fb20
  valid := m.fb2.pd
  be := (window 6 m.fb22 m.fb19).map fun e => e && m.fb2.pd
  eog := m.fb8.1
  eob := m.fb8.2

/-- The MAC filter as a stage of latency two. -/
def macStage : Stage MacFilter Bus Bus Bus where
  step m i := some (m.step i)
  view := id
  ahead m :=
    [{ data := m.fb24, valid := m.fb7, be := m.fb5.map fun e => e && m.fb7, eog := m.fb9.1,
       eob := m.fb9.2 }, m.second]

/-- A cycle outputs what was fixed and fixes the output two cycles later. -/
theorem MacFilter.emits (m : MacFilter) (i : Bus) :
    macStage.Emits m [i] (m.step i).1 [(m.step i).1.second] :=
  .single rfl rfl

/-- Disabling every lane leaves none enabled. -/
@[simp] theorem map_false (be : Vector Bool 8) : be.map (fun _ => false) = firstLanes 0 := by
  -- Lane by lane.
  apply Vector.ext
  intro i small
  simp [firstLanes]

/-- The filter is between two frames. -/
def MacFilter.Idle (m : MacFilter) : Prop :=
  m.fb0 = .idle

/-- The filter passes the payload of an accepted frame on, the last word being `p`. -/
structure MacFilter.Streaming (m : MacFilter) (p : Bus) : Prop where
  state : m.fb0 = .waitForLast
  accepted : m.fb1 = true
  schedule : m.fb23 = macPayload
  data : m.fb20 = p.data
  lanes : m.fb19 = p.be

section Step

variable {m : MacFilter}

/-- Between frames a quiet cycle adds a silent output. -/
theorem MacFilter.Idle.quiet {q : Bus} (idle : m.Idle) (quiet : q.Quiet) :
    (m.step q).1.Idle ∧ (m.step q).1.second.Silent := by
  -- The idle branch is evaluated without a valid word.
  unfold MacFilter.Idle at *
  obtain ⟨valid, eog, eob⟩ := quiet
  simp [MacFilter.step, MacFilter.second, idle, valid, eog, eob, Bus.Silent, Bus.Quiet,
    MacRoles.gate]

/-- The first word of an addressed frame opens it. -/
theorem MacFilter.Idle.first {w : Bus} (idle : m.Idle) (valid : w.valid = true)
    (eog : w.eog = false) (eob : w.eob = false)
    (addressed : addressMatches macAddr w.data (by decide) = true) :
    (m.step w).1.fb0 = .waitForLast ∧ (m.step w).1.fb1 = true ∧
      (m.step w).1.fb23 = macSecond ∧ (m.step w).1.second.Silent := by
  -- The idle branch is evaluated on a word with the address.
  unfold MacFilter.Idle at idle
  simp [MacFilter.step, MacFilter.second, idle, valid, eog, eob, addressed, Bus.Silent, Bus.Quiet,
    MacRoles.gate, macSched]

/-- The second word schedules the payload after it. -/
theorem MacFilter.second_word {w : Bus} (state : m.fb0 = .waitForLast) (accepted : m.fb1 = true)
    (schedule : m.fb23 = macSecond) (valid : w.valid = true)
    (eog : w.eog = false) (eob : w.eob = false) :
    (m.step w).1.Streaming w ∧ (m.step w).1.second.Silent := by
  -- The schedule puts the role of the payload next.
  refine ⟨⟨?_, ?_, ?_, ?_, ?_⟩, ?_⟩
  all_goals simp [MacFilter.step, MacFilter.second, state, accepted, schedule, valid, eog, eob,
    Bus.Silent, Bus.Quiet, MacRoles.gate, macSched]

/-- While streaming, a word is joined to the one before it. -/
theorem MacFilter.Streaming.joins {p w : Bus} (streaming : m.Streaming p)
    (valid : w.valid = true) (eob : w.eob = false) :
    (m.step w).1.second = joined 6 p w := by
  -- The word enters the history in front of which the last one stands.
  obtain ⟨state, accepted, schedule, data, lanes⟩ := streaming
  simp [MacFilter.step, MacFilter.second, state, accepted, schedule, data, lanes, valid, eob,
    MacRoles.gate, macSched, joined, spills_six]
  rfl

/-- A word that does not end the frame keeps the filter streaming. -/
theorem MacFilter.Streaming.next {p w : Bus} (streaming : m.Streaming p)
    (valid : w.valid = true) (eog : w.eog = false) (eob : w.eob = false) :
    (m.step w).1.Streaming w := by
  -- Without an end of frame the state and the schedule stay.
  obtain ⟨state, accepted, schedule, data, lanes⟩ := streaming
  constructor
  all_goals simp [MacFilter.step, state, accepted, schedule, valid, eog, eob, macSched]

/-- A last word that leaves no lane over ends the frame. -/
theorem MacFilter.Streaming.ends {p w : Bus} (streaming : m.Streaming p)
    (valid : w.valid = true) (eog : w.eog = true) (short : spills 6 w.be = false) :
    (m.step w).1.Idle := by
  -- Lanes 6 and 7 are disabled, so no flush word is owed.
  obtain ⟨state, accepted, schedule, data, lanes⟩ := streaming
  rw [spills_six, Bool.or_eq_false_iff] at short
  have disabled : w.be[6] = false ∧ w.be[7] = false := short
  simp [MacFilter.Idle, MacFilter.step, state, accepted, valid, eog, disabled]

end Step

/-- A streamed payload whose last word leaves no lane over is joined word by word. -/
theorem MacFilter.Streaming.run {ws : List Bus} {bs : List Byte} (packet : Packet ws bs)
    (short : bs.length % 8 ≠ 0 ∧ bs.length % 8 ≠ 7) (q : Bus) :
    ∀ {m : MacFilter} {p : Bus}, m.Streaming p →
      ∃ m', macStage.Emits m ws m' (realigned 6 q p ws) ∧ m'.Idle := by
  -- Induction on the packet; every word is joined to the one before it.
  induction packet with
  | last w n some small valid eog eob be =>
    intro m p streaming
    have bound : n ≤ 6 := by
      simp only [List.length_take, Vector.length_toList] at short
      omega
    have inside : spills 6 w.be = false := by
      rw [be, spills_firstLanes 6 small]
      exact decide_eq_false (by show ¬ 6 < n; omega)
    have joins := streaming.joins valid eob
    refine ⟨(m.step w).1, ?_, streaming.ends valid eog inside⟩
    simpa only [realigned, inside, joins, Bool.false_eq_true, if_false] using m.emits w
  | @more w ws bs valid eog eob be rest ih =>
    intro m p streaming
    have later : bs.length % 8 ≠ 0 ∧ bs.length % 8 ≠ 7 := by
      simp only [List.length_append, Vector.length_toList] at short
      omega
    obtain ⟨m', emits, idle⟩ := ih later (streaming.next valid eog eob)
    have joins := streaming.joins valid eob
    have here := m.emits w
    rw [joins] at here
    exact ⟨m', here.cons emits, idle⟩

/-- The words carry the frame, pad bytes included, from byte `n` on. -/
def CarriesFrom (n : Nat) (f : UdpFrame) (ws : List Bus) : Prop :=
  Packet ws (f.after n)

/-- Dropping bytes of a later part of the frame gives a still later part. -/
theorem UdpFrame.after_add (f : UdpFrame) (n k : Nat) : (f.after n).drop k = f.after (n + k) := by
  -- Consecutive drops add up.
  simp [UdpFrame.after, List.drop_drop]

/-- A word of the frame that is not the last one is full, and the rest follows it. -/
theorem CarriesFrom.uncons {n : Nat} {f : UdpFrame} {ws : List Bus} (carries : CarriesFrom n f ws)
    (more : n + 8 < f.bytes.length) :
    ∃ w ws', ws = w :: ws' ∧ f.after n = w.data.toList ++ f.after (n + 8) ∧ w.valid = true ∧
      w.eog = false ∧ w.eob = false ∧ w.be = firstLanes 8 ∧ CarriesFrom (n + 8) f ws' := by
  -- More than a word is left, so the packet does not end here.
  have packet : Packet ws (f.after n) := carries
  obtain ⟨size, _⟩ := f.after_length n
  obtain ⟨w, ws', bs, rfl, split, valid, eog, eob, be, rest⟩ := packet.uncons (by omega)
  have later : bs = f.after (n + 8) := by
    rw [← f.after_add n 8, split, List.drop_left' (by simp)]
  rw [later] at split rest
  exact ⟨w, ws', rfl, split, valid, eog, eob, be, rest⟩

/-- The MAC filter turns a frame into what follows its Ethernet header. -/
theorem mac_passes :
    macStage.Passes MacFilter.Idle Bus.Quiet (CarriesFrom 0) 0 Bus.Silent (CarriesFrom 14) 1 0
    where
  idle m q idle quiet := by
    obtain ⟨between, silent⟩ := idle.quiet quiet
    exact ⟨_, _, m.emits q, between, silent⟩
  packet m f ws ts idle carries _ none := by
    have long := f.long
    obtain ⟨size, pads, notEight, notSeven⟩ := f.after_length (0 + 8 + 8)
    -- Two words open the frame; the rest is joined to the second one.
    obtain ⟨w₀, ws₁, rfl, split₀, valid₀, eog₀, eob₀, be₀, carries₁⟩ :=
      carries.uncons (by omega)
    obtain ⟨w₁, ws₂, rfl, split₁, valid₁, eog₁, eob₁, be₁, carries₂⟩ :=
      carries₁.uncons (by omega)
    have start : w₀.data.toList.take 6 = macAddr.toList := by
      have read := f.after_take 0 6 (by omega)
      rw [split₀, List.take_append_of_le_length (by simp), List.drop_zero, f.mac] at read
      exact read
    obtain ⟨state, accepted, schedule, silent₀⟩ := idle.first valid₀ eog₀ eob₀
      (addressMatches_of_take macAddr w₀.data (by decide) start)
    obtain ⟨streaming, silent₁⟩ :=
      MacFilter.second_word state accepted schedule valid₁ eog₁ eob₁
    let q : Bus := ⟨w₁.data, false, firstLanes 0, false, false⟩
    obtain ⟨m', emits, between⟩ := streaming.run carries₂ (by omega) q
    have payload := carries₂.realign 6 (by decide) be₁ (rfl : q.be = firstLanes 0)
    have same : f.after 14 = w₁.data.toList.drop 6 ++ f.after 16 := by
      rw [← f.after_add 8 6, split₁, List.drop_append_of_le_length (by simp)]
    have nothing : ts = [] := List.eq_nil_of_length_eq_zero none
    refine ⟨m', [(m.step w₀).1.second, ((m.step w₀).1.step w₁).1.second],
      realigned 6 q w₁ ws₂, [], ?_, between, ?_, by simp, ?_, by simp, by simp⟩
    · rw [nothing, List.append_nil, List.append_nil]
      exact (m.emits w₀).cons (((m.step w₀).1.emits w₁).cons emits)
    · simp [silent₀, silent₁]
    · rw [CarriesFrom, same]
      exact payload

/-- The subframe finder as a stage of latency one. -/
def subStage : Stage FindSubframe Bus Bus Bus where
  step := FindSubframe.step
  view := id
  ahead f :=
    [{ data := f.fb6, valid := f.fb1, be := f.fb5, eog := f.prevEof.1, eob := f.prevEof.2 }]

/-- The finder is between two packets. -/
def FindSubframe.Idle (f : FindSubframe) : Prop :=
  f.fb0 = .idle

/-- The finder passes a packet of normal size on. -/
def FindSubframe.Active (f : FindSubframe) : Prop :=
  f.fb0 = .normalWaitForLast

section Subframe

variable {f : FindSubframe}

/-- Between packets a quiet cycle is passed on. -/
theorem FindSubframe.Idle.quiet {q : Bus} (idle : f.Idle) (quiet : q.Quiet) :
    ∃ f', subStage.Emits f [q] f' [q] ∧ f'.Idle := by
  -- Without a valid word the finder stays idle and passes the cycle on.
  unfold FindSubframe.Idle at *
  obtain ⟨valid, eog, eob⟩ := quiet
  refine ⟨_, .single (by simp only [subStage, FindSubframe.step, idle]; rfl) rfl, ?_⟩
  simp [valid]

/-- The first word of a packet of normal size opens it. -/
theorem FindSubframe.Idle.first {w : Bus} (idle : f.Idle) (valid : w.valid = true)
    (eog : w.eog = false) (eob : w.eob = false) (version : w.data.get 0 = 0x45#8)
    (normal : ¬ (w.data.get 2 = 0#8 ∧ w.data.get 3 < 46#8)) :
    ∃ f', subStage.Emits f [w] f' [w] ∧ f'.Active := by
  -- Version and header length match, and the total length is not small.
  have version : w.data[0] = 0x45#8 := version
  have normal : ¬ (w.data[2] = 0#8 ∧ w.data[3] < 46#8) := normal
  unfold FindSubframe.Idle at idle
  refine ⟨_, .single (by simp only [subStage, FindSubframe.step, idle]; rfl) rfl, ?_⟩
  simp only [FindSubframe.Active, valid, eog, eob, version, Bool.or_self,
    Bool.false_eq_true, if_false, decide_true, Bool.and_true, if_true]
  rw [if_neg (by simpa using normal)]

/-- A train that is passed on ends with its last word. -/
theorem FindSubframe.Active.run {ws : List Bus} (train : Train ws) :
    ∀ {f : FindSubframe}, f.Active → ∃ f', subStage.Emits f ws f' ws ∧ f'.Idle := by
  -- Induction on the train; only the last word closes it.
  induction train with
  | last w valid eog eob =>
    intro f active
    unfold FindSubframe.Active at active
    refine ⟨_, .single (by simp only [subStage, FindSubframe.step, active]; rfl) rfl, ?_⟩
    simp [FindSubframe.Idle, valid, eog]
  | @more w ws valid eog eob rest ih =>
    intro f active
    unfold FindSubframe.Active at active
    have here : ∃ f', subStage.Emits f [w] f' [w] ∧ f'.Active := by
      refine ⟨_, .single (by simp only [subStage, FindSubframe.step, active]; rfl) rfl, ?_⟩
      simp [FindSubframe.Active, eog, eob]
    obtain ⟨f₁, emits₁, active₁⟩ := here
    obtain ⟨f₂, emits₂, idle₂⟩ := ih active₁
    exact ⟨f₂, emits₁.cons emits₂, idle₂⟩

end Subframe

/-- A byte of a word of the frame is a byte of the frame. -/
theorem UdpFrame.word_getElem (f : UdpFrame) {n : Nat} {data : Vector Byte 8} {rest : List Byte}
    (split : f.after n = data.toList ++ rest) (k : Nat) (inside : k < 8)
    (within : n + k < f.bytes.length) : data[k] = f.bytes.getD (n + k) 0#8 := by
  -- The word is the first of what is left of the frame.
  rw [← f.after_getD n k within, split, getD_append, if_pos (by simpa using inside)]
  simp [List.getD_eq_getElem?_getD, inside]

/-- The subframe finder passes the IPv4 packet of a frame on unchanged. -/
theorem sub_passes :
    subStage.Passes FindSubframe.Idle Bus.Silent (CarriesFrom 14) 1 Bus.Silent (CarriesFrom 14)
      0 1 where
  idle f q idle silent := by
    obtain ⟨f', emits, between⟩ := idle.quiet silent.1
    exact ⟨f', q, emits, between, silent⟩
  packet s f ws ts idle carries silent one := by
    have long := f.long
    have length := f.totalLength
    obtain ⟨w, ws', rfl, split, valid, eog, eob, be, rest⟩ := carries.uncons (by omega)
    have version : w.data[0] = 0x45#8 := by
      rw [f.word_getElem split 0 (by omega) (by omega)]
      exact f.version
    have high : w.data[2] = f.bytes.getD 16 0#8 := f.word_getElem split 2 (by omega) (by omega)
    have low : w.data[3] = f.bytes.getD 17 0#8 := f.word_getElem split 3 (by omega) (by omega)
    -- A total length of at least 46 is not a small packet.
    have normal : ¬ (w.data[2] = 0#8 ∧ w.data[3] < 46#8) := by
      rintro ⟨zero, small⟩
      rw [high] at zero
      rw [low, BitVec.lt_def] at small
      rw [zero] at length
      have bound : (f.bytes.getD 17 0#8).toNat < 46 := small
      have none : (0#8).toNat = 0 := rfl
      omega
    obtain ⟨s₁, emits₁, active⟩ := idle.first valid eog eob version normal
    obtain ⟨s₂, emits₂, idle₂⟩ := active.run (Packet.train rest)
    obtain ⟨q, rfl⟩ := List.length_eq_one_iff.mp one
    obtain ⟨s₃, emits₃, idle₃⟩ := idle₂.quiet (silent q (by simp)).1
    refine ⟨s₃, [], w :: ws', [q], ?_, idle₃, by simp, by simp, carries, silent, by simp⟩
    exact (emits₁.cons emits₂).append emits₃

end MarketData
