import MarketData.Netlist.GapNetwork

/-! Gaps inside the header of a packet: the schedule of the IPv4 filter runs out, and nothing comes. -/

namespace MarketData

/-- Cycles without an end of frame up to one that has it; only quiet cycles follow. -/
inductive Ending : List Bus → Prop
  | last (w : Bus) {rs} : w.eog = true → w.eob = false → (∀ r ∈ rs, r.Quiet) → Ending (w :: rs)
  | more (w : Bus) {is} : w.eog = false → w.eob = false → Ending is → Ending (w :: is)

/-- A gap may be put in front. -/
theorem Ending.gap (n : Nat) (b : Bus) {is : List Bus} (ending : Ending is) :
    Ending (List.replicate n b.mute ++ is) := by
  induction n with
  | zero => exact ending
  | succ n ih =>
    rw [List.replicate_succ, List.cons_append]
    exact .more _ rfl rfl ih

/-- A train with gaps ends with its last word. -/
theorem PacedTrain.ending {ps : List (Bus × Nat)} (train : PacedTrain ps) {rs : List Bus}
    (quiet : ∀ r ∈ rs, r.Quiet) : Ending (paced Bus.mute ps ++ rs) := by
  -- Induction on the train, each gap cycle by cycle.
  induction train with
  | last w valid eog eob => exact .last w eog eob quiet
  | more w n valid eog eob rest ih =>
    rw [paced_cons, List.cons_append, List.append_assoc]
    exact .more w eog eob (ih.gap n w)

/-- The first word of a datagram, as its header is refused by the UDP receiver. -/
structure Refused (e : Bus × Option HeaderKey) (key : HeaderKey) : Prop where
  shown : e.2 = some key
  valid : e.1.valid = true
  eog : e.1.eog = false
  eob : e.1.eob = false
  other : ¬ (destinationPort e.1.data = udpPort ∧ key.frag = 0)

/-- Outputs of which the UDP receiver passes nothing on. -/
inductive Muffled : List (Bus × Option HeaderKey) → Prop
  | nil : Muffled []
  | quiet {e es} : e.1.Quiet → Muffled es → Muffled (e :: es)
  /-- Behind a refused word no frame ends. -/
  | refused {e key es} : Refused e key → (∀ d ∈ es, d.1.eog = false ∧ d.1.eob = false) →
      Muffled (e :: es)

/-- The start of such outputs is such as well. -/
theorem Muffled.of_append {es fs : List (Bus × Option HeaderKey)} (muffled : Muffled (es ++ fs)) :
    Muffled es := by
  -- Output by output.
  induction es with
  | nil => exact .nil
  | cons e es ih =>
    cases muffled with
    | quiet calm rest => exact .quiet calm (ih rest)
    | refused refuses open_ =>
      exact .refused refuses fun d member => open_ d (List.mem_append_left fs member)

/-- Quiet outputs may come in front. -/
theorem Muffled.prepend {es fs : List (Bus × Option HeaderKey)} (quiet : ∀ e ∈ es, e.1.Quiet)
    (muffled : Muffled fs) : Muffled (es ++ fs) := by
  induction es with
  | nil => exact muffled
  | cons e es ih =>
    obtain ⟨here, later⟩ := List.forall_mem_cons.mp quiet
    exact .quiet here (ih later)

/-- On these cycles the filter puts out nothing that is passed on. -/
def Ipv4Filter.Mutes (f : Ipv4Filter) (is : List Bus) : Prop :=
  ∃ f' es, keyedStage.Emits f is f' es ∧ Muffled es

/-- The filter waits for a third word that it no longer takes, or drops the packet. -/
inductive Ipv4Filter.Shut (f : Ipv4Filter) : Prop
  | dropping : f.Dropping → f.Shut
  | stalled : f.fb0 = .waitForThird → f.fb22 = ipv4Payload →
      f.Steady → f.Shut

/-- The filter waits for a second word that it no longer takes; words leak through. -/
structure Ipv4Filter.Leaking (f : Ipv4Filter) : Prop where
  state : f.fb0 = .waitForSecond
  schedule : f.fb22 = ipv4Payload
  steady : f.Steady

section Ipv4

variable {f : Ipv4Filter} {a b c w : Bus}

/-- A quiet output in front is not passed on. -/
theorem Ipv4Filter.Mutes.cons {is : List Bus} (steady : f.fb2.pd = true → f.Steady)
    (quiet : (f.step w).1.second.Quiet) (rest : (f.step w).1.Mutes is) : f.Mutes (w :: is) := by
  obtain ⟨f', es, emits, muffled⟩ := rest
  exact ⟨f', _, (f.emits_keyed w steady).cons emits, .quiet quiet muffled⟩

/-- Quiet outputs are muffled. -/
theorem Muffled.of_quiet {es : List (Bus × Option HeaderKey)} (quiet : ∀ e ∈ es, e.1.Quiet) :
    Muffled es := by
  have whole := Muffled.prepend quiet .nil
  rwa [List.append_nil] at whole

/-- Between packets nothing comes of quiet cycles. -/
theorem Ipv4Filter.Idle.mutes (idle : f.Idle) {is : List Bus} (quiet : ∀ i ∈ is, i.Quiet) :
    f.Mutes is := by
  obtain ⟨f', es, emits, -, silent, -⟩ := idle.rests quiet
  exact ⟨f', es, emits, .of_quiet silent⟩

/-- A shut filter is steady. -/
theorem Ipv4Filter.Shut.steady (shut : f.Shut) : f.Steady := by
  cases shut with
  | dropping dropping => exact dropping.steady
  | stalled _ _ steady => exact steady

/-- Nothing comes of a word while the filter is shut, and it stays shut up to the last word. -/
theorem Ipv4Filter.Shut.word (shut : f.Shut) (w : Bus) (eob : w.eob = false) :
    (f.step w).1.second.Quiet ∧ (w.eog = false → (f.step w).1.Shut) ∧
      (w.eog = true → (f.step w).1.Idle ∨ (f.step w).1.Shut) := by
  cases shut with
  | dropping dropping =>
    obtain ⟨quiet, stays, ends⟩ := dropping.word w eob
    exact ⟨quiet, fun eog => .dropping (stays eog), fun eog => .inl (ends eog)⟩
  | stalled state schedule steady =>
    -- The next role does not advance, so the third word is never taken.
    have closed : (f.step w).1.second.Quiet ∧ (f.step w).1.Shut := by
      refine ⟨?_, .stalled ?_ ?_ ⟨?_, ?_⟩⟩
      all_goals simp [Ipv4Filter.step, Ipv4Filter.second, Bus.Quiet, state, schedule, eob,
        Ipv4Roles.gate, ipv4Sched]
    exact ⟨closed.1, fun _ => closed.2, fun _ => .inr closed.2⟩

/-- Nothing comes of quiet cycles while the filter is shut. -/
theorem Ipv4Filter.Shut.mutes_quiet (shut : f.Shut) {is : List Bus} (quiet : ∀ i ∈ is, i.Quiet) :
    f.Mutes is := by
  obtain ⟨f', es, emits, -, silent, -⟩ := Stage.Emits.steadily (m := keyedStage)
    (I := Ipv4Filter.Shut) (P := Bus.Quiet) (Q := fun e => e.1.Quiet) (fun f q shut quiet => by
      obtain ⟨silent, stays, -⟩ := shut.word q quiet.2.2
      exact ⟨_, _, f.emits_keyed q fun _ => shut.steady, stays quiet.2.1, silent⟩) is shut quiet
  exact ⟨f', es, emits, .of_quiet silent⟩

/-- Nothing comes of a packet while the filter is shut. -/
theorem Ipv4Filter.Shut.mutes {is : List Bus} (ending : Ending is) :
    ∀ {f : Ipv4Filter}, f.Shut → f.Mutes is := by
  -- Induction on the cycles up to the last word.
  induction ending with
  | last w eog eob quiet =>
    intro f shut
    obtain ⟨silent, -, ends⟩ := shut.word w eob
    refine .cons (fun _ => shut.steady) silent ?_
    rcases ends eog with idle | shut'
    · exact idle.mutes quiet
    · exact shut'.mutes_quiet quiet
  | more w eog eob rest ih =>
    intro f shut
    obtain ⟨silent, stays, -⟩ := shut.word w eob
    exact .cons (fun _ => shut.steady) silent (ih (stays eog))

/-- A word that leaks through ends no frame. -/
theorem Ipv4Filter.Leaking.word (leaking : f.Leaking) (w : Bus) (eob : w.eob = false) :
    ((f.step w).1.second.eog = false ∧ (f.step w).1.second.eob = false) ∧
      (w.eog = false → (f.step w).1.Leaking) ∧ (w.eog = true → (f.step w).1.Idle) := by
  -- The next role is that of the payload, but it does not advance.
  obtain ⟨state, schedule, steady⟩ := leaking
  refine ⟨⟨?_, ?_⟩, fun eog => ⟨?_, ?_, ?_, ?_⟩, fun eog => ⟨?_, ?_, ?_⟩⟩
  all_goals simp [Ipv4Filter.step, Ipv4Filter.second, ipv4Sched, Ipv4Roles.gate, *]

/-- What leaks through ends no frame. -/
theorem Ipv4Filter.Leaking.leaks {is : List Bus} (ending : Ending is) :
    ∀ {f : Ipv4Filter}, f.Leaking →
      ∃ f' es, keyedStage.Emits f is f' es ∧ ∀ e ∈ es, e.1.eog = false ∧ e.1.eob = false := by
  -- Induction on the cycles up to the last word.
  induction ending with
  | @last w rs eog eob quiet =>
    intro f leaking
    obtain ⟨open_, -, ends⟩ := leaking.word w eob
    obtain ⟨f', es, emits, -, silent, -⟩ := (ends eog).rests quiet
    exact ⟨f', _, (f.emits_keyed w fun _ => leaking.steady).cons emits,
      List.forall_mem_cons.mpr ⟨open_, fun e member => (silent e member).2⟩⟩
  | more w eog eob rest ih =>
    intro f leaking
    obtain ⟨open_, stays, -⟩ := leaking.word w eob
    obtain ⟨f', es, emits, opens⟩ := ih (stays eog)
    exact ⟨f', _, (f.emits_keyed w fun _ => leaking.steady).cons emits,
      List.forall_mem_cons.mpr ⟨open_, opens⟩⟩

/-- A fragment field never reads as the port and as no offset. -/
theorem port_is_offset (x y : Byte) (port : (x.toNat <<< 8) ||| y.toNat = udpPort) :
    ((x.toNat &&& 0x1F) <<< 8) ||| y.toNat ≠ 0 := by
  -- The low byte of the port is not zero.
  intro zero
  have low : y.toNat = 0 := (Nat.or_eq_zero_iff.mp zero).2
  rw [low, Nat.or_zero, Nat.shiftLeft_eq, udpPort] at port
  omega

/-- The first half of a window over two words is the second half of the old one. -/
theorem window_four {old new : Vector Byte 8} (k : Nat) (half : k < 4) :
    (window 4 old new)[k] = old[4 + k] := by
  simp only [window, Vector.getElem_ofFn]
  show (old ++ new)[4 + k] = old[4 + k]
  exact Vector.getElem_append_left (by omega)

/-- A leaking filter that holds the first word shows its fragment field in place of the port. -/
theorem Ipv4Filter.Leaking.refuses (leaking : f.Leaking) (held : f.fb18 = a.data)
    (latched : f.fb5 = a.data) (valid : w.valid = true) (eob : w.eob = false) :
    Refused ((f.step w).1.keyed (f.step w).1.second) f.header.key := by
  -- The word that comes out joins the held first word and this one, so its port lanes hold the
  -- fragment field.
  obtain ⟨⟨open_, opens⟩, -, -⟩ := leaking.word w eob
  have key := leaking.steady.key w
  obtain ⟨state, schedule, steady⟩ := leaking
  have shows : (f.step w).1.second.valid = true := by
    simp [Ipv4Filter.step, Ipv4Filter.second, state, schedule, valid, Ipv4Roles.gate, ipv4Sched]
  refine ⟨by rw [Ipv4Filter.keyed, if_pos shows, key], shows, open_, opens, ?_⟩
  rintro ⟨port, offset⟩
  have joins : (f.step w).1.second.data = window 4 a.data w.data := by
    rw [← held]
    rfl
  simp only [destinationPort, Ipv4Filter.keyed, joins, window_four 2 (by omega : 2 < 4),
    window_four 3 (by omega : 3 < 4)] at port
  -- A packet for the port would have it as its offset, and an offset is refused.
  refine port_is_offset _ _ port ?_
  rw [← latched]
  exact offset

/-- The filter has taken the first word `a` of a packet. -/
structure Ipv4Filter.Begun (f : Ipv4Filter) (a : Bus) : Prop where
  state : f.fb0 = .waitForSecond
  roles : f.fb2 = ipv4First
  data : f.fb18 = a.data
  schedule : f.fb22 = ipv4Second

/-- A first word of version 4 without options begins a packet, any other one is dropped. -/
theorem Ipv4Filter.Idle.begins (idle : f.Idle) (valid : a.valid = true) (eog : a.eog = false)
    (eob : a.eob = false) :
    (f.step a).1.second.Quiet ∧ (a.data.get 0 = 0x45#8 → (f.step a).1.Begun a) ∧
      (a.data.get 0 ≠ 0x45#8 → (f.step a).1.Shut) := by
  -- The first state decides by the first byte.
  show (f.step a).1.second.Quiet ∧ (a.data[0] = 0x45#8 → (f.step a).1.Begun a) ∧
    (a.data[0] ≠ 0x45#8 → (f.step a).1.Shut)
  obtain ⟨state, steady⟩ := idle
  refine ⟨?_, fun version => ⟨?_, ?_, ?_, ?_⟩, fun other => .dropping ⟨?_, ?_, ⟨?_, ?_⟩⟩⟩
  all_goals simp [Ipv4Filter.step, Ipv4Filter.second, Bus.Quiet, Ipv4Roles.gate, ipv4Sched, *]

/-- A gap behind the second word uses up the role of the third one. -/
theorem Ipv4Filter.Begun.second_gap (begun : f.Begun a) (valid : b.valid = true)
    (eog : b.eog = false) (eob : b.eob = false) {q : Bus} (quiet : q.Quiet) :
    (f.step b).1.second.Quiet ∧ (f.step b).1.fb2.pd = false ∧
      ((f.step b).1.step q).1.second.Quiet ∧ ((f.step b).1.step q).1.Shut := by
  -- Behind the second word the schedule waits for the third one, whatever comes in the next cycle.
  obtain ⟨state, roles, data, schedule⟩ := begun
  have taken : (f.step b).1.fb0 = .waitForThird ∧ (f.step b).1.fb2 = ipv4Sched[1] ∧
      (f.step b).1.fb22 = ipv4Third ∧ (f.step b).1.second.Quiet := by
    refine ⟨?_, ?_, ?_, ?_⟩
    all_goals simp [Ipv4Filter.step, Ipv4Filter.second, Bus.Quiet, Ipv4Roles.gate, ipv4Sched,
      state, roles, schedule, valid, eog, eob]
  generalize (f.step b).1 = f₁ at taken
  obtain ⟨third, roles₁, schedule₁, silent⟩ := taken
  obtain ⟨still, eog', eob'⟩ := quiet
  refine ⟨silent, by rw [roles₁]; rfl, ?_, .stalled ?_ ?_ ⟨?_, ?_⟩⟩
  all_goals simp [Ipv4Filter.step, Ipv4Filter.second, Bus.Quiet, Ipv4Roles.gate, ipv4Sched, third,
    schedule₁, still, eog', eob']

/-- The state behind a single gap cycle after the first word. -/
structure Ipv4Filter.Paused (f : Ipv4Filter) (a : Bus) : Prop where
  state : f.fb0 = .waitForSecond
  steady : f.Steady
  data : f.fb18 = a.data
  latched : f.fb5 = a.data
  schedule : f.fb22 = ipv4Third

/-- A gap cycle behind the first word uses up the role of the second one. -/
theorem Ipv4Filter.Begun.pauses (begun : f.Begun a) :
    (f.step a.mute).1.second.Quiet ∧ (f.step a.mute).1.Paused a := by
  obtain ⟨state, roles, data, schedule⟩ := begun
  refine ⟨?_, ?_, ⟨?_, ?_⟩, ?_, ?_, ?_⟩
  all_goals simp [Ipv4Filter.step, Ipv4Filter.second, Bus.Quiet, Bus.mute, Bus.hold,
    Ipv4Roles.gate, ipv4Sched, state, roles, data, schedule]

/-- Behind a single gap cycle the second word takes the role of the third one. -/
theorem Ipv4Filter.Paused.shuts (paused : f.Paused a) (valid : b.valid = true)
    (eog : b.eog = false) (eob : b.eob = false) :
    (f.step b).1.second.Quiet ∧ (f.step b).1.Shut := by
  obtain ⟨state, steady, data, latched, schedule⟩ := paused
  refine ⟨?_, .stalled ?_ ?_ ⟨?_, ?_⟩⟩
  all_goals simp [Ipv4Filter.step, Ipv4Filter.second, Bus.Quiet, Ipv4Roles.gate, ipv4Sched, state,
    schedule, valid, eog, eob]

/-- A second gap cycle uses up the role of the third word as well. -/
theorem Ipv4Filter.Paused.leaks (paused : f.Paused a) :
    (f.step a.mute).1.second.Quiet ∧ (f.step a.mute).1.Leaking ∧
      (f.step a.mute).1.fb18 = a.data ∧ (f.step a.mute).1.fb5 = a.data := by
  obtain ⟨state, ⟨first, second⟩, data, latched, schedule⟩ := paused
  refine ⟨?_, ⟨?_, ?_, ⟨?_, ?_⟩⟩, rfl, ?_⟩
  all_goals simp [Ipv4Filter.step, Ipv4Filter.second, Bus.Quiet, Bus.mute, Bus.hold,
    Ipv4Roles.gate, ipv4Sched, state, schedule, first, latched]

/-- Nothing is passed on of what leaks through behind a gap. -/
theorem Ipv4Filter.Leaking.mutes (n : Nat) {is : List Bus} (valid : b.valid = true)
    (eog : b.eog = false) (eob : b.eob = false) (ending : Ending is) :
    ∀ {f : Ipv4Filter}, f.Leaking → f.fb18 = a.data → f.fb5 = a.data →
      f.Mutes (List.replicate n a.mute ++ b :: is) := by
  -- Induction on the gap; the first word behind it is refused.
  induction n with
  | zero =>
    intro f leaking held latched
    obtain ⟨-, stays, -⟩ := leaking.word b eob
    obtain ⟨f', es, emits, opens⟩ := Ipv4Filter.Leaking.leaks ending (stays eog)
    exact ⟨f', _, (f.emits_keyed b fun _ => leaking.steady).cons emits,
      .refused (leaking.refuses held latched valid eob) opens⟩
  | succ n ih =>
    intro f leaking held latched
    obtain ⟨⟨open_, opens⟩, stays, -⟩ := leaking.word a.mute rfl
    have calm : (f.step a.mute).1.second.Quiet := by
      refine ⟨?_, open_, opens⟩
      simp [Ipv4Filter.step, Ipv4Filter.second, Bus.mute, Bus.hold, Ipv4Roles.gate, leaking.state]
    have kept : (f.step a.mute).1.fb5 = a.data := by
      simp [Ipv4Filter.step, leaking.steady.1, latched]
    exact .cons (fun _ => leaking.steady) calm (ih (stays rfl) rfl kept)

/-- A packet whose header is no match, or has a gap in it, leaves nothing that is passed on. -/
theorem Ipv4Filter.Idle.stops (idle : f.Idle) {n m : Nat} (k : Nat) {ps : List (Bus × Nat)}
    {rs : List Bus} (valid : a.valid = true ∧ b.valid = true ∧ c.valid = true)
    (eog : a.eog = false ∧ b.eog = false ∧ c.eog = false)
    (eob : a.eob = false ∧ b.eob = false ∧ c.eob = false) (train : PacedTrain ps)
    (quiet : ∀ r ∈ rs, r.Quiet)
    (faulty : ¬ (a.data.get 0 = 0x45#8 ∧ n = 0 ∧ m = 0 ∧
      addressMatches ipAddr c.data (by decide) = true)) :
    f.Mutes (MarketData.paced Bus.mute ((a, n) :: (b, m) :: (c, k) :: ps) ++ rs) := by
  obtain ⟨valid₀, valid₁, valid₂⟩ := valid
  obtain ⟨eog₀, eog₁, eog₂⟩ := eog
  obtain ⟨eob₀, eob₁, eob₂⟩ := eob
  obtain ⟨silent, begins, shuts⟩ := idle.begins valid₀ eog₀ eob₀
  have third : Ending (MarketData.paced Bus.mute ((c, k) :: ps) ++ rs) :=
    (PacedTrain.more c k valid₂ eog₂ eob₂ train).ending quiet
  have second : Ending (MarketData.paced Bus.mute ((b, m) :: (c, k) :: ps) ++ rs) :=
    (PacedTrain.more b m valid₁ eog₁ eob₁ (.more c k valid₂ eog₂ eob₂ train)).ending quiet
  have later := third.gap m b
  rw [paced_cons, List.cons_append, List.append_assoc]
  refine .cons (fun _ => idle.steady) silent ?_
  by_cases version : a.data.get 0 = 0x45#8
  · have begun := begins version
    rw [paced_cons, List.cons_append, List.append_assoc] at second ⊢
    have first : (f.step a).1.fb2.pd = true → (f.step a).1.Steady := by
      rw [begun.roles]
      exact fun pd => nomatch pd
    rcases n with _ | _ | n
    · cases m with
      | zero =>
        -- The header is whole, so the address is another one.
        obtain ⟨-, ⟨pd, quiet₁⟩, quiet₂, opened⟩ := idle.opens ⟨valid₀, valid₁, valid₂⟩
          ⟨eog₀, eog₁, eog₂⟩ ⟨eob₀, eob₁, eob₂⟩ version
        have other : addressMatches ipAddr c.data (by decide) = false := by
          rw [← Bool.not_eq_true]
          exact fun like => faulty ⟨version, rfl, rfl, like⟩
        rw [paced_cons, List.cons_append, List.append_assoc]
        refine .cons first quiet₁ (.cons (by rw [pd]; exact fun pd => nomatch pd) quiet₂ ?_)
        exact Ipv4Filter.Shut.mutes ((train.ending quiet).gap k c)
          (.dropping ⟨opened.state, opened.decided.trans other, opened.steady⟩)
      | succ m =>
        obtain ⟨quiet₁, pd, quiet₂, shut⟩ := begun.second_gap valid₁ eog₁ eob₁ b.mute_silent.1
        refine .cons first quiet₁ (.cons (by rw [pd]; exact fun pd => nomatch pd) quiet₂ ?_)
        exact Ipv4Filter.Shut.mutes (third.gap m b) shut
    · obtain ⟨quiet₁, paused⟩ := begun.pauses
      obtain ⟨quiet₂, shut⟩ := paused.shuts valid₁ eog₁ eob₁
      exact .cons first quiet₁ (.cons (fun _ => paused.steady) quiet₂
        (Ipv4Filter.Shut.mutes later shut))
    · obtain ⟨quiet₁, paused⟩ := begun.pauses
      obtain ⟨quiet₂, leaking, held, latched⟩ := paused.leaks
      exact .cons first quiet₁ (.cons (fun _ => paused.steady) quiet₂
        (Ipv4Filter.Leaking.mutes n valid₁ eog₁ eob₁ later leaking held latched))
  · exact Ipv4Filter.Shut.mutes (second.gap n a) (shuts version)

end Ipv4

section Udp

variable {u : UdpRx}

/-- A cycle of a dropped datagram that ends no frame is dropped. -/
theorem UdpRx.Dropping.cycle (dropping : u.Dropping) {x : Bus × Ipv4Header}
    (open_ : x.1.eog = false ∧ x.1.eob = false) :
    (u.step x.1 x.2).1.Dropping ∧ (u.step x.1 x.2).2.Quiet := by
  obtain ⟨active, closed, whole⟩ := dropping
  simp [UdpRx.step, UdpRx.Dropping, Bus.Quiet, active, closed, whole, open_]

/-- A refused word starts a datagram that is dropped. -/
theorem UdpRx.Idle.refuses (idle : u.Idle) {x : Bus × Ipv4Header} {key : HeaderKey}
    (refused : Refused (keyedStage.view x) key) :
    (u.step x.1 x.2).1.Dropping ∧ (u.step x.1 x.2).2.Quiet := by
  -- Neither the port and the offset nor an expected fragment lets it in.
  obtain ⟨inactive, whole⟩ := idle
  obtain ⟨shown, valid, eog, eob, other⟩ := refused
  have valid : x.1.valid = true := valid
  have eog : x.1.eog = false := eog
  have eob : x.1.eob = false := eob
  have same : x.2.key = key := by simpa [keyedStage, valid] using shown
  subst same
  have refused : (decide ((x.1.data[2].toNat <<< 8) ||| x.1.data[3].toNat = udpPort) &&
      decide (x.2.frag = 0)) = false := by
    simpa [keyedStage, Ipv4Header.key] using other
  simp only [Bool.and_eq_false_iff] at refused
  rcases refused with refused | refused <;>
    simp [UdpRx.step, UdpRx.Dropping, Bus.Quiet, inactive, whole, valid, eog, eob, refused]

/-- A receiver between datagrams passes nothing of muffled outputs on. -/
theorem UdpRx.Idle.muffled (xs : List (Bus × Ipv4Header)) :
    ∀ {u : UdpRx}, u.Idle → Muffled (xs.map keyedStage.view) →
      ∃ u' os, udpStage.Emits u xs u' os ∧ ∀ o ∈ os, o.Quiet := by
  -- Cycle by cycle, up to the first word, which is refused.
  induction xs with
  | nil => exact fun {u} _ _ => ⟨u, [], .nil udpStage u, by simp⟩
  | cons x xs ih =>
    intro u idle muffled
    rw [List.map_cons] at muffled
    cases muffled with
    | quiet calm rest =>
      obtain ⟨idle', silent⟩ := idle.quiet (q := x) calm
      obtain ⟨u', os, emits, quiets⟩ := ih idle' rest
      exact ⟨u', _, (u.emits x).cons emits, List.forall_mem_cons.mpr ⟨silent, quiets⟩⟩
    | refused refused opens =>
      obtain ⟨dropping, silent⟩ := idle.refuses refused
      obtain ⟨u', os, emits, -, quiets, -⟩ := Stage.Emits.steadily (m := udpStage)
        (I := UdpRx.Dropping) (P := fun x => x.1.eog = false ∧ x.1.eob = false) (Q := Bus.Quiet)
        (fun u x dropping open_ => ⟨_, _, u.emits x, dropping.cycle open_⟩) xs dropping
        (fun x member => opens _ (List.mem_map_of_mem member))
      exact ⟨u', _, (u.emits x).cons emits, List.forall_mem_cons.mpr ⟨silent, quiets⟩⟩

end Udp

end MarketData
