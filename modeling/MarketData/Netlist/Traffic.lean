import MarketData.Netlist.Addressed
import MarketData.Netlist.EndToEnd

/-! Mixed traffic: the receive path delivers the payloads for the station and drops the rest. -/

namespace MarketData

/-- No word behind the Ethernet header starts like an IPv4 header without options. -/
def Foreign (bytes : List Byte) : Prop :=
  ∀ k, bytes.getD (14 + 8 * k) 0#8 ≠ 0x45#8

/-- Behind the Ethernet header stands an unfragmented IPv4 packet without options. -/
structure WholeIpv4 (bytes : List Byte) : Prop where
  version : bytes.getD 14 0#8 = 0x45#8
  /-- The total length is at least 46. -/
  normal : ¬ (bytes.getD 16 0#8 = 0#8 ∧ bytes.getD 17 0#8 < 46#8)
  /-- More fragments is clear. -/
  unfragmented : (bytes.getD 20 0#8).getLsbD 5 = false
  /-- The fragment offset is zero. -/
  offset : bytes.getD 20 0#8 &&& 0x1F#8 = 0#8 ∧ bytes.getD 21 0#8 = 0#8

/-- A frame on the network; what passes the MAC filter is no fragment and no small packet. -/
structure NetFrame where
  /-- The Ethernet frame without its check sequence. -/
  bytes : List Byte
  /-- Shorter frames are padded by their sender. -/
  long : 60 ≤ bytes.length
  kind : likeAddress macAddr bytes 0 → Foreign bytes ∨ WholeIpv4 bytes

instance {n : Nat} (addr : Vector Byte n) (bytes : List Byte) (k : Nat) :
    Decidable (likeAddress addr bytes k) :=
  inferInstanceAs (Decidable (∀ _ : Fin n, _ ∨ _))

namespace NetFrame

variable (f : NetFrame)

/-- The destination address of the Ethernet header passes the MAC filter. -/
def LikeMac : Prop :=
  likeAddress macAddr f.bytes 0

/-- The destination addresses of an IPv4 packet pass both filters. -/
def LikeStation : Prop :=
  f.LikeMac ∧ f.bytes.getD 14 0#8 = 0x45#8 ∧ likeAddress ipAddr f.bytes 30

/-- A UDP datagram for the port of the station. -/
def Wanted : Prop :=
  f.LikeStation ∧ f.bytes.getD 23 0#8 = 17#8 ∧
    256 * (f.bytes.getD 36 0#8).toNat + (f.bytes.getD 37 0#8).toNat = udpPort

instance : Decidable f.LikeMac :=
  inferInstanceAs (Decidable (likeAddress macAddr f.bytes 0))

instance : Decidable f.LikeStation :=
  inferInstanceAs (Decidable (_ ∧ _ ∧ _))

instance : Decidable f.Wanted :=
  inferInstanceAs (Decidable (_ ∧ _ ∧ _))

/-- What follows 14, 20 and 8 bytes of headers. -/
def payload : List Byte :=
  f.bytes.drop 42

/-- The words carry the frame from byte `n` on, and behind it as many bytes as the pad beats add. -/
def Carries (n : Nat) (f : NetFrame) (ws : List Bus) : Prop :=
  ∃ pad, pad.length = padBytes f.bytes.length ∧ Packet ws ((f.bytes ++ pad).drop n)

end NetFrame

/-- Pad bytes avoid the two lengths that would leave lanes over. -/
theorem padBytes_avoids (n : Nat) :
    padBytes n ≤ 2 ∧ (n + padBytes n) % 8 ≠ 0 ∧ (n + padBytes n) % 8 ≠ 7 := by
  unfold padBytes
  split
  · omega
  · split <;> omega

/-- The first word of what is left of a frame is full, if more than a word is left. -/
theorem Packet.advance {all : List Byte} {n : Nat} {ws : List Bus} (packet : Packet ws (all.drop n))
    (more : n + 8 < all.length) :
    ∃ w ws', ws = w :: ws' ∧ w.data.toList = (all.drop n).take 8 ∧ w.valid = true ∧
      w.eog = false ∧ w.eob = false ∧ w.be = firstLanes 8 ∧ Packet ws' (all.drop (n + 8)) := by
  -- A packet that is longer than a word has a full one in front.
  obtain ⟨w, ws', rest, rfl, split, valid, eog, eob, be, later⟩ :=
    packet.uncons (by rw [List.length_drop]; omega)
  refine ⟨w, ws', rfl, ?_, valid, eog, eob, be, ?_⟩
  · rw [split, List.take_left' (by simp)]
  · have after : (all.drop n).drop 8 = rest := by rw [split, List.drop_left' (by simp)]
    rw [List.drop_drop] at after
    rwa [after]

/-- What is left from within a word is the rest of the word and what is behind it. -/
theorem drop_within {all : List Byte} {n : Nat} {data : Vector Byte 8}
    (known : data.toList = (all.drop n).take 8) (s : Nat) (within : s ≤ 8) :
    all.drop (n + s) = data.toList.drop s ++ all.drop (n + 8) := by
  have whole : all.drop n = data.toList ++ all.drop (n + 8) := by
    rw [known, ← List.drop_drop, List.take_append_drop]
  have long : s ≤ data.toList.length := by rw [Vector.length_toList]; exact within
  rw [← List.drop_drop, whole, List.drop_append_of_le_length long]

/-- A word inside the frame is known, whatever the pad bytes are. -/
theorem take_inside {bytes pad : List Byte} {n : Nat} (inside : n + 8 ≤ bytes.length) :
    ((bytes ++ pad).drop n).take 8 = (bytes.drop n).take 8 := by
  rw [List.drop_append_of_le_length (by omega),
    List.take_append_of_le_length (by rw [List.length_drop]; omega)]

open NetFrame

/-- The MAC filter passes what follows the Ethernet header on, or drops the frame whole. -/
theorem mac_sorts :
    macStage.Passes MacFilter.Idle Bus.Quiet (Carries 0) 0 Bus.Silent
      (Selects LikeMac (Carries 14)) 1 0 where
  idle m q idle quiet := by
    obtain ⟨between, silent⟩ := idle.quiet quiet
    exact ⟨_, _, m.emits q, between, silent⟩
  packet m f ws ts idle carries _ none := by
    obtain ⟨pad, size, packet⟩ := carries
    have long := f.long
    obtain ⟨-, notEight, notSeven⟩ := padBytes_avoids f.bytes.length
    have total : (f.bytes ++ pad).length = f.bytes.length + padBytes f.bytes.length := by
      rw [List.length_append, size]
    -- Two words open the frame, and the first one has the address.
    obtain ⟨w₀, ws₁, rfl, data₀, valid₀, eog₀, eob₀, -, packet₁⟩ := packet.advance (by omega)
    obtain ⟨w₁, ws₂, rfl, data₁, valid₁, eog₁, eob₁, be₁, packet₂⟩ := packet₁.advance (by omega)
    rw [take_inside (by omega)] at data₀
    have decided : _ ↔ f.LikeMac := addressMatches_iff macAddr (by decide) data₀
    have nothing : ts = [] := List.eq_nil_of_length_eq_zero none
    subst nothing
    cases matched : addressMatches macAddr w₀.data (by decide) with
    | true =>
      -- The frame is for this station; its rest is joined to the second word.
      obtain ⟨state, accepted, schedule, silent₀⟩ := idle.first valid₀ eog₀ eob₀ matched
      obtain ⟨streaming, silent₁⟩ :=
        MacFilter.second_word state accepted schedule valid₁ eog₁ eob₁
      let q : Bus := ⟨w₁.data, false, firstLanes 0, false, false⟩
      obtain ⟨m', emits, between⟩ :=
        streaming.run packet₂ (by rw [List.length_drop, total]; omega) q
      have payload := packet₂.realign 6 (by decide) be₁ (rfl : q.be = firstLanes 0)
      have whole := (m.emits w₀).cons (((m.step w₀).1.emits w₁).cons emits)
      refine ⟨m', [(m.step w₀).1.second, ((m.step w₀).1.step w₁).1.second],
        realigned 6 q w₁ ws₂, [], by simpa using whole, between, by simp [silent₀, silent₁],
        by simp, .inl ⟨decided.mp matched, pad, size, ?_⟩, by simp, by simp⟩
      rwa [show 14 = 0 + 8 + 6 from rfl, drop_within data₁ 6 (by decide)]
    | false =>
      -- The frame is for another station, and nothing comes out.
      obtain ⟨dropping, quiet₀⟩ := idle.drops valid₀ matched
      obtain ⟨m', es, emits, between, quiets⟩ := dropping.run packet₁.train
      have whole := (m.emits w₀).cons emits
      have silents := MacFilter.emits_silent whole
      refine ⟨m', (m.step w₀).1.second :: es, [], [], by simpa using whole, between, ?_, by simp,
        .inr ⟨?_, rfl⟩, by simp, by simp⟩
      · intro e member
        exact silents e member (List.forall_mem_cons.mpr ⟨quiet₀, quiets⟩ e member)
      · rw [← decided, matched]
        exact Bool.false_ne_true

/-- A word that starts nothing leaves the finder between packets. -/
theorem FindSubframe.Idle.word {f : FindSubframe} (idle : f.Idle) {w : Bus}
    (other : w.data.get 0 ≠ 0x45#8) : ∃ f', subStage.Emits f [w] f' [w] ∧ f'.Idle := by
  have other : w.data[0] ≠ 0x45#8 := other
  unfold FindSubframe.Idle at *
  refine ⟨_, .single (by simp only [subStage, FindSubframe.step, idle]; rfl) rfl, ?_⟩
  simp [other]

/-- A packet without any start of an IPv4 packet is passed on between packets. -/
theorem FindSubframe.Idle.run {ws : List Bus} {bs : List Byte} (packet : Packet ws bs)
    (foreign : ∀ k, 8 * k < bs.length → bs.getD (8 * k) 0#8 ≠ 0x45#8) :
    ∀ {f : FindSubframe}, f.Idle → ∃ f', subStage.Emits f ws f' ws ∧ f'.Idle := by
  -- Induction on the packet; every word starts at a multiple of eight.
  have first : ∀ (w : Bus) (n : Nat) (rest : List Byte), 0 < n →
      (w.data.toList.take n ++ rest).getD 0 0#8 = w.data.get 0 := by
    intro w n rest some
    change _ = w.data[0]
    rw [getD_append, if_pos (by rw [List.length_take, Vector.length_toList]; omega), getD_take,
      if_pos some, List.getD_eq_getElem?_getD, List.getElem?_eq_getElem (by simp)]
    simp
  induction packet with
  | last w n some small valid eog eob be =>
    intro f idle
    have start := first w n [] some
    rw [List.append_nil] at start
    refine idle.word ?_
    rw [← start]
    refine foreign 0 ?_
    rw [List.length_take, Vector.length_toList]
    omega
  | @more w ws bs valid eog eob be rest ih =>
    intro f idle
    have start := first w 8 bs (by decide)
    rw [List.take_of_length_le (by simp)] at start
    obtain ⟨f₁, emits₁, idle₁⟩ := idle.word (by
      rw [← start]
      refine foreign 0 ?_
      rw [List.length_append, Vector.length_toList]
      omega)
    obtain ⟨f₂, emits₂, idle₂⟩ := ih (by
      intro k inside
      have next := foreign (k + 1) (by
        rw [List.length_append, Vector.length_toList]
        omega)
      have size : ¬ 8 * (k + 1) < w.data.toList.length := by rw [Vector.length_toList]; omega
      rw [getD_append, if_neg size, Vector.length_toList] at next
      rwa [show 8 * (k + 1) - 8 = 8 * k by omega] at next) idle₁
    exact ⟨f₂, emits₁.cons emits₂, idle₂⟩

/-- Also with pad bytes behind it a foreign frame starts no IPv4 packet. -/
theorem Foreign.padded {bytes pad : List Byte} (foreign : Foreign bytes)
    (size : pad.length = padBytes bytes.length) (k : Nat) :
    ((bytes ++ pad).drop 14).getD (8 * k) 0#8 ≠ 0x45#8 := by
  -- In front of the end it is as without them.
  rw [getD_drop, getD_append]
  split
  · exact foreign k
  · -- The pad bytes stand in other lanes, so nothing is there.
    rename_i behind
    have past : pad.length ≤ 14 + 8 * k - bytes.length := by
      unfold padBytes at size
      split at size
      · omega
      · split at size <;> omega
    rw [getD_past past]
    decide

/-- The subframe finder passes on what the MAC filter lets through. -/
theorem sub_sorts :
    subStage.Passes FindSubframe.Idle Bus.Silent (Selects LikeMac (Carries 14)) 1 Bus.Silent
      (Selects LikeMac (Carries 14)) 0 1 where
  -- A frame that is let through is passed on whole, of another one there is nothing.
  idle f q idle silent := by
    obtain ⟨f', emits, between⟩ := idle.quiet silent.1
    exact ⟨f', q, emits, between, silent⟩
  packet s f ws ts idle selects silent one := by
    obtain ⟨q, rfl⟩ := List.length_eq_one_iff.mp one
    have quiet : q.Quiet := (silent q (List.mem_singleton_self q)).1
    rcases selects with ⟨selected, carries⟩ | ⟨other, rfl⟩
    · have passed : ∃ s', subStage.Emits s ws s' ws ∧ s'.Idle := by
        obtain ⟨pad, size, packet⟩ := carries
        have long := f.long
        rcases f.kind selected with foreign | ipv4
        · exact FindSubframe.Idle.run packet (fun k _ => foreign.padded size k) idle
        · -- The packet is not a small one, so it is passed on to its last word.
          obtain ⟨w, ws', rfl, data, valid, eog, eob, -, rest⟩ :=
            packet.advance (by rw [List.length_append]; omega)
          rw [take_inside (by omega)] at data
          have version : w.data.get 0 = 0x45#8 :=
            (known_getElem data 0 (by decide)).trans ipv4.version
          have high : w.data.get 2 = f.bytes.getD 16 0#8 := known_getElem data 2 (by decide)
          have low : w.data.get 3 = f.bytes.getD 17 0#8 := known_getElem data 3 (by decide)
          obtain ⟨s₁, emits₁, active⟩ := idle.first valid eog eob version (by
            rw [high, low]
            exact ipv4.normal)
          obtain ⟨s₂, emits₂, idle₂⟩ := active.run rest.train
          exact ⟨s₂, emits₁.cons emits₂, idle₂⟩
      obtain ⟨s₁, emits₁, idle₁⟩ := passed
      obtain ⟨s₂, emits₂, idle₂⟩ := idle₁.quiet quiet
      exact ⟨s₂, [], ws, [q], emits₁.append emits₂, idle₂, by simp, by simp,
        .inl ⟨selected, carries⟩, silent, by simp⟩
    · obtain ⟨s', emits, idle'⟩ := idle.quiet quiet
      exact ⟨s', [], [], [q], emits, idle', by simp, by simp, .inr ⟨other, rfl⟩, silent, by simp⟩

/-- The header fields beside the words of an unfragmented packet. -/
structure KeyedBy (bytes : List Byte) (key : HeaderKey) : Prop where
  proto : key.proto = bytes.getD 23 0#8
  frag : key.frag = 0
  flags : (key.flags >>> 0) &&& 1 = 0

/-- The words of a datagram, each with the header fields. -/
def CarriesKeyed (f : NetFrame) (ws : List (Bus × Option HeaderKey)) : Prop :=
  Carries 34 f (ws.map Prod.fst) ∧ ∀ w ∈ ws, ∃ key ∈ w.2, KeyedBy f.bytes key

/-- The latched header words of a packet hold its header fields. -/
theorem WholeIpv4.keyed {bytes : List Byte} (ipv4 : WholeIpv4 bytes) {g : Ipv4Filter}
    {w₀ w₁ : Vector Byte 8} (first : g.fb5 = w₀) (second : g.fb4 = w₁)
    (known₀ : w₀.toList = (bytes.drop 14).take 8) (known₁ : w₁.toList = (bytes.drop 22).take 8) :
    KeyedBy bytes g.header.key := by
  -- The fragment field is in the first word, the protocol in the second one.
  subst first second
  have high : g.fb5.get 6 = bytes.getD 20 0#8 := known_getElem known₀ 6 (by decide)
  have low : g.fb5.get 7 = bytes.getD 21 0#8 := known_getElem known₀ 7 (by decide)
  obtain ⟨frag, flags⟩ := Ipv4Filter.unfragmented (g := g) (by rw [high]; exact ipv4.unfragmented)
    (by rw [high, low]; exact ipv4.offset)
  exact ⟨known_getElem known₁ 1 (by decide), frag, flags⟩

/-- The first word of anything else is dropped. -/
theorem Ipv4Filter.Idle.refuses {g : Ipv4Filter} (idle : g.Idle) {w : Bus} (valid : w.valid = true)
    (eog : w.eog = false) (eob : w.eob = false) (other : w.data.get 0 ≠ 0x45#8) :
    (g.step w).1.Dropping ∧ (g.step w).1.second.Quiet := by
  have other : w.data[0] ≠ 0x45#8 := other
  obtain ⟨state, -⟩ := idle
  refine ⟨⟨?_, ?_, ?_, ?_⟩, ?_⟩
  all_goals simp [Ipv4Filter.step, Ipv4Filter.second, Bus.Quiet, state, valid, eog, eob, other,
    Ipv4Roles.gate]

/-- What the IPv4 filter drops, and the quiet cycle behind it, leave nothing but quiet outputs. -/
theorem Ipv4Filter.Dropping.drops {g : Ipv4Filter} (dropping : g.Dropping) {ws : List Bus}
    (train : Train ws) {q : Bus} (quiet : q.Quiet) :
    ∃ g' es, keyedStage.Emits g (ws ++ [q]) g' es ∧ g'.Idle ∧ ∀ e ∈ es, e.1.Quiet := by
  obtain ⟨g₁, es, emits, idle₁, silents⟩ := Ipv4Filter.Dropping.run train dropping
  obtain ⟨idle₂, last⟩ := idle₁.quiet quiet
  exact ⟨_, _, emits.append (g₁.emits_keyed q fun _ => idle₁.steady), idle₂,
    List.forall_mem_append.mpr ⟨silents, List.forall_mem_singleton.mpr last⟩⟩

/-- The IPv4 filter passes the datagrams for the station on, or drops what it is given whole. -/
theorem ipv4_sorts :
    keyedStage.Passes Ipv4Filter.Idle Bus.Silent (Selects LikeMac (Carries 14)) 1
      (fun e => e.1.Quiet) (Selects LikeStation CarriesKeyed) 0 0 where
  idle f q idle silent := by
    obtain ⟨between, quiet⟩ := idle.quiet silent.1
    exact ⟨_, _, f.emits_keyed q fun _ => idle.steady, between, quiet⟩
  packet g f ws ts idle selects silent one := by
    obtain ⟨q, rfl⟩ := List.length_eq_one_iff.mp one
    obtain ⟨quiet, lanes⟩ := silent q (List.mem_singleton_self q)
    rcases selects with ⟨selected, pad, size, packet⟩ | ⟨other, rfl⟩
    · have long := f.long
      have total : f.bytes.length ≤ (f.bytes ++ pad).length := by
        rw [List.length_append]
        omega
      obtain ⟨w₀, ws₁, rfl, data₀, valid₀, eog₀, eob₀, -, packet₁⟩ := packet.advance (by omega)
      rw [take_inside (by omega)] at data₀
      have version : w₀.data.get 0 = f.bytes.getD 14 0#8 := known_getElem data₀ 0 (by decide)
      by_cases ipv4 : f.bytes.getD 14 0#8 = 0x45#8
      · have whole : WholeIpv4 f.bytes := (f.kind selected).resolve_left fun foreign => foreign 0 ipv4
        -- Three words hold the header and the start of the datagram.
        obtain ⟨w₁, ws₂, rfl, data₁, valid₁, eog₁, eob₁, -, packet₂⟩ := packet₁.advance (by omega)
        obtain ⟨w₂, ws₃, rfl, data₂, valid₂, eog₂, eob₂, be₂, packet₃⟩ := packet₂.advance (by omega)
        have known₂ := data₂
        rw [take_inside (by omega)] at data₁ known₂
        obtain ⟨⟨pd₁, quiet₁⟩, ⟨pd₂, quiet₂⟩, quiet₃, opened⟩ := idle.opens ⟨valid₀, valid₁, valid₂⟩
          ⟨eog₀, eog₁, eog₂⟩ ⟨eob₀, eob₁, eob₂⟩ (version.trans ipv4)
        have opening := (g.emits_keyed w₀ fun _ => idle.steady).cons
          (((g.step w₀).1.emits_keyed w₁ (by simp [pd₁])).cons
            (((g.step w₀).1.step w₁).1.emits_keyed w₂ (by simp [pd₂])))
        generalize (((g.step w₀).1.step w₁).1.step w₂).1 = g₃ at opening quiet₃ opened
        have decided : _ ↔ likeAddress ipAddr f.bytes 30 := addressMatches_iff ipAddr (by decide) known₂
        have calm : ∀ e ∈ [(g.step w₀).1.keyed (g.step w₀).1.second,
            ((g.step w₀).1.step w₁).1.keyed ((g.step w₀).1.step w₁).1.second,
            g₃.keyed g₃.second], e.1.Quiet := by
          simp [Ipv4Filter.keyed, quiet₁, quiet₂, quiet₃]
        have keyed := whole.keyed opened.first opened.second data₀ data₁
        obtain ⟨state, closed, schedule, _, _, data, be, steady⟩ := opened
        cases matched : addressMatches ipAddr w₂.data (by decide) with
        | true =>
          -- The packet is for this station; its datagram starts in the third word.
          have passing : g₃.Passing w₂ := ⟨state, closed.trans matched, schedule, data, be, steady⟩
          obtain ⟨g₄, tail, emits, idle₄, after⟩ :=
            Ipv4Filter.Passing.run packet₃.train quiet passing rfl
          have datagram := packet₃.realign 4 (by decide) be₂ lanes
          refine ⟨g₄, _, (realigned 4 q w₂ ws₃).map fun w => (w, some g₃.header.key), tail,
            by simpa using opening.append emits, idle₄, calm, Nat.zero_le _,
            .inl ⟨⟨selected, ipv4, decided.mp matched⟩, ⟨pad, size, ?_⟩, ?_⟩, after, Nat.zero_le _⟩
          · rw [List.map_map, show 34 = 14 + 8 + 8 + 4 from rfl, drop_within data₂ 4 (by decide)]
            exact (List.map_id _).symm ▸ datagram
          · intro e member
            obtain ⟨w, _, rfl⟩ := List.mem_map.mp member
            exact ⟨_, rfl, keyed⟩
        | false =>
          -- The packet is for another station, and nothing comes out.
          have dropping : g₃.Dropping := ⟨state, closed.trans matched, steady⟩
          obtain ⟨g₄, es, emits, idle₄, quiets⟩ := dropping.drops packet₃.train quiet
          refine ⟨g₄, _, [], [], by simpa using opening.append emits, idle₄,
            List.forall_mem_append.mpr ⟨calm, quiets⟩, Nat.zero_le _, .inr ⟨?_, rfl⟩, by simp,
            Nat.zero_le _⟩
          rintro ⟨_, _, like⟩
          exact Bool.false_ne_true (matched.symm.trans (decided.mpr like))
      · -- The frame holds no IPv4 packet, and nothing comes out.
        obtain ⟨dropping, quiet₀⟩ := idle.refuses valid₀ eog₀ eob₀ (by rwa [version])
        obtain ⟨g₁, es, emits, idle₁, quiets⟩ := dropping.drops packet₁.train quiet
        have first := g.emits_keyed w₀ fun _ => idle.steady
        refine ⟨g₁, _, [], [], by simpa using first.append emits, idle₁,
          List.forall_mem_append.mpr ⟨List.forall_mem_singleton.mpr quiet₀, quiets⟩, Nat.zero_le _,
          .inr ⟨fun like => ipv4 like.2.1, rfl⟩, by simp, Nat.zero_le _⟩
    · obtain ⟨idle', silent'⟩ := idle.quiet quiet
      exact ⟨_, [], [], _, g.emits_keyed q fun _ => idle.steady, idle', by simp, Nat.zero_le _,
        .inr ⟨fun like => other like.1, rfl⟩, List.forall_mem_singleton.mpr silent', Nat.zero_le _⟩

/-- The UDP receiver passes the payloads for the port on, or drops what it is given whole. -/
theorem udp_sorts :
    udpStage.Passes UdpRx.Idle (fun x => (keyedStage.view x).1.Quiet)
      (fun f xs => Selects LikeStation CarriesKeyed f (xs.map keyedStage.view)) 0 Bus.Quiet
      (Selects Wanted (Carries 42)) 0 0 where
  idle u q idle quiet := by
    obtain ⟨between, silent⟩ := idle.quiet quiet
    exact ⟨_, _, u.emits q, between, silent⟩
  packet u f xs ts idle selects _ none := by
    have nothing : ts = [] := List.eq_nil_of_length_eq_zero none
    subst nothing
    rcases selects with ⟨selected, ⟨pad, size, packet⟩, keys⟩ | ⟨other, empty⟩
    · have long := f.long
      have plain : (xs.map keyedStage.view).map Prod.fst = xs.map Prod.fst := by
        rw [List.map_map]
        rfl
      rw [plain] at packet
      obtain ⟨w, ws, words, data, valid, eog, eob, -, rest⟩ :=
        packet.advance (by rw [List.length_append]; omega)
      rw [take_inside (by omega)] at data
      obtain ⟨x, xs, rfl, rfl, rfl⟩ := List.map_eq_cons_iff.mp words
      obtain ⟨key, shown, proto, frag, flags⟩ := keys (keyedStage.view x) (by simp)
      have same : x.2.key = key := by simpa [keyedStage, valid] using shown
      subst same
      -- The first word holds the ports.
      have port : (x.1.data[2].toNat <<< 8) ||| x.1.data[3].toNat =
          256 * (f.bytes.getD 36 0#8).toNat + (f.bytes.getD 37 0#8).toNat := by
        have value := u16LE_eq x.1.data[3] x.1.data[2]
        rw [u16LE, Nat.or_comm] at value
        rw [value, known_getElem data 2 (by decide), known_getElem data 3 (by decide), Nat.add_comm]
      by_cases wanted : f.bytes.getD 23 0#8 = 17#8 ∧
          256 * (f.bytes.getD 36 0#8).toNat + (f.bytes.getD 37 0#8).toNat = udpPort
      · have accepted : x.2.accepted = true := by
          have udp : x.2.proto = 17#8 := proto.trans wanted.1
          have whole : x.2.frag = 0 := frag
          have last : (x.2.flags >>> 0) &&& 1 = 0 := flags
          simp only [Ipv4Header.accepted, udp, whole, last, decide_true, Bool.and_true]
        obtain ⟨active, silent⟩ := idle.header valid eog eob (port.trans wanted.2) accepted
        obtain ⟨u', emits, closed⟩ := active.run xs rest.train
        exact ⟨u', [(u.step x.1 x.2).2], xs.map Prod.fst, [], by simpa using (u.emits x).cons emits,
          closed, List.forall_mem_singleton.mpr silent, Nat.zero_le _,
          .inl ⟨⟨selected, wanted⟩, pad, size, rest⟩, by simp, Nat.zero_le _⟩
      · obtain ⟨dropping, silent⟩ := idle.drops x valid eog eob (by
          rintro ⟨number, udp⟩
          exact wanted ⟨proto.symm.trans udp, port.symm.trans number⟩)
        obtain ⟨u', es, emits, closed, silents⟩ := UdpRx.Dropping.run xs dropping rest.train
        exact ⟨u', (u.step x.1 x.2).2 :: es, [], [], by simpa using (u.emits x).cons emits, closed,
          List.forall_mem_cons.mpr ⟨silent, silents⟩, Nat.zero_le _,
          .inr ⟨fun like => wanted like.2, rfl⟩, by simp, Nat.zero_le _⟩
    · have empty : xs = [] := by simpa using empty
      subst empty
      exact ⟨u, [], [], [], .nil _ u, idle, by simp, Nat.zero_le _,
        .inr ⟨fun like => other like.1, rfl⟩, by simp, Nat.zero_le _⟩

/-- A settled path passes the payloads for the station on, drops the other frames, and settles. -/
theorem RxPath.Settled.sorts {c : RxPath} (settled : c.Settled) {frames : List NetFrame}
    {is : List Bus} (sent : Framed Bus.Quiet (Carries 0) 0 0 6 frames is) :
    ∃ c' outs, runOn RxPath.step c is = some (c', outs) ∧ c'.Settled ∧
      Framed Bus.Quiet (Selects Wanted (Carries 42)) 0 0 0 frames outs := by
  -- Each stage turns a framed stream into a framed stream, its latency taken from the end.
  have input : Framed Bus.Quiet (Carries 0) 0 0 (4 + 2) frames is := sent
  obtain ⟨m, o₁, run₁, framed₁, idle₁, calm₁⟩ := mac_sorts.settles (fun _ => rfl) settled.mac
    settled.macAhead input
  rw [show macStage.view = id from rfl, List.map_id] at framed₁
  -- The silent cycles in front of each packet serve as those after the packet before it.
  obtain ⟨q, rest, rfl, calm, follow⟩ := framed₁.follow
  have input₂ : Framed Bus.Silent (Selects LikeMac (Carries 14)) 0 1 (2 + 1) frames ([q] ++ rest) :=
    follow.prepend (List.forall_mem_singleton.mpr calm)
  obtain ⟨s, o₂, run₂, framed₂, idle₂, calm₂⟩ := sub_sorts.settles (fun _ => rfl) settled.sub
    settled.subAhead input₂
  rw [show subStage.view = id from rfl, List.map_id] at framed₂
  have input₃ : Framed Bus.Silent (Selects LikeMac (Carries 14)) 0 1 (0 + 2) frames o₂ := framed₂
  obtain ⟨g, o₃, run₃, framed₃, idle₃, calm₃⟩ := ipv4_sorts.settles (fun _ => rfl) settled.ip4
    settled.ip4Ahead input₃
  have input₄ : Framed (fun x => (keyedStage.view x).1.Quiet)
      (fun f xs => Selects LikeStation CarriesKeyed f (xs.map keyedStage.view)) 0 0 (0 + 0)
      frames o₃ := framed₃.of_map rfl
  obtain ⟨u, o₄, run₄, framed₄, idle₄, _⟩ := udp_sorts.settles (fun _ => rfl) settled.udp
    (by simp [udpStage]) input₄
  rw [show udpStage.view = id from rfl, List.map_id] at framed₄
  exact ⟨⟨m, s, g, u⟩, o₄, RxPath.runOn_stages _ run₁ run₂ run₃ run₄,
    ⟨idle₁, calm₁, idle₂, calm₂, idle₃, calm₃, idle₄⟩, framed₄⟩

/-- The selected ones of a list are carried by all that there is. -/
theorem Selects.kept {α γ : Type} {selected : γ → Prop} [DecidablePred selected]
    {carries : γ → List α → Prop} {ps : List γ} {packets : List (List α)}
    (sorted : List.Forall₂ (Selects selected carries) ps packets) :
    ∃ kept, List.Forall₂ carries (ps.filter selected) kept ∧ kept.flatten = packets.flatten := by
  -- One by one; what is not selected adds nothing.
  induction sorted with
  | nil => exact ⟨[], .nil, rfl⟩
  | @cons p ws ps packets first _ ih =>
    obtain ⟨kept, carried, same⟩ := ih
    rcases first with ⟨chosen, here⟩ | ⟨other, rfl⟩
    · refine ⟨ws :: kept, ?_, ?_⟩
      · rw [List.filter_cons, if_pos (decide_eq_true chosen)]
        exact .cons here carried
      · rw [List.flatten_cons, List.flatten_cons, same]
    · refine ⟨kept, ?_, same⟩
      rw [List.filter_cons, if_neg (by rw [decide_eq_true_eq]; exact other)]
      exact carried

/-- A settled path hands over the packets of the wanted frames, in order, and nothing else. -/
theorem RxPath.Settled.hands_wanted {c : RxPath} (settled : c.Settled) {frames : List NetFrame}
    {is : List Bus} (sent : Framed Bus.Quiet (Carries 0) 0 0 6 frames is) :
    ∃ c' outs packets, runOn RxPath.step c is = some (c', outs) ∧ c'.Settled ∧
      outs.filter Bus.isElement = packets.flatten ∧
      List.Forall₂ (Carries 42) (frames.filter Wanted) packets := by
  obtain ⟨c', outs, runs, settled', framed⟩ := settled.sorts sent
  -- Every word of a packet is valid, and of an unwanted frame there is none.
  have heard : ∀ f ws, Selects Wanted (Carries 42) f ws → ∀ w ∈ ws, w.isElement = true := by
    rintro f ws (⟨-, pad, -, packet⟩ | ⟨-, rfl⟩) w member
    · simp [Bus.isElement, (packet.elements.1 w member).1]
    · cases member
  obtain ⟨packets, sorted, same⟩ := framed.filter Bus.Quiet.not_element heard
  obtain ⟨kept, carried, joined⟩ := Selects.kept sorted
  exact ⟨c', outs, kept, runs, settled', same.trans joined.symm, carried⟩

/-- Behind 42 bytes of headers the payload is carried, and at most two more bytes. -/
theorem NetFrame.Carries.payload {f : NetFrame} {ws : List Bus} (carries : Carries 42 f ws) :
    ∃ pad, pad.length ≤ 2 ∧ Packet ws (f.payload ++ pad) := by
  obtain ⟨pad, size, packet⟩ := carries
  have long := f.long
  rw [List.drop_append_of_le_length (by omega)] at packet
  exact ⟨pad, size ▸ (padBytes_avoids f.bytes.length).1, packet⟩

end MarketData
