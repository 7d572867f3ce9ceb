import MarketData.Netlist.BufferLaws
import MarketData.Netlist.Packets
import MarketData.Netlist.Parser

/-! Frames as AXI-stream beats: the generator, the pad beats of the reader, and their bytes. -/

namespace MarketData

/-- One beat: data, keep, last, frame number and valid. -/
structure Row where
  td : Word
  tk : BitVec 8
  tl : Bool
  fno : Nat
  tv : Bool
  deriving DecidableEq

/-- `int.from_bytes(chunk, "little")`: byte 0 in the bottom of the word. -/
def fromBytesLittle (data8 : Vector Byte 8) : Word :=
  fromBytesBig data8.reverse

/-- `td.to_bytes(8, "little")`. -/
def toBytesLittle (td : Word) : Vector Byte 8 :=
  Vector.ofFn fun i => td.extractLsb' (8 * i.val) 8

/-- The beats of one frame: eight bytes a beat, keep and last on the final one. -/
def frameRows (fno : Nat) (f : List Byte) : List Row :=
  let nbeats := (f.length + 7) / 8
  (List.range nbeats).map fun i =>
    let chunk := (f.drop (i * 8)).take 8
    { td := fromBytesLittle (ljust8 chunk), tk := (1#8 <<< chunk.length) - 1#8,
      tl := decide (i = nbeats - 1), fno := fno, tv := true }

/-- `gen_frames`: the beats of all frames, numbered from zero. -/
def genFrames (frames : List (List Byte)) : List Row :=
  frames.zipIdx.flatMap fun f => frameRows f.2 f.1

/-- `pad_beats`: a last beat of seven or eight bytes is completed, and a pad beat ends the frame. -/
def padBeats (rows : List Row) : List Row :=
  rows.flatMap fun r =>
    if r.tv && r.tl && (decide (r.tk = 0x7F#8) || decide (r.tk = 0xFF#8)) then
      [{ r with tk := 0xFF#8, tl := false },
        { td := 0#64, tk := 0x01#8, tl := true, fno := r.fno, tv := true }]
    else [r]

/-- The pad beats of consecutive rows are independent. -/
theorem padBeats_append (rows later : List Row) :
    padBeats (rows ++ later) = padBeats rows ++ padBeats later :=
  List.flatMap_append

/-- A beat as the MAC filter sees it; the reader never reports a bad end. -/
def Row.bus (r : Row) : Bus where
  data := toBytesLittle r.td
  valid := r.tv
  be := Vector.ofFn fun i => r.tk.getLsbD i.val
  eog := r.tl
  eob := false

/-- How many zero bytes the pad beats add to a frame of `n` bytes. -/
def padBytes (n : Nat) : Nat :=
  if n % 8 = 7 then 2 else if n % 8 = 0 then 1 else 0

/-- A frame with its pad bytes. -/
def padded (f : List Byte) : List Byte :=
  f ++ List.replicate (padBytes f.length) 0#8

/-- Writing a word in little-endian order and reading it back gives its bytes. -/
theorem toBytesLittle_fromBytesLittle (data8 : Vector Byte 8) :
    toBytesLittle (fromBytesLittle data8) = data8 := by
  -- Byte `i` of the word counted from below is byte `7 - i` of the reversed list.
  apply Vector.ext
  intro i small
  have read := byteBE_wordOfBytes (n := 8) (w := 64) rfl data8.reverse.toList (7 - i) (by omega)
  have place : 64 - 8 * (7 - i + 1) = 8 * i := by omega
  rw [byteBE, place] at read
  simp only [toBytesLittle, fromBytesLittle, fromBytesBig, Vector.getElem_ofFn, read]
  have inside : 7 - i < data8.reverse.toList.length := by simp; omega
  rw [List.getD_eq_getElem?_getD, List.getElem?_eq_getElem inside, Option.getD_some,
    Vector.getElem_toList, Vector.getElem_reverse]
  congr 1
  omega

/-- The keep of `n` bytes enables the first `n` lanes. -/
theorem lanes_lowKeep {n : Nat} (small : n ≤ 8) :
    (Vector.ofFn fun i : Fin 8 => ((1#8 <<< n) - 1#8).getLsbD i.val) = firstLanes n := by
  -- Nine keeps are possible, and each is evaluated.
  have all : ∀ m : Fin 9,
      (Vector.ofFn fun i : Fin 8 => ((1#8 <<< m.val) - 1#8).getLsbD i.val) = firstLanes m.val := by
    decide
  exact all ⟨n, by omega⟩

/-- Left-justifying fills with zeros. -/
theorem ljust8_toList {chunk : List Byte} (small : chunk.length ≤ 8) :
    (ljust8 chunk).toList = chunk ++ List.replicate (8 - chunk.length) 0#8 := by
  -- A position holds a byte of the chunk or a filled-in zero.
  apply List.ext_getElem
  · simp
    omega
  · intro k inWord _
    simp only [Vector.getElem_toList, ljust8, Vector.getElem_ofFn, List.getElem_append,
      List.getElem_replicate]
    split
    · rename_i inChunk
      rw [List.getD_eq_getElem?_getD, List.getElem?_eq_getElem inChunk, Option.getD_some]
    · rename_i past
      rw [getD_past (by omega)]

/-- A frame longer than a beat starts with a full beat that is not the last. -/
theorem frameRows_cons (fno : Nat) {f : List Byte} (long : 8 < f.length) :
    frameRows fno f =
      { td := fromBytesLittle (ljust8 (f.take 8)), tk := 0xFF#8, tl := false, fno := fno,
        tv := true } :: frameRows fno (f.drop 8) := by
  -- The chunks of a long frame begin with a full one, and the numbering of the others is shifted.
  have count : (f.length + 7) / 8 = ((f.drop 8).length + 7) / 8 + 1 := by
    rw [List.length_drop]
    omega
  have more : 0 < ((f.drop 8).length + 7) / 8 := by
    rw [List.length_drop]
    omega
  unfold frameRows
  simp only [count, List.range_succ_eq_map, List.map_cons, List.map_map]
  generalize ((f.drop 8).length + 7) / 8 = later at more
  congr 1
  · have full : (f.take 8).length = 8 := by simp; omega
    have notLast : ¬ 0 = later := by omega
    simp [full, notLast]
  · apply List.map_congr_left
    intro i _
    have place : (i + 1) * 8 = 8 + i * 8 := by omega
    have last : i + 1 = later ↔ i = later - 1 := by omega
    simp [place, last, List.drop_drop]

/-- A frame of at most one beat is that beat. -/
theorem frameRows_single (fno : Nat) {f : List Byte} (some : 0 < f.length) (short : f.length ≤ 8) :
    frameRows fno f =
      [{ td := fromBytesLittle (ljust8 f), tk := (1#8 <<< f.length) - 1#8, tl := true, fno := fno,
         tv := true }] := by
  have count : (f.length + 7) / 8 = 1 := by omega
  simp only [frameRows, count, List.range_one, List.map_cons, List.map_nil, Nat.zero_mul,
    List.drop_zero, List.take_of_length_le short, Nat.sub_self, decide_true]

/-- A beat of the generator reads back as its chunk and the lanes of its bytes. -/
theorem Row.bus_chunk (fno : Nat) (last : Bool) (chunk : List Byte) (tk : BitVec 8) {n : Nat}
    (small : n ≤ 8) (keep : tk = (1#8 <<< n) - 1#8) :
    let row : Row := { td := fromBytesLittle (ljust8 chunk), tk, tl := last, fno, tv := true }
    row.bus = { data := ljust8 chunk, valid := true, be := firstLanes n, eog := last,
                eob := false } := by
  simp only [Row.bus, toBytesLittle_fromBytesLittle, keep, lanes_lowKeep small]

/-- The pad beat is one enabled zero byte. -/
theorem Row.bus_pad (fno : Nat) :
    (Row.mk 0#64 0x01#8 true fno true).bus =
      { data := Vector.replicate 8 0#8, valid := true, be := firstLanes 1, eog := true,
        eob := false } := by
  have zero : toBytesLittle 0#64 = Vector.replicate 8 0#8 := by decide
  have lane : (Vector.ofFn fun i : Fin 8 => (0x01#8).getLsbD i.val) = firstLanes 1 := by decide
  simp only [Row.bus, zero, lane]

/-- The pad bytes of a frame are those of its last beat. -/
theorem padded_cons {f : List Byte} (long : 8 < f.length) :
    padded f = f.take 8 ++ padded (f.drop 8) := by
  -- A whole beat in front does not change the length modulo eight.
  have same : padBytes (f.drop 8).length = padBytes f.length := by
    have rest : (f.length - 8) % 8 = f.length % 8 := by omega
    rw [List.length_drop, padBytes, padBytes, rest]
  rw [padded, padded, same, ← List.append_assoc, List.take_append_drop]

/-- A frame of at most one beat is padded to a packet. -/
theorem padBeats_packet_single (fno : Nat) {f : List Byte} (some : 0 < f.length)
    (short : f.length ≤ 8) :
    Packet ((padBeats (frameRows fno f)).map Row.bus) (padded f) := by
  -- Only a last beat of seven or eight bytes gets a pad beat behind it.
  rw [frameRows_single fno some short]
  have bytes := ljust8_toList short
  rcases Nat.lt_or_ge f.length 7 with few | many
  · -- Up to six bytes keep their beat.
    have keeps : ∀ n : Fin 7, ¬ (1#8 <<< n.val) - 1#8 = 0x7F#8 ∧
        ¬ (1#8 <<< n.val) - 1#8 = 0xFF#8 := by decide
    obtain ⟨notSeven, notEight⟩ := keeps ⟨f.length, few⟩
    have pad : padBytes f.length = 0 := by
      rw [padBytes, if_neg (by omega), if_neg (by omega)]
    have word := Packet.last
      { data := ljust8 f, valid := true, be := firstLanes f.length, eog := true, eob := false }
      f.length some short rfl rfl rfl rfl
    rw [bytes, List.take_left] at word
    simpa [padBeats, notSeven, notEight, Row.bus_chunk fno true _ _ short rfl, padded, pad] using word
  · -- Seven or eight bytes become a full beat, and one zero byte follows in a beat of its own.
    have full : (1#8 <<< f.length) - 1#8 = 0x7F#8 ∨ (1#8 <<< f.length) - 1#8 = 0xFF#8 := by
      rcases (by omega : f.length = 7 ∨ f.length = 8) with seven | eight
      · exact Or.inl (by rw [seven]; rfl)
      · exact Or.inr (by rw [eight]; rfl)
    have pad : 8 - f.length + 1 = padBytes f.length := by
      unfold padBytes
      rcases (by omega : f.length = 7 ∨ f.length = 8) with seven | eight
      · rw [seven]; rfl
      · rw [eight]; rfl
    have last := Packet.last
      { data := Vector.replicate 8 0#8, valid := true, be := firstLanes 1, eog := true,
        eob := false } 1 (by omega) (by omega) rfl rfl rfl rfl
    have word := Packet.more
      { data := ljust8 f, valid := true, be := firstLanes 8, eog := false, eob := false }
      rfl rfl rfl rfl last
    have whole : (ljust8 f).toList ++ (Vector.replicate 8 0#8).toList.take 1 = padded f := by
      rw [bytes, padded, List.append_assoc, ← pad, List.replicate_succ']
      rfl
    rw [whole] at word
    have eight := Row.bus_chunk fno false f 0xFF#8 (Nat.le_refl 8) (by decide)
    simpa [padBeats, full, eight, Row.bus_pad] using word

/-- The padded beats of a frame are a packet that carries the padded frame. -/
theorem padBeats_packet (fno : Nat) (f : List Byte) (some : 0 < f.length) :
    Packet ((padBeats (frameRows fno f)).map Row.bus) (padded f) := by
  -- Induction on the length, one full beat at a time.
  rcases Nat.lt_or_ge 8 f.length with long | short
  · -- The first beat is full and not the last one, so no pad beat follows it.
    have later := padBeats_packet fno (f.drop 8) (by rw [List.length_drop]; omega)
    have count : (f.take 8).length = 8 := by simp; omega
    have bytes : (ljust8 (f.take 8)).toList = f.take 8 := by
      rw [ljust8_toList (by omega), count]
      simp
    have word := Packet.more
      { data := ljust8 (f.take 8), valid := true, be := firstLanes 8, eog := false, eob := false }
      rfl rfl rfl rfl later
    rw [bytes, ← padded_cons long] at word
    have full := Row.bus_chunk fno false (f.take 8) 0xFF#8 (Nat.le_refl 8) (by decide)
    rw [frameRows_cons fno long]
    simpa [padBeats, full] using word
  · exact padBeats_packet_single fno some short
termination_by f.length
decreasing_by
  rw [List.length_drop]
  omega

/-- The beats of a frame, without pad beats, are a packet that carries the frame. -/
theorem frameRows_packet (fno : Nat) (f : List Byte) (some : 0 < f.length) :
    Packet ((frameRows fno f).map Row.bus) f := by
  -- Induction on the length, one full beat at a time.
  rcases Nat.lt_or_ge 8 f.length with long | short
  · have later := frameRows_packet fno (f.drop 8) (by rw [List.length_drop]; omega)
    have count : (f.take 8).length = 8 := by simp; omega
    have bytes : (ljust8 (f.take 8)).toList = f.take 8 := by
      rw [ljust8_toList (by omega), count]
      simp
    have word := Packet.more
      { data := ljust8 (f.take 8), valid := true, be := firstLanes 8, eog := false, eob := false }
      rfl rfl rfl rfl later
    rw [bytes, List.take_append_drop] at word
    have full := Row.bus_chunk fno false (f.take 8) 0xFF#8 (Nat.le_refl 8) (by decide)
    rw [frameRows_cons fno long, List.map_cons, full]
    exact word
  · have word := Packet.last
      { data := ljust8 f, valid := true, be := firstLanes f.length, eog := true, eob := false }
      f.length some short rfl rfl rfl rfl
    rw [ljust8_toList short, List.take_left] at word
    have beat := Row.bus_chunk fno true f _ short rfl
    rw [frameRows_single fno some short, List.map_cons, beat]
    exact word
termination_by f.length
decreasing_by
  rw [List.length_drop]
  omega

/-- An unfragmented UDP datagram for this station: every header option the filters look at. -/
structure UdpFrame where
  /-- The Ethernet frame without its check sequence. -/
  bytes : List Byte
  /-- The IP total length is at least 46. -/
  long : 60 ≤ bytes.length
  /-- The destination is `MAC_ADDR`. -/
  mac : bytes.take 6 = macAddr.toList
  /-- IPv4 without options. -/
  version : bytes.getD 14 0#8 = 0x45#8
  /-- The IP total length counts everything after the Ethernet header. -/
  totalLength :
    256 * (bytes.getD 16 0#8).toNat + (bytes.getD 17 0#8).toNat = bytes.length - 14
  /-- More fragments is clear. -/
  unfragmented : (bytes.getD 20 0#8).getLsbD 5 = false
  /-- The fragment offset is zero. -/
  offset : bytes.getD 20 0#8 &&& 0x1F#8 = 0#8 ∧ bytes.getD 21 0#8 = 0#8
  /-- The protocol is UDP. -/
  protocol : bytes.getD 23 0#8 = 17#8
  /-- The destination is `IP_ADDR`. -/
  ip : (bytes.drop 30).take 4 = ipAddr.toList
  /-- The destination port is `UDP_PORT`. -/
  port : 256 * (bytes.getD 36 0#8).toNat + (bytes.getD 37 0#8).toNat = udpPort

/-- The UDP payload follows 14, 20 and 8 bytes of headers. -/
def UdpFrame.payload (f : UdpFrame) : List Byte :=
  f.bytes.drop 42

/-- What the pad beats leave of the frame from byte `n` on. -/
def UdpFrame.after (f : UdpFrame) (n : Nat) : List Byte :=
  (padded f.bytes).drop n

/-- A byte of the frame is read off any later part of it. -/
theorem UdpFrame.after_getD (f : UdpFrame) (n k : Nat) (inside : n + k < f.bytes.length) :
    (f.after n).getD k 0#8 = f.bytes.getD (n + k) 0#8 := by
  -- The pad bytes come behind the frame, so they are not reached.
  rw [UdpFrame.after, getD_drop, padded, getD_append, if_pos inside]

/-- The first bytes of a later part of the frame are bytes of the frame. -/
theorem UdpFrame.after_take (f : UdpFrame) (n k : Nat) (inside : n + k ≤ f.bytes.length) :
    (f.after n).take k = (f.bytes.drop n).take k := by
  -- The pad bytes come behind the frame, so they are not reached.
  rw [UdpFrame.after, padded, List.drop_append_of_le_length (by omega),
    List.take_append_of_le_length (by rw [List.length_drop]; omega)]

/-- The pad bytes come after the payload. -/
theorem UdpFrame.after_payload (f : UdpFrame) :
    f.after 42 = f.payload ++ List.replicate (padBytes f.bytes.length) 0#8 := by
  -- Everything in front of the payload is dropped from the frame itself.
  have long := f.long
  rw [UdpFrame.after, padded, List.drop_append_of_le_length (by omega), UdpFrame.payload]

/-- There are at most two pad bytes, so a padded frame never ends on a word of seven or eight. -/
theorem UdpFrame.after_length (f : UdpFrame) (n : Nat) :
    (f.after n).length = f.bytes.length + padBytes f.bytes.length - n ∧
      padBytes f.bytes.length ≤ 2 ∧
      (f.bytes.length + padBytes f.bytes.length) % 8 ≠ 0 ∧
      (f.bytes.length + padBytes f.bytes.length) % 8 ≠ 7 := by
  -- The pad bytes avoid the two lengths that would leave lanes over.
  refine ⟨by simp [UdpFrame.after, padded], ?_⟩
  unfold padBytes
  split
  · omega
  · split <;> omega

end MarketData
