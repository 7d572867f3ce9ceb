import MarketData.Lib.Within
import MarketData.Lib.WordBytes

/-! Sequenced unit datagrams: an eight-byte header and messages led by their own length. -/

namespace MarketData

/-- A PITCH message of `lo` to `hi` bytes whose first byte is its own length. -/
structure Message (lo hi : Nat) where
  /-- The message as it stands in the payload. -/
  bytes : List Byte
  /-- The first byte states the length. -/
  lengthByte : bytes.head? = some (BitVec.ofNat 8 bytes.length)
  /-- The shortest length admitted. -/
  lo_le : lo ≤ bytes.length
  /-- The longest length admitted. -/
  le_hi : bytes.length ≤ hi

/-- The message type, which follows the length byte. -/
def Message.type {lo hi : Nat} (m : Message lo hi) : Byte :=
  m.bytes.getD 1 0#8

/-- `byte_at(buf, 0) | (byte_at(buf, 1) << 8)`: a little-endian U16 from its two bytes. -/
def u16LE (b0 b1 : Byte) : Nat :=
  b0.toNat ||| (b1.toNat <<< 8)

/-- The two bytes of a U16 occupy disjoint bit ranges. -/
theorem u16LE_eq (b0 b1 : Byte) : u16LE b0 b1 = b0.toNat + 256 * b1.toNat := by
  -- The shifted byte has eight zero bits where the other one stands.
  have low : b0.toNat < 2 ^ 8 := b0.isLt
  rw [u16LE, Nat.or_comm, ← Nat.shiftLeft_add_eq_or_of_lt low, Nat.shiftLeft_eq]
  omega

/-- The bytes of consecutive messages, in order. -/
def messageBytes {lo hi : Nat} (ms : List (Message lo hi)) : List Byte :=
  ms.flatMap Message.bytes

@[simp] theorem messageBytes_nil {lo hi : Nat} :
    messageBytes ([] : List (Message lo hi)) = [] := rfl

@[simp] theorem messageBytes_cons {lo hi : Nat} (m : Message lo hi) (ms : List (Message lo hi)) :
    messageBytes (m :: ms) = m.bytes ++ messageBytes ms := rfl

/-- The bytes of consecutive messages are counted message by message. -/
theorem messageBytes_length_cons {lo hi : Nat} (m : Message lo hi) (ms : List (Message lo hi)) :
    (messageBytes (m :: ms)).length = m.bytes.length + (messageBytes ms).length :=
  List.length_append

/-- Length and type of each message. -/
def items {lo hi : Nat} (ms : List (Message lo hi)) : List (Nat × Byte) :=
  ms.map fun m => (m.bytes.length, m.type)

@[simp] theorem items_nil {lo hi : Nat} : items ([] : List (Message lo hi)) = [] := rfl

@[simp] theorem items_cons {lo hi : Nat} (m : Message lo hi) (ms : List (Message lo hi)) :
    items (m :: ms) = (m.bytes.length, m.type) :: items ms := rfl

/-- The stated lengths add up to the bytes of the messages. -/
theorem items_sum {lo hi : Nat} (ms : List (Message lo hi)) :
    ((items ms).map Prod.fst).sum = (messageBytes ms).length := by
  -- Induction on the messages.
  induction ms with
  | nil => rfl
  | cons m ms ih =>
    rw [items_cons, List.map_cons, List.sum_cons, ih, messageBytes_length_cons]

/-- A frame payload: an eight-byte header stating the payload length, then messages. -/
structure Frame (lo hi : Nat) where
  /-- Length (U16, little-endian), count, unit and sequence. -/
  header : List Byte
  /-- The messages that follow the header. -/
  messages : List (Message lo hi)
  /-- The header is one buffer word. -/
  header_length : header.length = 8
  /-- There is something to dispatch. -/
  nonempty : messages ≠ []
  /-- The length field counts the whole payload. -/
  lengthField : u16LE (header.getD 0 0#8) (header.getD 1 0#8) = 8 + (messageBytes messages).length

/-- The bytes of a frame payload in wire order. -/
def Frame.payload {lo hi : Nat} (f : Frame lo hi) : List Byte :=
  f.header ++ messageBytes f.messages

/-- The header's length field is the payload length. -/
theorem Frame.payload_length {lo hi : Nat} (f : Frame lo hi) :
    f.payload.length = 8 + (messageBytes f.messages).length := by
  -- The header has eight bytes.
  simp [Frame.payload, f.header_length]

/-- Any eight bytes in front of a frame are its header, which states the payload length. -/
theorem Frame.front {lo hi : Nat} {f : Frame lo hi} {bs rest tail : List Byte}
    (whole : bs ++ rest = f.payload ++ tail) (enough : 8 ≤ bs.length) :
    bs.take 8 = f.header ∧ u16LE (bs.getD 0 0#8) (bs.getD 1 0#8) = f.payload.length ∧
      bs.drop 8 ++ rest = messageBytes f.messages ++ tail := by
  -- The header is cut off first, and the length field is read inside it.
  rw [Frame.payload, List.append_assoc] at whole
  obtain ⟨taken, remaining⟩ := first_arrived whole (by rw [f.header_length]; exact enough)
  rw [f.header_length] at taken remaining
  refine ⟨taken, ?_, remaining⟩
  rw [f.payload_length, ← f.lengthField, ← taken]
  simp [List.getD_eq_getElem?_getD]

/-- The stated length of a message is recovered from its first byte. -/
theorem Message.length_toNat {lo hi : Nat} (m : Message lo hi) (small : hi < 256) :
    (BitVec.ofNat 8 m.bytes.length).toNat = m.bytes.length := by
  -- A length below 256 fits in the byte.
  have bound := m.le_hi
  simp only [BitVec.toNat_ofNat]
  exact Nat.mod_eq_of_lt (by omega)

/-- Any bytes in front of a message start with its length and its type. -/
theorem Message.front {lo hi : Nat} (two : 2 ≤ lo) (small : hi < 256) {m : Message lo hi}
    {bs rest tail : List Byte} (whole : bs ++ rest = m.bytes ++ tail) :
    (bs ≠ [] → (bs.getD 0 0#8).toNat = m.bytes.length) ∧
      (2 ≤ bs.length → bs.getD 1 0#8 = m.type) := by
  -- The heads of both sides agree, and so do their second bytes.
  have low := m.lo_le
  constructor
  · intro some
    obtain ⟨b, bs, rfl⟩ := List.exists_cons_of_ne_nil some
    have heads := congrArg List.head? whole
    simp only [List.cons_append, List.head?_cons, List.head?_append, m.lengthByte, Option.some_or,
      Option.some.injEq] at heads
    rw [List.getD_cons_zero, heads]
    exact m.length_toNat small
  · intro long
    have second := congrArg (fun bytes => bytes.getD 1 0#8) whole
    simp only [List.getD_eq_getElem?_getD] at second
    rw [List.getElem?_append_left (by omega), List.getElem?_append_left (by omega)] at second
    simpa only [Message.type, List.getD_eq_getElem?_getD] using second

end MarketData
