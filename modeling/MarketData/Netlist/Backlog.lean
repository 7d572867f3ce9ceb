import Mathlib.Algebra.GroupWithZero.Nat
import MarketData.Netlist.BufferLaws

/-! The bytes that pile up behind short messages, and what the rebuild of one word loses of them. -/

namespace MarketData

/-- What is buffered when a message has just been taken out. -/
structure Backlog where
  /-- The buffered bytes of later messages. -/
  count : Nat
  /-- How many of them, from the front, still have their value. -/
  intact : Nat

/-- The words that arrive until a message of this length is taken out, at least one. -/
def Backlog.words (b : Backlog) (len : Nat) : Nat :=
  max 1 ((len - b.count + 7) / 8)

/-- The bytes buffered when it is taken out. -/
def Backlog.filled (b : Backlog) (len : Nat) : Nat :=
  b.count + 8 * b.words len

/-- The backlog behind a message of this length.

`compress_buffer` rebuilds one word of the remainder, and what was lost before stays lost. -/
def Backlog.after (b : Backlog) (len : Nat) : Backlog where
  count := b.filled len - len
  intact :=
    min (keptBytes (b.filled len) len)
      (if len < b.count ∧ b.intact < b.count then b.intact - len else b.filled len - len)

/-- One message a word keeps up with these lengths and types behind this backlog.

In front of each message a word must still be to come, and neither its length byte nor a nonzero
type byte may be lost. -/
def KeepsUp : Backlog → List (Nat × Byte) → Prop
  | _, [] => True
  | b, (len, ty) :: rest =>
    b.count < len + (rest.map Prod.fst).sum ∧ (b.count = 0 ∨ 0 < b.intact) ∧
      (b.count ≤ 1 ∨ 1 < b.intact ∨ ty = 0#8) ∧ KeepsUp (b.after len) rest

instance decidableKeepsUp : ∀ (b : Backlog) (es : List (Nat × Byte)), Decidable (KeepsUp b es)
  | _, [] => isTrue trivial
  | b, (len, _) :: rest =>
    have := decidableKeepsUp (b.after len) rest
    inferInstanceAs (Decidable (_ ∧ _ ∧ _ ∧ _))

/-- The backlogs that occur as long as no length byte is lost, with one lost at most. -/
def Backlog.Small (b : Backlog) : Prop :=
  (b.count ≤ 8 ∧ b.intact = b.count) ∨ (b.count ≤ 10 ∧ b.intact ≤ 8) ∨
    (b.count ≤ 12 ∧ b.intact ≤ 2) ∨ (b.count ≤ 14 ∧ b.intact = 0)

/-- A small backlog leaves room for a word. -/
theorem Backlog.Small.count_le {b : Backlog} (small : b.Small) : b.count ≤ 14 := by
  -- Each of the four kinds bounds the count.
  unfold Backlog.Small at small
  omega

/-- The words that arrive hold the rest of the message. -/
theorem Backlog.le_filled (b : Backlog) (len : Nat) : len ≤ b.filled len := by
  unfold Backlog.filled Backlog.words
  omega

/-- Behind a message that was not there yet at most a word is left; else one word has arrived. -/
theorem Backlog.filled_cases (b : Backlog) (len : Nat) :
    (b.count ≤ len ∧ b.filled len ≤ len + 8) ∨ (len < b.count ∧ b.filled len = b.count + 8) := by
  unfold Backlog.filled Backlog.words
  omega

/-- Once a byte is lost, a rebuild in front of it reaches none that has just arrived. -/
theorem Backlog.Small.kept_le {b : Backlog} (small : b.Small) {len : Nat} (long : 6 ≤ len)
    (gap : len < b.count ∧ b.intact < b.count) :
    b.intact ≤ len ∨ keptBytes (b.filled len) len ≤ b.count - len := by
  -- The message is there already, so one word arrives behind the backlog.
  obtain ⟨short, -⟩ | ⟨-, filled⟩ := b.filled_cases len
  · omega
  rw [filled]
  unfold Backlog.Small at small
  unfold keptBytes
  split
  · omega
  · split <;> omega

/-- A backlog stays small behind a message whose length byte was not lost. -/
theorem Backlog.Small.after {b : Backlog} (small : b.Small) (alive : b.count = 0 ∨ 0 < b.intact)
    {len : Nat} (long : 6 ≤ len) : (b.after len).Small := by
  -- The rebuilt bytes are at most a word, and all of a remainder that is one.
  have arrived := b.filled_cases len
  have bound := keptBytes_le (b.filled len) len
  have whole : b.filled len - len ≤ 8 → keptBytes (b.filled len) len = b.filled len - len :=
    keptBytes_eq (b.le_filled len)
  unfold Backlog.Small at small ⊢
  simp only [Backlog.after]
  generalize keptBytes (b.filled len) len = kept at bound whole ⊢
  -- Only a message shorter than a word lets the backlog grow, by two bytes at most.
  split <;> omega

/-- What `compress_buffer` leaves of the buffered bytes: one word, then zeros. -/
def remainder (bs : List Byte) (start : Nat) : List Byte :=
  let kept := (bs.drop start).take (keptBytes bs.length start)
  kept ++ List.replicate (bs.length - start - kept.length) 0#8

/-- The remainder counts the bytes that were not taken out. -/
theorem remainder_length (bs : List Byte) (start : Nat) :
    (remainder bs start).length = bs.length - start := by
  -- The zeros fill up what the rebuild leaves out.
  simp only [remainder, List.length_append, List.length_replicate, List.length_take,
    List.length_drop]
  omega

/-- A remainder of at most one word is what was not taken out. -/
theorem remainder_of_le {bs : List Byte} {start : Nat} (within : start ≤ bs.length)
    (small : bs.length - start ≤ 8) : remainder bs start = bs.drop start := by
  -- The whole word is rebuilt, so no zeros are filled in.
  simp only [remainder]
  rw [keptBytes_eq within small, List.take_of_length_le (Nat.le_of_eq List.length_drop),
    List.length_drop, Nat.sub_self, List.replicate_zero, List.append_nil]

/-- A byte of the remainder is a buffered byte or zero. -/
theorem remainder_getD (bs : List Byte) (start i : Nat) :
    (remainder bs start).getD i 0#8 =
      if i < keptBytes bs.length start then bs.getD (start + i) 0#8 else 0#8 := by
  -- A position is rebuilt, filled with a zero, or past the end.
  rw [remainder, getD_append, getD_take, getD_drop, getD_zeros, List.length_take, List.length_drop]
  split
  case isTrue => rfl
  case isFalse past =>
    split
    · rw [getD_past (by omega)]
    · rfl

/-- Zeros behind the packed bytes change nothing. -/
theorem pack_zeros (bs : List Byte) (n : Nat) : pack (bs ++ List.replicate n 0#8) = pack bs := by
  -- A byte past the list reads as zero either way.
  apply buf_ext
  intro i within
  rw [byteAt_pack _ within, byteAt_pack _ within, getD_append]
  split
  case isTrue => rfl
  case isFalse past =>
    rw [getD_past (Nat.le_of_not_lt past), getD_zeros]

/-- Compressing leaves the remainder. -/
theorem compressBuffer_remainder (bs : List Byte) {start : Nat} (fits : bs.length ≤ 72)
    (within : start ≤ bs.length) :
    compressBuffer (pack bs) bs.length start =
      (pack (remainder bs start), (remainder bs start).length) := by
  -- The packed remainder ends in zeros, which the buffer holds anyway.
  rw [compressBuffer_pack bs fits within, remainder_length, remainder, pack_zeros]

/-- The buffered bytes in front of a stream: intact first, then lost. -/
structure Backlog.Reads (b : Backlog) (held stream : List Byte) : Prop where
  length : held.length = b.count
  intact_le : b.intact ≤ b.count
  front : ∀ i, i < b.intact → held.getD i 0#8 = stream.getD i 0#8
  /-- Without an intact byte only the first one is known to be zero. -/
  lost : ∀ i, b.intact ≤ i → i < b.count → (b.intact = 0 → i = 0) → held.getD i 0#8 = 0#8

/-- Behind a full set of words, a byte is the stream's unless it was lost before. -/
theorem Backlog.Reads.getD_append {b : Backlog} {held stream : List Byte}
    (reads : b.Reads held stream) {n i : Nat} (inside : i < b.count + n)
    (kept : i < b.intact ∨ b.count ≤ i) :
    (held ++ (stream.drop b.count).take n).getD i 0#8 = stream.getD i 0#8 := by
  -- An intact byte is read from the front, an arrived one from the stream behind it.
  have length := reads.length
  have most := reads.intact_le
  rw [MarketData.getD_append, length]
  rcases kept with front | arrived
  · rw [if_pos (by omega), reads.front i front]
  · rw [if_neg (by omega), getD_take, if_pos (by omega), getD_drop, Nat.add_sub_cancel' arrived]

/-- Behind a message, the remainder reads as the backlog after it. -/
theorem Backlog.Reads.after {b : Backlog} {held stream : List Byte} (reads : b.Reads held stream)
    (small : b.Small) (alive : b.count = 0 ∨ 0 < b.intact) {len : Nat} (long : 6 ≤ len)
    (more : b.filled len ≤ stream.length) :
    (b.after len).Reads (remainder (held ++ (stream.drop b.count).take (8 * b.words len)) len)
      (stream.drop len) := by
  -- The remainder is read position by position against the stream behind the message.
  have filled : b.filled len = b.count + 8 * b.words len := rfl
  have enough := b.le_filled len
  have total : (held ++ (stream.drop b.count).take (8 * b.words len)).length = b.filled len := by
    rw [List.length_append, List.length_take, List.length_drop, reads.length]
    omega
  constructor
  · rw [remainder_length, total]
    rfl
  · simp only [Backlog.after]
    split <;> omega
  · -- An intact byte was intact before or has just arrived.
    intro i inside
    simp only [Backlog.after] at inside
    rw [remainder_getD, total, if_pos (by omega), reads.getD_append]
    · rw [getD_drop]
    · split at inside <;> omega
    · split at inside
      · omega
      · have most := reads.intact_le
        omega
  · intro i behind inside first
    simp only [Backlog.after] at behind inside first
    rw [remainder_getD, total]
    split
    · -- A rebuilt byte that is not intact was lost before.
      rename_i rebuilt
      split at behind
      · rename_i gap
        rw [if_pos gap] at first
        have kept := small.kept_le long gap
        have held' : len + i < held.length := by rw [reads.length]; omega
        rw [MarketData.getD_append, if_pos held']
        exact reads.lost (len + i) (by omega) (by omega) (by omega)
      · omega
    · rfl

end MarketData
