import MarketData.Netlist.BufferLaws
import MarketData.Netlist.Parser

/-! The buffer path byte by byte, on every buffer that is zero past its length. -/

namespace MarketData

/-- A buffer whose bytes from a position on are zero. -/
def ZeroFrom (buf : Buf) (L : Nat) : Prop :=
  ∀ i, L ≤ i → i < 72 → byteAt buf i = 0#8

instance (buf : Buf) (L : Nat) : Decidable (ZeroFrom buf L) :=
  decidable_of_iff (∀ i < 72, L ≤ i → byteAt buf i = 0#8)
    ⟨fun zero i past within => zero i within past, fun zero i within past => zero i past within⟩

/-- The front of a buffer is as long as was asked for. -/
@[simp] theorem length_front (buf : Buf) (L : Nat) : (front buf L).length = L := by
  simp [front]

/-- The front of a buffer consists of its bytes. -/
theorem getD_front (buf : Buf) {L i : Nat} (below : i < L) :
    (front buf L).getD i 0#8 = byteAt buf i := by
  simp [front, List.getD_eq_getElem?_getD, below]

/-- A buffer that is zero from a position on is its front up to there. -/
theorem pack_front {buf : Buf} {L : Nat} (zero : ZeroFrom buf L) :
    pack (front buf L) = buf := by
  -- Past the position both buffers are zero.
  apply buf_ext
  intro i within
  rw [byteAt_pack _ within]
  by_cases below : i < L
  · exact getD_front buf below
  · have past : L ≤ i := Nat.le_of_not_lt below
    rw [zero i past within, getD_past (by simpa using past)]

/-- A packed list leaves the buffer zero behind it. -/
theorem zeroFrom_pack (bs : List Byte) : ZeroFrom (pack bs) bs.length := by
  intro i past within
  rw [byteAt_pack _ within, getD_past past]

/-- Appending the first bytes of a word leaves the old ones and the zeros behind them. -/
theorem addDataToBuffer_appends {buf : Buf} {L n : Nat} (zero : ZeroFrom buf L)
    (d : Vector Byte 8) (small : n ≤ 8) (fits : L + n ≤ 72) :
    ∃ buf', addDataToBuffer buf L d (lowKeep n) = (buf', L + n) ∧
      (∀ i < L, byteAt buf' i = byteAt buf i) ∧
      (∀ i (within : i < n), byteAt buf' (L + i) = d[i]) ∧
      ZeroFrom buf' (L + n) := by
  -- The buffer is its bytes, and the new ones are joined to them.
  have appended := addDataToBuffer_pack (front buf L) d small (by simpa using fits)
  rw [length_front, pack_front zero] at appended
  have count : (front buf L ++ d.toList.take n).length = L + n := by simp [small]
  refine ⟨_, appended, ?_, ?_, ?_⟩
  · intro i below
    rw [byteAt_pack _ (by omega), getD_append, if_pos (by simpa using below), getD_front buf below]
  · intro i within
    have inWord : i < d.toList.length := by
      rw [Vector.length_toList]
      omega
    rw [byteAt_pack _ (by omega), getD_append, if_neg (by simp), length_front,
      Nat.add_sub_cancel_left, getD_take, if_pos within, List.getD_eq_getElem?_getD,
      List.getElem?_eq_getElem inWord, Option.getD_some, Vector.getElem_toList]
  · rw [← count]
    exact zeroFrom_pack _

/-- Three bytes are appended behind fifteen, over the end of the second word. -/
theorem addDataToBuffer_appends_three :
    ∃ buf', addDataToBuffer (pack (List.replicate 15 7#8)) 15 (Vector.ofFn fun i => .ofNat 8 (i + 1))
        (lowKeep 3) = (buf', 18) ∧
      byteAt buf' 14 = 7#8 ∧ byteAt buf' 17 = 3#8 ∧ ZeroFrom buf' 18 := by
  -- Bytes 14 and 17 stand on either side of the end of the second word.
  obtain ⟨buf', result, old, new, zero⟩ := addDataToBuffer_appends
    (zeroFrom_pack (List.replicate 15 7#8)) (Vector.ofFn fun i => .ofNat 8 (i + 1))
    (n := 3) (by decide) (by decide)
  refine ⟨buf', result, ?_, ?_, zero⟩
  · rw [old 14 (by decide), byteAt_pack _ (by decide)]
    rfl
  · exact (new 2 (by decide)).trans (by simp)

/-- Compression moves the bytes of the remainder to the front, with zeros behind them. -/
def KeepsRemainder (buf : Buf) (L start : Nat) : Prop :=
  ∃ buf', compressBuffer buf L start = (buf', L - start) ∧
    (∀ i < L - start, byteAt buf' i = byteAt buf (start + i)) ∧ ZeroFrom buf' (L - start)

/-- Compression of a buffer drops the consumed bytes and keeps what fits in one rebuilt word. -/
theorem compressBuffer_eq {buf : Buf} {L start : Nat} (zero : ZeroFrom buf L) (within : start ≤ L)
    (fits : L ≤ 72) :
    compressBuffer buf L start =
      (pack (((front buf L).drop start).take (keptBytes L start)), L - start) := by
  have inside : start ≤ (front buf L).length := by simpa using within
  have dropped := compressBuffer_pack (front buf L) (by simpa using fits) inside
  rwa [length_front, pack_front zero] at dropped

/-- From the second word on, a compressed buffer is zero. -/
theorem zeroFrom_compressBuffer {buf : Buf} {L start : Nat} (zero : ZeroFrom buf L)
    (within : start ≤ L) (fits : L ≤ 72) : ZeroFrom (compressBuffer buf L start).1 8 := by
  -- One word is rebuilt at most.
  have kept := keptBytes_le L start
  intro i past below
  rw [compressBuffer_eq zero within fits]
  refine zeroFrom_pack _ i ?_ below
  rw [List.length_take]
  omega

/-- A remainder of at most one word is kept. -/
theorem keepsRemainder_of_le {buf : Buf} {L start : Nat} (zero : ZeroFrom buf L)
    (within : start ≤ L) (fits : L ≤ 72) (small : L - start ≤ 8) : KeepsRemainder buf L start := by
  -- The loops move one word at most, so none of the remainder is lost.
  have result := compressBuffer_eq zero within fits
  rw [keptBytes_eq within small, List.take_of_length_le (by simp)] at result
  refine ⟨_, result, ?_, ?_⟩
  · intro i below
    rw [byteAt_pack _ (by omega), getD_drop, getD_front buf (by omega)]
  · have count : ((front buf L).drop start).length = L - start := by simp
    rw [← count]
    exact zeroFrom_pack _

/-- The ninth byte of a longer remainder is lost when it is not zero. -/
theorem compressBuffer_loses {buf : Buf} {L start : Nat} (zero : ZeroFrom buf L)
    (within : start ≤ L) (fits : L ≤ 72) (ninth : byteAt buf (start + 8) ≠ 0#8) :
    byteAt (compressBuffer buf L start).1 8 ≠ byteAt buf (start + 8) := by
  intro kept
  rw [zeroFrom_compressBuffer zero within fits 8 (Nat.le_refl 8) (by decide)] at kept
  exact ninth kept.symm

/-- How many bytes a compression that drops nothing leaves in place.

The shift of its mask wraps at 32 bytes, and past the first word it clears everything. -/
def keptByZero (L : Nat) : Nat :=
  if 1 ≤ L % 32 ∧ L % 32 ≤ 8 then L % 32 else 0

/-- A compression that drops nothing keeps the first bytes only, on any buffer. -/
theorem byteAt_compressBuffer_zero (buf : Buf) {L i : Nat} (small : L < 256) (within : i < 72) :
    byteAt (compressBuffer buf L 0).1 i = if i < keptByZero L then byteAt buf i else 0#8 := by
  -- Word 0 is masked, and every other word is cleared.
  have diff : (((L : Int) - (0 : Nat)) % 256).toNat = L := by omega
  have blank : ∀ w < 9, (Vector.replicate 9 0#64 : Buf)[w]?.getD 0#64 = 0#64 := by decide
  have cleared : byteAt (Vector.replicate 9 0#64) i = 0#8 := by
    rw [byteAt, blank (i / 8) (by omega)]
    simp
  unfold compressBuffer
  simp only [diff, Nat.zero_mod, if_true, Nat.zero_div]
  by_cases none : L = 0
  · subst none
    rw [if_pos rfl, cleared]
    simp [keptByZero]
  · rw [if_neg none]
    simp only
    rw [byteAt_set _ _ _ within]
    have moved : ((((8 : Int) - (L : Nat)) % 256).toNat * 8) % 256 =
        8 * (((8 : Int) - L) % 32).toNat := by omega
    rw [moved]
    by_cases first : i / 8 = 0
    · -- The mask keeps the first bytes, or none of them once its shift has wrapped.
      have position : i % 8 = i := by omega
      have read : byteBE (buf[0]?.getD 0#64) i = byteAt buf i := by
        rw [byteAt_eq (by omega)]
        simp [first, position]
      rw [if_pos first, position]
      by_cases visible : 8 * (((8 : Int) - L) % 32).toNat < 64
      · rw [if_pos visible, byteBE_and_shiftedMask (n := 8) rfl _ _ _ _ (by omega) (by omega), read]
        unfold keptByZero
        split <;> split <;> split <;> first | rfl | omega
      · rw [if_neg visible]
        have none : keptByZero L = 0 := if_neg (by omega)
        rw [none, if_neg (Nat.not_lt_zero i)]
        simp
    · rw [if_neg first, cleared, if_neg]
      unfold keptByZero
      split <;> omega

/-- A compression that drops nothing leaves exactly those buffers alone that are zero early on. -/
theorem compressBuffer_zero_iff (buf : Buf) {L : Nat} (small : L < 256) :
    compressBuffer buf L 0 = (buf, L) ↔ ZeroFrom buf (keptByZero L) := by
  -- The bytes that are not kept are cleared, and the length stays.
  have count : (compressBuffer buf L 0).2 = L := by
    have diff : (((L : Int) - (0 : Nat)) % 256).toNat = L := by omega
    unfold compressBuffer
    simp only [diff, Nat.zero_mod, if_true]
    split <;> rfl
  constructor
  · intro same i past within
    have byte := byteAt_compressBuffer_zero buf small within
    rw [same, if_neg (Nat.not_lt.mpr past)] at byte
    exact byte
  · intro zero
    refine Prod.ext (buf_ext fun i within => ?_) count
    rw [byteAt_compressBuffer_zero buf small within]
    split
    · rfl
    · exact (zero i (by omega) within).symm

/-- Compression keeps every remainder of some length exactly when that is at most one word. -/
theorem compressBuffer_keeps_iff {L start : Nat} (within : start ≤ L) (fits : L ≤ 72) :
    ((∀ buf, ZeroFrom buf L → KeepsRemainder buf L start) ↔ L - start ≤ 8) ∧
      (8 < L - start → ∃ buf, ZeroFrom buf L ∧
        ∃ i < L - start, byteAt (compressBuffer buf L start).1 i ≠ byteAt buf (start + i)) := by
  -- A buffer without a zero below its length loses the ninth byte of a longer remainder.
  have loses : 8 < L - start → ∃ buf, ZeroFrom buf L ∧
      ∃ i < L - start, byteAt (compressBuffer buf L start).1 i ≠ byteAt buf (start + i) := by
    intro long
    have zero : ZeroFrom (pack (List.replicate L 0xFF#8)) L := by
      have := zeroFrom_pack (List.replicate L 0xFF#8)
      rwa [List.length_replicate] at this
    have ninth : byteAt (pack (List.replicate L 0xFF#8)) (start + 8) = 0xFF#8 := by
      rw [byteAt_pack _ (by omega), List.getD_eq_getElem?_getD,
        List.getElem?_replicate_of_lt (by omega), Option.getD_some]
    exact ⟨_, zero, 8, long, compressBuffer_loses zero within fits (by rw [ninth]; decide)⟩
  refine ⟨⟨?_, ?_⟩, loses⟩
  · intro keeps
    by_contra long
    obtain ⟨buf, zero, i, inside, lost⟩ := loses (Nat.lt_of_not_le long)
    obtain ⟨buf', result, bytes, -⟩ := keeps buf zero
    rw [result] at lost
    exact lost (bytes i inside)
  · exact fun small buf zero => keepsRemainder_of_le zero within fits small

/-- A remainder of nine bytes from position three on loses one of them. -/
theorem compressBuffer_keeps_nine :
    ¬ (∀ buf, ZeroFrom buf 12 → KeepsRemainder buf 12 3) ∧ ∃ buf, ZeroFrom buf 12 ∧
      ∃ i < 9, byteAt (compressBuffer buf 12 3).1 i ≠ byteAt buf (3 + i) := by
  obtain ⟨keepsIff, loses⟩ := compressBuffer_keeps_iff (show 3 ≤ 12 by decide) (by decide)
  exact ⟨fun keeps => absurd (keepsIff.mp keeps) (by decide), loses (by decide)⟩

end MarketData
