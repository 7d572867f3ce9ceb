import MarketData.Netlist.Buffer

/-! The buffer path on byte strings: appending concatenates, compressing drops a prefix. -/

namespace MarketData

/-- The buffer holding exactly these bytes from position zero, and zeros after them. -/
def pack (bs : List Byte) : Buf :=
  Vector.ofFn fun i => wordOfBytes ((bs.drop (8 * i.val)).take 8)

/-- The keep value whose low `n` bits are set. -/
def lowKeep (n : Nat) : BitVec 8 :=
  (1#8 <<< n) - 1#8

/-- A contiguous keep counts as many bytes as it has low bits. -/
theorem numOfTrue_lowKeep {n : Nat} (small : n ≤ 8) : numOfTrue (lowKeep n) = n := by
  -- Nine keeps are possible, and each is counted by evaluation.
  have all : ∀ m : Fin 9, numOfTrue (lowKeep m.val) = m.val := by decide
  exact all ⟨n, by omega⟩

/-- A byte of the buffer is a byte of the word it lies in. -/
theorem byteAt_eq {buf : Buf} {i : Nat} (word : i / 8 < 9) :
    byteAt buf i = byteBE buf[i / 8] (i % 8) := by
  -- Both readings select the same eight bits.
  apply BitVec.eq_of_getLsbD_eq
  intro j small
  have position : 8 * (7 - i % 8) + j = 64 - 8 * (i % 8 + 1) + j := by omega
  simp [byteAt, getElem_byteBE, small, position, Vector.getElem?_eq_getElem word]

/-- Two buffers with the same seventy-two bytes are the same buffer. -/
theorem buf_ext {a b : Buf} (bytes : ∀ i, i < 72 → byteAt a i = byteAt b i) : a = b := by
  -- Each word is compared byte by byte.
  apply Vector.ext
  intro w word
  apply eq_of_byteBE_eq (n := 8) rfl
  intro k within
  have same := bytes (8 * w + k) (by omega)
  have whole : (8 * w + k) / 8 = w := by omega
  have part : (8 * w + k) % 8 = k := by omega
  simpa [byteAt_eq (show (8 * w + k) / 8 < 9 by omega), whole, part] using same

/-- A packed buffer reads back its bytes, and zero past them. -/
@[simp] theorem byteAt_pack (bs : List Byte) {i : Nat} (within : i < 72) :
    byteAt (pack bs) i = bs.getD i 0#8 := by
  -- The word of the byte was assembled from its eight bytes of the list.
  have split : 8 * (i / 8) + i % 8 = i := by omega
  have low : i % 8 < 8 := by omega
  rw [byteAt_eq (by omega), pack, Vector.getElem_ofFn, byteBE_wordOfBytes (n := 8) rfl _ _ low]
  simp [List.getD_eq_getElem?_getD, low, split]

/-- Replacing one word changes exactly that word's bytes. -/
theorem byteAt_set (buf : Buf) (idx : Nat) (u : Word) {i : Nat} (within : i < 72) :
    byteAt (buf.setIfInBounds idx u) i =
      if i / 8 = idx then byteBE u (i % 8) else byteAt buf i := by
  -- The byte lies in the replaced word or in another one.
  rw [byteAt_eq (by omega), byteAt_eq (by omega), Vector.getElem_setIfInBounds]
  split <;> split <;> first | rfl | omega

/-- Rotation by whole bytes permutes the bytes of a word cyclically. -/
theorem byteBE_rotr (x : Word) {r k : Nat} (turn : 0 < r) (small : r < 8) (within : k < 8) :
    byteBE (rotr x (8 * r)) k = byteBE x (if r ≤ k then k - r else k + 8 - r) := by
  -- One of the two shifted copies is zero at every byte.
  have amount : 8 * r % 64 = 8 * r := by omega
  have rest : 64 - 8 * r = 8 * (8 - r) := by omega
  simp only [rotr, amount, rest, byteBE_or, byteBE_ushiftRight (n := 8) rfl _ _ _ within,
    byteBE_shiftLeft (n := 8) rfl _ _ _ within]
  by_cases back : r ≤ k
  · simp [back, show ¬ k + (8 - r) < 8 by omega]
  · have position : k + (8 - r) = k + 8 - r := by omega
    rw [if_neg back, if_neg back, if_pos (by omega), position, BitVec.zero_or]

/-- The converted input word holds the first `n` data bytes and zeros after them. -/
theorem byteBE_zeroOutAndConvert (d : Vector Byte 8) {n k : Nat} (small : n ≤ 8)
    (within : k < 8) :
    byteBE (zeroOutAndConvert d (lowKeep n)).1 k = (d.toList.take n).getD k 0#8 := by
  -- A full word is taken as it is; otherwise the mask keeps the first bytes.
  simp only [zeroOutAndConvert, numOfTrue_lowKeep small, fromBytesBig]
  by_cases full : n = 8
  · have all : d.toList.take n = d.toList := List.take_of_length_le (by simp [full])
    rw [if_pos full, all, byteBE_wordOfBytes (n := 8) rfl _ _ within]
  · rw [if_neg full, byteBE_and_shiftedMask (n := 8) rfl _ _ _ _ small within,
      byteBE_wordOfBytes (n := 8) rfl _ _ within]
    rw [getD_take]
    by_cases kept : k < n
    · simp [kept, show 8 ≤ k + (8 - n) + n ∧ k + (8 - n) < 8 by omega]
    · simp [kept, show ¬ (8 ≤ k + (8 - n) + n ∧ k + (8 - n) < 8) by omega]

/-- The converted length is the number of contiguous keep bits. -/
theorem zeroOutAndConvert_count (d : Vector Byte 8) {n : Nat} (small : n ≤ 8) :
    (zeroOutAndConvert d (lowKeep n)).2 = n := by
  -- Both branches return the number of keep bits.
  simp only [zeroOutAndConvert, numOfTrue_lowKeep small]
  split <;> simp_all

/-- A byte of the word at an index inside or just past the buffer. -/
private theorem byteBE_word_pack {bs : List Byte} (fits : bs.length ≤ 72) (idx : Nat) {k : Nat}
    (within : k < 8) :
    byteBE ((pack bs)[idx]?.getD 0#64) k = bs.getD (8 * idx + k) 0#8 := by
  -- Past the buffer a word reads as zero, and so does the list.
  by_cases inside : idx < 9
  · have read := byteAt_pack bs (i := 8 * idx + k) (by omega)
    rw [byteAt_eq (by omega)] at read
    have whole : (8 * idx + k) / 8 = idx := by omega
    have part : (8 * idx + k) % 8 = k := by omega
    simpa [Vector.getElem?_eq_getElem inside, whole, part] using read
  · rw [getD_past (by omega)]
    simp [Vector.getElem?_eq_none (show 9 ≤ idx by omega)]

/-- Off a boundary, the current word keeps its bytes and takes the first new ones behind them. -/
private theorem byteBE_currentWord {bs : List Byte} (fits : bs.length ≤ 72) (u : Word)
    (turn : 0 < bs.length % 8) {k : Nat} (small : k < 8) :
    byteBE ((pack bs)[bs.length / 8]?.getD 0#64 ||| (rotr u (8 * (bs.length % 8)) &&&
        ((1#64 <<< (8 * (8 - bs.length % 8))) - 1#64))) k =
      if k < bs.length % 8 then bs.getD (8 * (bs.length / 8) + k) 0#8
      else byteBE u (k - bs.length % 8) := by
  -- Below the offset the mask is zero, and from it on the buffer is.
  rw [byteBE_or, byteBE_word_pack fits _ small,
    byteBE_and_lowMask (n := 8) rfl _ _ _ (by omega) small,
    byteBE_rotr _ turn (Nat.mod_lt _ (by decide)) small]
  by_cases before : k < bs.length % 8
  · rw [if_pos before, if_neg (by omega), BitVec.or_zero]
  · rw [if_neg before, if_pos (by omega), if_pos (Nat.le_of_not_lt before), getD_past (by omega),
      BitVec.zero_or]

/-- Off a boundary, the next word holds the last new bytes and nothing else. -/
private theorem byteBE_nextWord (u : Word) {r k : Nat} (turn : 0 < r) (low : r < 8)
    (small : k < 8) :
    byteBE (rotr u (8 * r) &&& ~~~((1#64 <<< (8 * (8 - r))) - 1#64)) k =
      if k < r then byteBE u (k + 8 - r) else 0#8 := by
  -- The complement of the mask keeps what the rotation has wrapped around.
  rw [byteBE_and_not_lowMask (n := 8) rfl _ _ _ (by omega) small, byteBE_rotr _ turn low small]
  by_cases wrapped : k < r
  · rw [if_pos wrapped, if_neg (by omega), if_neg (Nat.not_le_of_lt wrapped)]
  · rw [if_neg wrapped, if_pos (by omega)]

/-- Appending a word with a contiguous keep appends its enabled bytes. -/
theorem addDataToBuffer_pack (bs : List Byte) (d : Vector Byte 8) {n : Nat} (small : n ≤ 8)
    (fits : bs.length + n ≤ 72) :
    addDataToBuffer (pack bs) bs.length d (lowKeep n) =
      (pack (bs ++ d.toList.take n), bs.length + n) := by
  -- Byte by byte: old bytes below the length, new ones from it on, zeros behind.
  have wrap : (bs.length + n) % 256 = bs.length + n := Nat.mod_eq_of_lt (by omega)
  have word := fun k (within : k < 8) => byteBE_zeroOutAndConvert d (k := k) small within
  have count := zeroOutAndConvert_count d small
  unfold addDataToBuffer
  generalize zeroOutAndConvert d (lowKeep n) = converted at word count ⊢
  obtain ⟨u, m⟩ := converted
  simp only at word count ⊢
  subst count
  by_cases aligned : bs.length % 8 = 0
  · by_cases empty : m = 0
    · subst empty; simp [aligned]
    · -- At a word boundary the new word simply replaces an empty one.
      simp only [aligned, if_true, empty, if_false, wrap, Prod.mk.injEq, and_true]
      apply buf_ext
      intro i within
      rw [byteAt_set _ _ _ within, byteAt_pack _ within, byteAt_pack _ within, getD_append]
      by_cases here : i / 8 = bs.length / 8
      · rw [if_pos here, word _ (by omega), if_neg (by omega)]
        congr 1; omega
      · rw [if_neg here]
        split
        · rfl
        · rw [getD_past (by omega), getD_past (by simp; omega)]
  · -- Off a boundary the rotated word is split over the current word and the next one.
    simp only [aligned, if_false, wrap, Prod.mk.injEq, and_true]
    have turn : 0 < bs.length % 8 := by omega
    have low : bs.length % 8 < 8 := by omega
    apply buf_ext
    intro i within
    have part : i % 8 < 8 := by omega
    rw [byteAt_set _ _ _ within, byteAt_set _ _ _ within, byteAt_pack _ within,
      byteAt_pack _ within, getD_append, byteBE_nextWord u turn low part,
      byteBE_currentWord (by omega) u turn part]
    by_cases here : i / 8 = bs.length / 8
    · -- Old bytes lie below the offset, new ones from the offset on.
      have position : 8 * (bs.length / 8) + i % 8 = i := by omega
      rw [if_neg (by omega), if_pos here, position]
      by_cases before : i < bs.length
      · rw [if_pos before, if_pos (by omega)]
      · rw [if_neg before, if_neg (by omega), word _ (by omega)]
        congr 1; omega
    · by_cases next : i / 8 = bs.length / 8 + 1
      · -- The wrapped tail lands at the start of the next word, which held nothing.
        rw [if_pos next, if_neg (by omega : ¬ i < bs.length)]
        by_cases tail : i % 8 < bs.length % 8
        · rw [if_pos tail, word _ (by omega)]
          congr 1; omega
        · rw [if_neg tail, getD_past (by simp; omega)]
      · rw [if_neg next, if_neg here]
        split
        · rfl
        · rw [getD_past (by omega), getD_past (by simp; omega)]

/-- How many bytes of the remainder `compressBuffer` rebuilds in word 0. -/
def keptBytes (L start : Nat) : Nat :=
  if start % 8 = 0 then 8 - (((8 : Int) - (L - start : Nat)) % 32).toNat
  else if L - start ≤ 8 - start % 8 then L - start
  else 8 - start % 8 + min (L % 8) (start % 8)

/-- At most one word of the remainder is rebuilt. -/
theorem keptBytes_le (L start : Nat) : keptBytes L start ≤ 8 := by
  -- Each case of the count is a part of one word.
  unfold keptBytes
  split
  · omega
  · split <;> omega

/-- A remainder of at most one word is rebuilt completely. -/
theorem keptBytes_eq {L start : Nat} (within : start ≤ L) (small : L - start ≤ 8) :
    keptBytes L start = L - start := by
  -- A remainder of one word spans at most the two words that are read.
  unfold keptBytes
  split
  · omega
  · split <;> omega

/-- A buffer rebuilt in word 0 alone, compared byte by byte with a packed list. -/
private theorem set_zero_eq_pack {u : Word} {cs : List Byte} (short : cs.length ≤ 8)
    (bytes : ∀ k, k < 8 → byteBE u k = cs.getD k 0#8) :
    (Vector.replicate 9 0#64 : Buf).setIfInBounds 0 u = pack cs := by
  -- Word 0 holds all bytes of the list, and the other words are zero on both sides.
  apply buf_ext
  intro i within
  rw [byteAt_set _ _ _ within, byteAt_pack _ within]
  by_cases first : i / 8 = 0
  · rw [if_pos first, bytes _ (by omega)]
    congr 1; omega
  · rw [if_neg first, getD_past (by omega), byteAt_eq (by omega)]
    simp

/-- The first part of the rebuilt word is the rest of the word the remainder starts in. -/
private theorem byteBE_firstPart {bs : List Byte} (fits : bs.length ≤ 72) (start : Nat) {k : Nat}
    (small : k < 8) :
    byteBE (((pack bs)[start / 8]?.getD 0#64 &&& ((1#64 <<< (8 * (8 - start % 8))) - 1#64)) <<<
        (8 * (start % 8))) k =
      if k + start % 8 < 8 then bs.getD (start + k) 0#8 else 0#8 := by
  -- The mask keeps that rest, and the shift moves it to the front.
  rw [byteBE_shiftLeft (n := 8) rfl _ _ _ small]
  split
  · rw [byteBE_and_lowMask (n := 8) rfl _ _ _ (by omega) (by omega), if_pos (by omega),
      byteBE_word_pack fits _ (by omega)]
    congr 1; omega
  · rfl

/-- The second part of the rebuilt word is what the next word holds below the length. -/
private theorem byteBE_nextPart {bs : List Byte} (fits : bs.length ≤ 72) (start : Nat) {k : Nat}
    (small : k < 8) :
    byteBE (((pack bs)[start / 8 + 1]?.getD 0#64 &&&
        (((1#64 <<< (8 * (bs.length % 8))) - 1#64) <<< (8 * (8 - bs.length % 8)))) >>>
          (8 * (8 - start % 8))) k =
      if 8 ≤ k + start % 8 ∧ k + start % 8 < 8 + bs.length % 8 then bs.getD (start + k) 0#8
      else 0#8 := by
  -- The shift moves the front of the next word behind the first part.
  rw [byteBE_ushiftRight (n := 8) rfl _ _ _ small]
  by_cases reached : 8 - start % 8 ≤ k
  · rw [if_pos reached, byteBE_and_shiftedMask (n := 8) rfl _ _ _ _ (by omega) (by omega),
      byteBE_word_pack fits _ (by omega)]
    have position : 8 * (start / 8 + 1) + (k - (8 - start % 8)) = start + k := by omega
    rw [position]
    split <;> split <;> first | rfl | omega
  · rw [if_neg reached, if_neg (by omega)]

/-- Compressing drops the consumed bytes and keeps what fits in one rebuilt word. -/
theorem compressBuffer_pack (bs : List Byte) {start : Nat} (fits : bs.length ≤ 72)
    (within : start ≤ bs.length) :
    compressBuffer (pack bs) bs.length start =
      (pack ((bs.drop start).take (keptBytes bs.length start)), bs.length - start) := by
  -- Byte by byte of the rebuilt word, for an aligned start and for any other.
  have wrap : (((bs.length : Int) - start) % 256).toNat = bs.length - start := by omega
  have short : ((bs.drop start).take (keptBytes bs.length start)).length ≤ 8 := by
    have := keptBytes_le bs.length start
    simp; omega
  have kept : ∀ k, ((bs.drop start).take (keptBytes bs.length start)).getD k 0#8 =
      if k < keptBytes bs.length start then bs.getD (start + k) 0#8 else 0#8 := by
    intro k
    rw [getD_take, getD_drop]
  unfold compressBuffer
  simp only [wrap]
  by_cases aligned : start % 8 = 0
  · simp only [aligned, if_true]
    by_cases none : bs.length - start = 0
    · -- Nothing is left, so the fresh buffer is the packed empty list.
      have nothing : (bs.drop start).take (keptBytes bs.length start) = [] := by
        simp [List.drop_eq_nil_of_le (show bs.length ≤ start by omega)]
      have blank : (Vector.replicate 9 0#64 : Buf) = pack [] := by decide
      rw [if_pos none, nothing, blank]
    · rw [if_neg none, Prod.mk.injEq]
      refine ⟨set_zero_eq_pack short fun k small => ?_, rfl⟩
      rw [kept]
      -- The mask is moved by whole bytes, or vanishes once the shift has wrapped.
      have moved : ((((8 : Int) - (bs.length - start : Nat)) % 256).toNat * 8) % 256 =
          8 * (((8 : Int) - (bs.length - start : Nat)) % 32).toNat := by omega
      have position : 8 * (start / 8) + k = start + k := by omega
      rw [moved]
      by_cases visible : 8 * (((8 : Int) - (bs.length - start : Nat)) % 32).toNat < 64
      · rw [if_pos visible, byteBE_and_shiftedMask (n := 8) rfl _ _ _ _ (by omega) small,
          byteBE_word_pack fits _ small, position]
        simp only [keptBytes, aligned, if_true]
        split <;> split <;> first | rfl | omega
      · rw [if_neg visible, if_neg (by simp only [keptBytes, aligned, if_true]; omega)]
        simp
  · simp only [aligned, if_false, Prod.mk.injEq, and_true]
    apply set_zero_eq_pack short
    intro k small
    -- The first part comes from the word the remainder starts in, the second from the next.
    rw [kept, byteBE_or, byteBE_firstPart fits start small, byteBE_nextPart fits start small]
    simp only [keptBytes, aligned, if_false]
    by_cases inFirst : k + start % 8 < 8
    · rw [if_pos inFirst, if_neg (by omega), BitVec.or_zero]
      by_cases inside : bs.length - start ≤ 8 - start % 8
      · rw [if_pos inside]
        split
        · rfl
        · exact getD_past (by omega)
      · rw [if_neg inside, if_pos (by omega)]
    · rw [if_neg inFirst, BitVec.zero_or]
      by_cases inside : bs.length - start ≤ 8 - start % 8
      · -- The remainder ends in its first word, so the next word holds nothing.
        rw [if_pos inside, if_neg (by omega : ¬ k < bs.length - start), getD_past (by omega)]
        exact ite_self _
      · rw [if_neg inside]
        split <;> split <;> first | rfl | omega

/-- A remainder of at most one word survives compression completely. -/
theorem compressBuffer_pack_drop (bs : List Byte) {start : Nat} (fits : bs.length ≤ 72)
    (within : start ≤ bs.length) (small : bs.length - start ≤ 8) :
    compressBuffer (pack bs) bs.length start =
      (pack (bs.drop start), bs.length - start) := by
  -- Nothing of a remainder of one word is lost.
  rw [compressBuffer_pack bs fits within, keptBytes_eq within small,
    List.take_of_length_le (by simp)]

end MarketData
