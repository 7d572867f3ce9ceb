import MarketData.Lib.Chunks
import MarketData.Netlist.Beats

/-! Frames as the testbench reads them, word by word with a keep, in either byte order. -/

namespace MarketData

/-- `EthernetFrame`: the bytes of one packet. -/
structure EthernetFrame where
  rawBytes : List Byte

namespace EthernetFrame

/-- `get_length_bytes`. -/
def getLengthBytes (f : EthernetFrame) : Nat :=
  f.rawBytes.length

/-- `get_number_of_words`. -/
def getNumberOfWords (f : EthernetFrame) : Nat :=
  f.rawBytes.length / 8 + if 0 < f.rawBytes.length % 8 then 1 else 0

/-- `int.from_bytes` in one of the two byte orders, little-endian when `order` is 1. -/
def fromBytes (order : Bool) (bs : List Byte) : Nat :=
  if order then intFromBytesLittle bs else intFromBytesBig bs

/-- `get_word`: the last word is cut out and padded on its own. -/
def getWord (f : EthernetFrame) (index : Nat) (order : Bool) : Nat :=
  if index + 1 = f.getNumberOfWords then
    let numBytes := f.getLengthBytes % 8
    let padSize := 8 - numBytes
    let ret := (f.rawBytes.drop (index * 8)).take numBytes
    fromBytes order (ret ++ List.replicate padSize 0#8)
  else fromBytes order ((f.rawBytes.drop (index * 8)).take 8)

/-- `get_word_tkeep`. -/
def getWordTkeep (f : EthernetFrame) (index : Nat) (order : Bool) : Nat :=
  if index + 1 = f.getNumberOfWords then
    let numBytes := f.getLengthBytes % 8
    let unshifted := 2 ^ numBytes - 1
    if order then unshifted else unshifted <<< (8 - numBytes)
  else 0xFF

/-- The lane of byte `k`: byte 0 is at the bottom of a little-endian word, else at the top. -/
def lane (order : Bool) (k : Nat) : Nat :=
  if order then k else 7 - k

/-- The bytes of a word that a keep enables, in the order of the stream. -/
def enabled (order : Bool) (word keep : Nat) : List Byte :=
  (List.range 8).filterMap fun k =>
    if keep.testBit (lane order k) then
      some (BitVec.ofNat 8 (word / 256 ^ lane order k % 256))
    else none

/-- Both byte orders read a word back byte by byte. -/
theorem byte_fromBytes (order : Bool) {bs : List Byte} (whole : bs.length = 8) {k : Nat}
    (within : k < 8) :
    BitVec.ofNat 8 (fromBytes order bs / 256 ^ lane order k % 256) = bs.getD k 0#8 := by
  -- The bytes of a big-endian word are found in the reversed string.
  cases order with
  | true => simp only [fromBytes, lane, if_true, intFromBytesLittle_div, BitVec.ofNat_toNat,
      BitVec.setWidth_eq]
  | false =>
    have mirrored : bs.reverse.getD (7 - k) 0#8 = bs.getD k 0#8 := by
      rw [List.getD_eq_getElem?_getD, List.getD_eq_getElem?_getD,
        List.getElem?_reverse (by omega), whole]
      congr 2
      omega
    simp only [fromBytes, lane, Bool.false_eq_true, if_false, intFromBytesBig,
      intFromBytesLittle_div, BitVec.ofNat_toNat, BitVec.setWidth_eq, mirrored]

/-- The keep of `n` bytes, from the bottom or from the top. -/
def keepOf (order : Bool) (n : Nat) : Nat :=
  if order then 2 ^ n - 1 else (2 ^ n - 1) <<< (8 - n)

/-- A keep enables the lanes of the first bytes. -/
theorem testBit_keepOf (order : Bool) {n k : Nat} (small : n ≤ 8) (within : k < 8) :
    (keepOf order n).testBit (lane order k) = decide (k < n) := by
  -- In one order the lanes are counted from the lowest bit, in the other one from the highest.
  cases order with
  | true => simp only [keepOf, lane, if_true, Nat.testBit_two_pow_sub_one]
  | false =>
    simp only [keepOf, lane, Bool.false_eq_true, if_false, Nat.testBit_shiftLeft,
      Nat.testBit_two_pow_sub_one]
    by_cases inside : k < n
    · simp only [inside, decide_true, Bool.and_eq_true, decide_eq_true_eq]
      omega
    · simp only [inside, decide_false, Bool.and_eq_false_iff, decide_eq_false_iff_not]
      omega

/-- A padded chunk is read back by its keep. -/
theorem enabled_chunk (order : Bool) {chunk : List Byte} (small : chunk.length ≤ 8) :
    enabled order (fromBytes order (chunk ++ List.replicate (8 - chunk.length) 0#8))
      (keepOf order chunk.length) = chunk := by
  -- The lanes of the chunk are enabled and hold its bytes, the others are not.
  have whole : (chunk ++ List.replicate (8 - chunk.length) 0#8).length = 8 := by
    rw [List.length_append, List.length_replicate]
    omega
  have lanes : List.range 8 =
      List.range chunk.length ++ (List.range (8 - chunk.length)).map (chunk.length + ·) := by
    rw [← List.range_add]
    congr 1
    omega
  have kept : (List.range chunk.length).filterMap (fun k => some (chunk.getD k 0#8)) = chunk := by
    rw [List.filterMap_eq_map']
    apply List.ext_getElem
    · simp
    · intro k _ within
      simp [within]
  have reads : ∀ k ∈ List.range 8, (if (keepOf order chunk.length).testBit (lane order k) then
        some (BitVec.ofNat 8 (fromBytes order
          (chunk ++ List.replicate (8 - chunk.length) 0#8) / 256 ^ lane order k % 256))
      else none) = if k < chunk.length then some (chunk.getD k 0#8) else none := by
    intro k member
    have within := List.mem_range.mp member
    rw [testBit_keepOf order small within, byte_fromBytes order whole within]
    by_cases inside : k < chunk.length
    · simp [inside, List.getElem?_append_left inside]
    · simp [inside]
  rw [enabled, List.filterMap_congr reads, lanes, List.filterMap_append]
  have first : (List.range chunk.length).filterMap (fun k =>
      if k < chunk.length then some (chunk.getD k 0#8) else none) = chunk := by
    refine (List.filterMap_congr fun k member => ?_).trans kept
    rw [if_pos (List.mem_range.mp member)]
  rw [first, List.filterMap_map, List.filterMap_eq_nil_iff.mpr, List.append_nil]
  intro k _
  simp

/-- One word is counted for every chunk. -/
theorem getNumberOfWords_eq (f : EthernetFrame) :
    f.getNumberOfWords = (f.rawBytes.length + 7) / 8 := by
  rw [getNumberOfWords]
  split <;> omega

/-- A word is its chunk, padded, unless it is the last word and the frame ends with it. -/
theorem getWord_eq (f : EthernetFrame) (order : Bool) (ragged : f.rawBytes.length % 8 ≠ 0) {i : Nat}
    (within : i < f.getNumberOfWords) :
    f.getWord i order = fromBytes order ((f.rawBytes.drop (i * 8)).take 8 ++
        List.replicate (8 - ((f.rawBytes.drop (i * 8)).take 8).length) 0#8) ∧
      f.getWordTkeep i order = keepOf order ((f.rawBytes.drop (i * 8)).take 8).length := by
  -- The last word has the bytes that the full words leave over.
  rw [getNumberOfWords_eq] at within
  rw [getWord, getWordTkeep, getNumberOfWords_eq, getLengthBytes]
  by_cases last : i + 1 = (f.rawBytes.length + 7) / 8
  · have left : (f.rawBytes.drop (i * 8)).length = f.rawBytes.length % 8 := by
      rw [List.length_drop]
      omega
    have short : (f.rawBytes.drop (i * 8)).take 8 = f.rawBytes.drop (i * 8) :=
      List.take_of_length_le (by omega)
    have all : (f.rawBytes.drop (i * 8)).take (f.rawBytes.length % 8) = f.rawBytes.drop (i * 8) :=
      List.take_of_length_le (by omega)
    simp only [if_pos last, short, all, left, true_and]
    rfl
  · have full : ((f.rawBytes.drop (i * 8)).take 8).length = 8 := by
      rw [List.length_take, List.length_drop]
      omega
    rw [if_neg last, if_neg last, full, Nat.sub_self, List.replicate_zero, List.append_nil]
    cases order <;> exact ⟨rfl, rfl⟩

/-- The bytes of all words, each as far as its keep enables it. -/
def decoded (f : EthernetFrame) (order : Bool) : List Byte :=
  (List.range f.getNumberOfWords).flatMap fun i =>
    enabled order (f.getWord i order) (f.getWordTkeep i order)

/-- No word enables more than its eight bytes. -/
theorem length_enabled_le (order : Bool) (word keep : Nat) :
    (enabled order word keep).length ≤ 8 :=
  (List.length_filterMap_le _ _).trans (by simp)

/-- An empty keep enables nothing. -/
theorem enabled_zero (order : Bool) (word : Nat) : enabled order word 0 = [] := by
  simp [enabled]

/-- Unless the frame ends with a full word, the words give its bytes back. -/
theorem decoded_eq (f : EthernetFrame) (order : Bool) (ragged : f.rawBytes.length % 8 ≠ 0) :
    f.decoded order = f.rawBytes := by
  -- Every word gives back its chunk, and the chunks are the frame.
  have chunk : ∀ i ∈ List.range f.getNumberOfWords,
      enabled order (f.getWord i order) (f.getWordTkeep i order) =
        (f.rawBytes.drop (i * 8)).take 8 := by
    intro i member
    obtain ⟨word, keep⟩ := f.getWord_eq order ragged (List.mem_range.mp member)
    rw [word, keep]
    exact enabled_chunk order (by rw [List.length_take]; omega)
  rw [decoded, List.flatMap_congr chunk, getNumberOfWords_eq, List.flatMap_def]
  exact flatten_chunks (by decide) f.rawBytes

/-- A frame that ends with a full word loses it. -/
theorem length_decoded_lt (f : EthernetFrame) (order : Bool) (some : f.rawBytes ≠ [])
    (full : f.rawBytes.length % 8 = 0) : (f.decoded order).length < f.rawBytes.length := by
  -- The keep of the last word is empty, and the other words have eight bytes at most.
  have length := List.length_pos_iff.mpr some
  obtain ⟨n, count⟩ : ∃ n, f.getNumberOfWords = n + 1 := by
    refine ⟨f.getNumberOfWords - 1, ?_⟩
    rw [getNumberOfWords_eq]
    omega
  have last : enabled order (f.getWord n order) (f.getWordTkeep n order) = [] := by
    have none : f.getWordTkeep n order = 0 := by
      rw [getWordTkeep, if_pos count.symm, getLengthBytes, full]
      cases order <;> rfl
    rw [none, enabled_zero]
  have bound : ∀ m, ((List.range m).flatMap fun i =>
      enabled order (f.getWord i order) (f.getWordTkeep i order)).length ≤ 8 * m := by
    intro m
    induction m with
    | zero => simp
    | succ m ih =>
      have next := length_enabled_le order (f.getWord m order) (f.getWordTkeep m order)
      rw [List.range_succ, List.flatMap_append, List.length_append, List.flatMap_singleton]
      omega
  have words := f.getNumberOfWords_eq
  have front := bound n
  rw [decoded, count, List.range_succ, List.flatMap_append, List.flatMap_singleton, last,
    List.append_nil]
  omega

/-- The words and keeps in stream order. -/
def words (f : EthernetFrame) : List (Nat × Nat) :=
  (List.range f.getNumberOfWords).map fun i => (f.getWord i true, f.getWordTkeep i true)

/-- The data and keeps of the beats that the generator writes for the frame. -/
def beats (f : EthernetFrame) (fno : Nat) : List (Nat × Nat) :=
  (frameRows fno f.rawBytes).map fun r => (r.td.toNat, r.tk.toNat)

/-- A little-endian word of eight bytes is the number of these bytes. -/
theorem toNat_fromBytesLittle (data8 : Vector Byte 8) :
    (fromBytesLittle data8).toNat = intFromBytesLittle data8.toList := by
  -- Both are words of 64 bits, and they have the same bytes.
  have fits : intFromBytesLittle data8.toList < 2 ^ 64 := by
    have bound := intFromBytesLittle_lt data8.toList
    rwa [Vector.length_toList] at bound
  have same : fromBytesLittle data8 = BitVec.ofNat 64 (intFromBytesLittle data8.toList) := by
    refine eq_of_byteBE_eq (n := 8) rfl fun k within => ?_
    have place : 64 - 8 * (k + 1) = 8 * (7 - k) := by omega
    have mirrored : data8.reverse.toList.getD k 0#8 = data8.toList.getD (7 - k) 0#8 := by
      rw [Vector.toList_reverse, List.getD_eq_getElem?_getD, List.getD_eq_getElem?_getD,
        List.getElem?_reverse (by simpa using within), Vector.length_toList]
    rw [fromBytesLittle, fromBytesBig, byteBE_wordOfBytes rfl _ _ within, mirrored]
    apply BitVec.eq_of_toNat_eq
    rw [byteBE, place, BitVec.extractLsb'_toNat, BitVec.toNat_ofNat, Nat.mod_eq_of_lt fits,
      Nat.shiftRight_eq_div_pow, Nat.pow_mul, ← intFromBytesLittle_div]
  rw [same, BitVec.toNat_ofNat, Nat.mod_eq_of_lt fits]

/-- The keep of a beat counts its bytes from the bottom. -/
theorem toNat_keep {n : Nat} (small : n ≤ 8) : ((1#8 <<< n) - 1#8).toNat = keepOf true n := by
  -- Nine keeps are possible, and each is evaluated.
  have all : ∀ m : Fin 9, ((1#8 <<< m.val) - 1#8).toNat = keepOf true m.val := by decide
  exact all ⟨n, by omega⟩

/-- Unless the frame ends with a full word, its words are the beats of the generator. -/
theorem words_eq (f : EthernetFrame) (fno : Nat) (ragged : f.rawBytes.length % 8 ≠ 0) :
    f.words = f.beats fno := by
  -- Word by word, each is its padded chunk.
  rw [words, beats, frameRows, List.map_map, ← getNumberOfWords_eq]
  refine List.map_congr_left fun i member => ?_
  obtain ⟨word, keep⟩ := f.getWord_eq true ragged (List.mem_range.mp member)
  have small : ((f.rawBytes.drop (i * 8)).take 8).length ≤ 8 := by
    rw [List.length_take]
    omega
  rw [word, keep, Function.comp_apply, toNat_fromBytesLittle, ljust8_toList small,
    toNat_keep small]
  rfl

/-- Both byte orders give the frame back, and the little-endian words are the generated beats. -/
def Codec (f : EthernetFrame) : Prop :=
  (∀ order, f.decoded order = f.rawBytes) ∧ ∀ fno, f.words = f.beats fno

/-- The codec is faithful exactly when the frame does not end with a full word. -/
theorem codec_iff (f : EthernetFrame) (some : f.rawBytes ≠ []) :
    f.Codec ↔ f.rawBytes.length % 8 ≠ 0 := by
  -- A last keep of zero stands for a full word and is read as an empty one.
  constructor
  · intro codec full
    have short := f.length_decoded_lt true some full
    rw [codec.1 true] at short
    exact absurd short (Nat.lt_irrefl _)
  · exact fun ragged => ⟨fun order => f.decoded_eq order ragged, fun fno => f.words_eq fno ragged⟩

/-- Eleven bytes are two words, of which the second one has three bytes. -/
theorem codec_eleven : (⟨(List.range 11).map (BitVec.ofNat 8)⟩ : EthernetFrame).Codec :=
  (codec_iff _ (by decide)).mpr (by decide)

/-- A frame of one full word is lost. -/
theorem full_word_lost : ¬ ∀ f : EthernetFrame, f.rawBytes ≠ [] → f.Codec := by
  intro always
  have decoded := (always ⟨[1, 2, 3, 4, 5, 6, 7, 8]⟩ (by simp)).1 true
  exact absurd decoded (by decide)

end EthernetFrame

end MarketData
