import MarketData.Netlist.EthernetFrame

/-! The byte list that the loader of the parser's test bench hands over word by word. -/

namespace MarketData.Bench

open EthernetFrame

/-- `MyList`: bytes. -/
structure MyList where
  data : List Byte

namespace MyList

variable (l : MyList)

/-- `get_num_words`. -/
def getNumWords : Nat :=
  l.data.length / 8 + if 0 < l.data.length % 8 then 1 else 0

/-- `stop_idx`, as `get_word` and `get_byte_enables` compute it. -/
def stopIdx (index : Nat) : Nat :=
  if l.data.length < index * 8 + 8 then l.data.length else index * 8 + 8

/-- `num_zeros`, which is `8 - (stop_idx - start_idx)`. -/
def numZeros (index : Nat) : Nat :=
  index * 8 + 8 - l.stopIdx index

/-- `get_word`: the bytes are shifted in from below, and zeros behind them. -/
def getWord (index : Nat) : Nat :=
  let startIdx := index * 8
  let finalWord := (List.range' startIdx (l.stopIdx index - startIdx)).foldl
    (fun w i => (w <<< 8) ||| (l.data.getD i 0#8).toNat) 0
  -- Add padding
  (List.range (l.numZeros index)).foldl (fun w _ => (w <<< 8) ||| 0) finalWord

/-- `get_byte_enables`. -/
def getByteEnables (index : Nat) : Nat :=
  (0xFF <<< l.numZeros index) &&& 0xFF

/-- The bytes of a word. -/
def chunk (index : Nat) : List Byte :=
  (l.data.drop (index * 8)).take 8

/-- Bytes that are shifted in one after the other are a big-endian number. -/
theorem foldl_shift (bs : List Byte) :
    bs.foldl (fun w b => (w <<< 8) ||| b.toNat) 0 = intFromBytesBig bs := by
  -- Induction on the bytes, the last one first: it is the lowest digit.
  induction bs using List.reverseRecOn with
  | nil => rfl
  | append_singleton bs b ih =>
    have low : b.toNat < 2 ^ 8 := b.isLt
    rw [List.foldl_concat, ih, ← Nat.shiftLeft_add_eq_or_of_lt low, Nat.shiftLeft_eq,
      intFromBytesBig, intFromBytesBig, intFromBytesLittle, intFromBytesLittle, List.reverse_concat,
      List.map_cons, Nat.ofDigits_cons]
    omega

variable {l}

/-- One word is counted for every chunk. -/
theorem getNumWords_eq (l : MyList) : l.getNumWords = (l.data.length + 7) / 8 := by
  rw [getNumWords]
  split <;> omega

/-- A word that exists stops at the end of its bytes. -/
theorem stopIdx_eq {index : Nat} (within : index < l.getNumWords) :
    l.stopIdx index = index * 8 + (l.chunk index).length := by
  rw [getNumWords_eq] at within
  rw [stopIdx, chunk, List.length_take, List.length_drop]
  split <;> omega

/-- The bytes that the loop of `get_word` reads. -/
theorem read_eq (start n : Nat) {bs : List Byte} (inside : start + n ≤ bs.length) :
    (List.range' start n).map (fun i => bs.getD i 0#8) = (bs.drop start).take n := by
  -- Element by element; no index is past the end.
  apply List.ext_getElem
  · simp only [List.length_map, List.length_range', List.length_take, List.length_drop]
    omega
  · intro i left right
    rw [List.length_map, List.length_range'] at left
    simp [List.getElem?_eq_getElem (show start + i < bs.length by omega)]

/-- A word has eight bytes at most. -/
theorem length_chunk_le (l : MyList) (index : Nat) : (l.chunk index).length ≤ 8 := by
  rw [chunk, List.length_take]
  exact Nat.min_le_left _ _

/-- The zeros fill a word up. -/
theorem numZeros_eq {index : Nat} (within : index < l.getNumWords) :
    l.numZeros index = 8 - (l.chunk index).length := by
  rw [numZeros, stopIdx_eq within]
  omega

/-- A word is the number of its bytes and the zeros behind them. -/
theorem getWord_eq {index : Nat} (within : index < l.getNumWords) :
    l.getWord index = fromBytes false
      (l.chunk index ++ List.replicate (8 - (l.chunk index).length) 0#8) := by
  -- Both loops shift in bytes, and the second one goes on with the word of the first.
  have stop := stopIdx_eq within
  have inside : index * 8 + (l.chunk index).length ≤ l.data.length := by
    rw [← stop, stopIdx]
    split <;> omega
  have bytes : (List.range' (index * 8) (l.stopIdx index - index * 8)).map
      (fun i => l.data.getD i 0#8) = l.chunk index := by
    rw [stop, Nat.add_sub_cancel_left, read_eq _ _ inside, chunk, List.length_take]
    exact List.take_eq_take_min.symm
  have zeros : (List.range (l.numZeros index)).map (fun _ => 0#8) =
      List.replicate (8 - (l.chunk index).length) 0#8 := by
    rw [List.map_const', List.length_range, numZeros_eq within]
  have first : (l.chunk index).foldl (fun w b => (w <<< 8) ||| b.toNat) 0 =
      (List.range' (index * 8) (l.stopIdx index - index * 8)).foldl
        (fun w i => (w <<< 8) ||| (l.data.getD i 0#8).toNat) 0 := by
    rw [← bytes, List.foldl_map]
  have padding : ∀ word, (List.replicate (8 - (l.chunk index).length) 0#8).foldl
      (fun w b => (w <<< 8) ||| b.toNat) word =
        (List.range (l.numZeros index)).foldl (fun w _ => (w <<< 8) ||| 0) word := by
    intro word
    rw [← zeros, List.foldl_map]
    rfl
  have number : fromBytes false (l.chunk index ++
      List.replicate (8 - (l.chunk index).length) 0#8) = _ := (foldl_shift _).symm
  rw [number, List.foldl_append, first, padding]
  rfl

/-- The enables are those of the first bytes of a word. -/
theorem getByteEnables_eq {index : Nat} (within : index < l.getNumWords) :
    l.getByteEnables index = keepOf false (l.chunk index).length := by
  -- Nine lengths are possible, and each is evaluated.
  have all : ∀ m : Fin 9, (0xFF <<< (8 - m.val)) &&& 0xFF = keepOf false m.val := by decide
  rw [getByteEnables, numZeros_eq within]
  exact all ⟨(l.chunk index).length, Nat.lt_succ_of_le (l.length_chunk_le index)⟩

/-- The bytes of a word that its enables select, bit 7 for the most significant one. -/
def selected (l : MyList) (index : Nat) : List Byte :=
  enabled false (l.getWord index) (l.getByteEnables index)

/-- The words and their enables give the bytes of the list. -/
theorem word_codec (l : MyList) :
    (∀ index < l.getNumWords,
      l.selected index = l.data.extract (8 * index) (min (8 * index + 8) l.data.length) ∧
        ∀ k < 8, (l.getByteEnables index).testBit (7 - k) = false →
          l.getWord index / 256 ^ (7 - k) % 256 = 0) ∧
      (List.range l.getNumWords).flatMap l.selected = l.data := by
  -- Every word gives back its bytes, and these are the list.
  have word : ∀ index < l.getNumWords, l.selected index = l.chunk index := by
    intro index within
    rw [selected, getWord_eq within, getByteEnables_eq within]
    exact enabled_chunk false (l.length_chunk_le index)
  refine ⟨fun index within => ⟨?_, fun k small disabled => ?_⟩, ?_⟩
  · rw [word index within, chunk, List.extract_eq_take_drop, Nat.mul_comm, List.take_eq_take_iff,
      List.length_drop]
    omega
  · -- Behind its bytes a word has the zeros that fill it up.
    rw [getByteEnables_eq within] at disabled
    have past := testBit_keepOf false (l.length_chunk_le index) small
    rw [show lane false k = 7 - k from rfl, disabled, eq_comm, decide_eq_false_iff_not] at past
    have whole : (l.chunk index ++ List.replicate (8 - (l.chunk index).length) 0#8).length = 8 := by
      simp [length_chunk_le]
    have byte := byte_fromBytes false whole small
    rw [← getWord_eq within, getD_append, if_neg past, getD_zeros] at byte
    have none := congrArg BitVec.toNat byte
    rw [BitVec.toNat_ofNat, Nat.mod_mod_of_dvd _ (by simp)] at none
    exact none
  · rw [List.flatMap_congr fun index member => word index (List.mem_range.mp member),
      getNumWords_eq, List.flatMap_def]
    exact flatten_chunks (by decide) l.data

/-- The fourth word of twenty-seven bytes has three of them. -/
example : (⟨(List.range' 1 27).map (BitVec.ofNat 8)⟩ : MyList).getWord 3 = 0x191a1b0000000000 ∧
    (⟨(List.range' 1 27).map (BitVec.ofNat 8)⟩ : MyList).getByteEnables 3 = 0b11100000 :=
  ⟨rfl, rfl⟩

end MyList

end MarketData.Bench
