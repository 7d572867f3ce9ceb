import Mathlib.Data.List.Basic
import Mathlib.Tactic.Common

/-! Words of whole bytes, read with the first byte in the most significant position. -/

namespace MarketData

/-- One octet of a wire stream or of a buffer word. -/
abbrev Byte := BitVec 8

/-- Past its end, a list of bytes reads as zero. -/
theorem getD_past {bs : List Byte} {i : Nat} (past : bs.length ≤ i) : bs.getD i 0#8 = 0#8 := by
  -- There is no element at the index.
  simp [List.getD_eq_getElem?_getD, List.getElem?_eq_none past]

/-- Reading past the end of a joined list reads the second part. -/
theorem getD_append (bs cs : List Byte) (i : Nat) :
    (bs ++ cs).getD i 0#8 =
      if i < bs.length then bs.getD i 0#8 else cs.getD (i - bs.length) 0#8 := by
  -- The index lies in the first part or behind it.
  simp only [List.getD_eq_getElem?_getD, List.getElem?_append]
  split <;> rfl

/-- The first bytes read as before, and as zero behind. -/
theorem getD_take (bs : List Byte) (n i : Nat) :
    (bs.take n).getD i 0#8 = if i < n then bs.getD i 0#8 else 0#8 := by
  -- The index lies among the bytes that are taken or behind them.
  simp only [List.getD_eq_getElem?_getD, List.getElem?_take]
  split <;> rfl

/-- What is left behind the first bytes is read from there on. -/
theorem getD_drop (bs : List Byte) (n i : Nat) : (bs.drop n).getD i 0#8 = bs.getD (n + i) 0#8 := by
  simp only [List.getD_eq_getElem?_getD, List.getElem?_drop]

/-- Zeros read as zero everywhere. -/
theorem getD_zeros (n i : Nat) : (List.replicate n 0#8).getD i 0#8 = 0#8 := by
  rw [List.getD_eq_getElem?_getD, List.getElem?_replicate]
  split <;> rfl

/-- Byte `k` of a word, counted from the most significant end. -/
def byteBE {w : Nat} (x : BitVec w) (k : Nat) : Byte :=
  x.extractLsb' (w - 8 * (k + 1)) 8

/-- The bits of a byte are a run of eight bits of its word. -/
theorem getLsbD_byteBE {w : Nat} (x : BitVec w) (k j : Nat) :
    (byteBE x k).getLsbD j = (decide (j < 8) && x.getLsbD (w - 8 * (k + 1) + j)) := by
  -- The byte is an extracted run of bits.
  simp [byteBE, BitVec.getLsbD_extractLsb']

/-- The same reading for an index known to lie inside the byte. -/
theorem getElem_byteBE {w : Nat} (x : BitVec w) (k j : Nat) (small : j < 8) :
    (byteBE x k)[j] = x.getLsbD (w - 8 * (k + 1) + j) := by
  -- The byte is an extracted run of bits, and the index lies in it.
  simp [byteBE, BitVec.getElem_extractLsb']

/-- A word of whole bytes is determined by its bytes. -/
theorem eq_of_byteBE_eq {n w : Nat} (whole : w = 8 * n) {x y : BitVec w}
    (bytes : ∀ k, k < n → byteBE x k = byteBE y k) : x = y := by
  -- Bit `i` lies in the byte counted `i / 8` places from the least significant end.
  apply BitVec.eq_of_getLsbD_eq
  intro i within
  have same := congrArg (fun b : Byte => b.getLsbD (i % 8))
    (bytes (n - 1 - i / 8) (by omega))
  simp only [getLsbD_byteBE] at same
  have position : w - 8 * (n - 1 - i / 8 + 1) + i % 8 = i := by omega
  simpa [position, Nat.mod_lt i (by omega : 0 < 8)] using same

/-- Every byte of the zero word is zero. -/
@[simp] theorem byteBE_zero (w k : Nat) : byteBE (0#w) k = 0#8 := by
  -- Bit by bit.
  apply BitVec.eq_of_getLsbD_eq
  intro j _
  simp [getLsbD_byteBE]

/-- Bytes of a bitwise disjunction are disjunctions of bytes. -/
theorem byteBE_or {w : Nat} (x y : BitVec w) (k : Nat) :
    byteBE (x ||| y) k = byteBE x k ||| byteBE y k := by
  -- Bit by bit.
  apply BitVec.eq_of_getLsbD_eq
  intro j within
  simp [getElem_byteBE, within]

/-- A left shift by whole bytes moves later bytes forward and fills with zeros. -/
theorem byteBE_shiftLeft {n w : Nat} (whole : w = 8 * n) (x : BitVec w) (s k : Nat)
    (within : k < n) :
    byteBE (x <<< (8 * s)) k = if k + s < n then byteBE x (k + s) else 0#8 := by
  -- Each bit is either moved from a later byte or shifted in.
  apply BitVec.eq_of_getLsbD_eq
  intro j small
  simp only [getLsbD_byteBE, BitVec.getLsbD_shiftLeft, small, decide_true, Bool.true_and]
  split
  · -- The shifted position names the byte `s` places later.
    have range : w - 8 * (k + 1) + j < w := by omega
    have filled : ¬ w - 8 * (k + 1) + j < 8 * s := by omega
    have position : w - 8 * (k + 1) + j - 8 * s = w - 8 * (k + s + 1) + j := by omega
    simp [getElem_byteBE, range, filled, position, small]
  · have emptied : w - 8 * (k + 1) + j < 8 * s := by omega
    simp [emptied]

/-- A right shift by whole bytes moves earlier bytes back and fills with zeros. -/
theorem byteBE_ushiftRight {n w : Nat} (whole : w = 8 * n) (x : BitVec w) (s k : Nat)
    (within : k < n) :
    byteBE (x >>> (8 * s)) k = if s ≤ k then byteBE x (k - s) else 0#8 := by
  -- Each bit is either moved from an earlier byte or shifted in.
  apply BitVec.eq_of_getLsbD_eq
  intro j small
  simp only [getLsbD_byteBE, BitVec.getLsbD_ushiftRight, small, decide_true, Bool.true_and]
  split
  · have position : 8 * s + (w - 8 * (k + 1) + j) = w - 8 * (k - s + 1) + j := by omega
    simp [getElem_byteBE, position, small]
  · -- The position shifted in lies beyond the top of the word.
    have beyond : w ≤ 8 * s + (w - 8 * (k + 1) + j) := by omega
    simp [BitVec.getLsbD_of_ge x _ beyond]

/-- The mask with its low `m` bits set. -/
theorem getLsbD_lowMask {w : Nat} (m i : Nat) (fits : m ≤ w) :
    ((1#w <<< m) - 1#w).getLsbD i = decide (i < m) := by
  -- The mask is read as a number of the form `2 ^ m - 1`.
  rcases Nat.eq_zero_or_pos w with empty | positive
  · subst empty
    have none : m = 0 := by omega
    simp [none]
  · -- As a number the mask is `2 ^ m - 1`, also when the shift runs out of the word.
    have value : ((1#w <<< m) - 1#w).toNat = 2 ^ m - 1 := by
      have one : 1 % 2 ^ w = 1 := Nat.mod_eq_of_lt (Nat.one_lt_two_pow (by omega))
      simp only [BitVec.toNat_sub, BitVec.toNat_shiftLeft, BitVec.toNat_ofNat, one,
        Nat.shiftLeft_eq, Nat.one_mul]
      have top : 0 < 2 ^ m := Nat.two_pow_pos m
      rcases Nat.lt_or_ge m w with below | full
      · have bound : 2 ^ m < 2 ^ w := Nat.pow_lt_pow_right (by omega) below
        rw [Nat.mod_eq_of_lt bound]
        have shape : 2 ^ w - 1 + 2 ^ m = 2 ^ m - 1 + 2 ^ w := by omega
        rw [shape, Nat.add_mod_right, Nat.mod_eq_of_lt (by omega)]
      · have same : m = w := by omega
        subst same
        rw [Nat.mod_self, Nat.add_zero, Nat.mod_eq_of_lt (by omega)]
    rw [BitVec.getLsbD, value, Nat.testBit_two_pow_sub_one]

/-- Masking with the low `m` bytes keeps the last `m` bytes of a word. -/
theorem byteBE_and_lowMask {n w : Nat} (whole : w = 8 * n) (x : BitVec w) (m k : Nat)
    (fits : m ≤ n) (within : k < n) :
    byteBE (x &&& ((1#w <<< (8 * m)) - 1#w)) k = if n ≤ k + m then byteBE x k else 0#8 := by
  -- A byte lies wholly inside the mask or wholly outside.
  apply BitVec.eq_of_getLsbD_eq
  intro j small
  simp only [getLsbD_byteBE, BitVec.getLsbD_and, getLsbD_lowMask (8 * m) _ (by omega : 8 * m ≤ w),
    small, decide_true, Bool.true_and]
  split
  · have inside : w - 8 * (k + 1) + j < 8 * m := by omega
    simp [getElem_byteBE, inside, small]
  · have outside : ¬ w - 8 * (k + 1) + j < 8 * m := by omega
    simp [outside]

/-- Masking out the low `m` bytes keeps the other bytes of a word. -/
theorem byteBE_and_not_lowMask {n w : Nat} (whole : w = 8 * n) (x : BitVec w) (m k : Nat)
    (fits : m ≤ n) (within : k < n) :
    byteBE (x &&& ~~~((1#w <<< (8 * m)) - 1#w)) k =
      if n ≤ k + m then 0#8 else byteBE x k := by
  -- A byte lies wholly inside the mask or wholly outside.
  apply BitVec.eq_of_getLsbD_eq
  intro j small
  simp only [getLsbD_byteBE, BitVec.getLsbD_and, BitVec.getLsbD_not,
    getLsbD_lowMask (8 * m) _ (by omega : 8 * m ≤ w), small, decide_true, Bool.true_and]
  have range : w - 8 * (k + 1) + j < w := by omega
  split
  · have inside : w - 8 * (k + 1) + j < 8 * m := by omega
    simp [inside]
  · have outside : ¬ w - 8 * (k + 1) + j < 8 * m := by omega
    simp [getElem_byteBE, outside, range, small]

/-- Masking with the low `m` bytes moved up by `s` bytes keeps one run of bytes. -/
theorem byteBE_and_shiftedMask {n w : Nat} (whole : w = 8 * n) (x : BitVec w) (m s k : Nat)
    (fits : m ≤ n) (within : k < n) :
    byteBE (x &&& (((1#w <<< (8 * m)) - 1#w) <<< (8 * s))) k =
      if n ≤ k + s + m ∧ k + s < n then byteBE x k else 0#8 := by
  -- A byte is kept when it lies between both ends of the moved mask.
  apply BitVec.eq_of_getLsbD_eq
  intro j small
  have range : w - 8 * (k + 1) + j < w := by omega
  simp only [getLsbD_byteBE, BitVec.getLsbD_and, BitVec.getLsbD_shiftLeft, range,
    getLsbD_lowMask (8 * m) _ (by omega : 8 * m ≤ w), small, decide_true, Bool.true_and]
  split
  · rename_i kept
    have above : ¬ w - 8 * (k + 1) + j < 8 * s := by omega
    have inside : w - 8 * (k + 1) + j - 8 * s < 8 * m := by omega
    simp [getElem_byteBE, above, inside, small]
  · rename_i dropped
    -- Either the byte sits below the shifted mask or past its upper end.
    rcases Nat.lt_or_ge (w - 8 * (k + 1) + j) (8 * s) with below | above
    · simp [below]
    · have outside : ¬ w - 8 * (k + 1) + j - 8 * s < 8 * m := by omega
      simp [outside]

/-- The word with a given list of leading bytes and zeros after them. -/
def wordOfBytes {w : Nat} : List Byte → BitVec w
  | [] => 0#w
  | b :: bs => b.setWidth w <<< (w - 8) ||| (wordOfBytes bs >>> 8)

/-- Reading a byte of an assembled word gives the listed byte, or zero past the list. -/
theorem byteBE_wordOfBytes {n w : Nat} (whole : w = 8 * n) (bs : List Byte) (k : Nat)
    (within : k < n) : byteBE (wordOfBytes bs : BitVec w) k = bs.getD k 0#8 := by
  -- The head fills the top byte, and each later byte moves one place back.
  induction bs generalizing k with
  | nil => simp [wordOfBytes]
  | cons b bs ih =>
    have tail := byteBE_ushiftRight whole (wordOfBytes bs : BitVec w) 1 k within
    rw [Nat.mul_one] at tail
    rw [wordOfBytes, byteBE_or, tail]
    have head : byteBE (b.setWidth w <<< (w - 8)) k = if k = 0 then b else 0#8 := by
      have moved := byteBE_shiftLeft whole (b.setWidth w) (n - 1) k within
      have amount : 8 * (n - 1) = w - 8 := by omega
      rw [amount] at moved
      rw [moved]
      rcases Nat.eq_zero_or_pos k with first | later
      · have reached : k + (n - 1) < n := by omega
        rw [if_pos reached, if_pos first, first]
        apply BitVec.eq_of_getLsbD_eq
        intro j small
        have position : w - 8 * (n - 1 + 1) + j = j := by omega
        have range : j < w := by omega
        simp [getElem_byteBE, position, small, range]
      · have missed : ¬ k + (n - 1) < n := by omega
        rw [if_neg missed, if_neg (by omega)]
    rw [head]
    cases k with
    | zero => simp
    | succ k => simp [ih k (by omega)]

end MarketData
