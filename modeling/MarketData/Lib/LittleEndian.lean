import Mathlib.Data.List.Basic
import Mathlib.Tactic.Common
import MarketData.Lib.WordBytes

/-! Words of whole bytes, read with the first byte in the least significant position. -/

namespace MarketData

/-- Byte `k` of a word, counted from the least significant end. -/
def byteLE {w : Nat} (x : BitVec w) (k : Nat) : Byte :=
  (x >>> (8 * k)).setWidth 8

/-- The first `n` bytes of a word, least significant byte first. -/
def bytesLE {w : Nat} (n : Nat) (x : BitVec w) : List Byte :=
  (List.range n).map (byteLE x)

/-- Byte `i` of a list of words of `n` bytes each. -/
def byteLEAt {w : Nat} (n : Nat) (words : List (BitVec w)) (i : Nat) : Byte :=
  byteLE (words.getD (i / n) 0) (i % n)

/-- So many bytes are read as were asked for. -/
@[simp] theorem length_bytesLE {w : Nat} (n : Nat) (x : BitVec w) : (bytesLE n x).length = n := by
  simp [bytesLE]

/-- A list of words has so many bytes for each of them. -/
theorem length_flatMap_bytesLE {w : Nat} (n : Nat) (words : List (BitVec w)) :
    (words.flatMap (bytesLE n)).length = n * words.length := by
  -- Every word gives the same number of bytes.
  induction words with
  | nil => simp
  | cons x words ih =>
    rw [List.flatMap_cons, List.length_append, ih, length_bytesLE, List.length_cons, Nat.mul_succ]
    omega

/-- Two half words side by side have the bytes of the low one, then the bytes of the high one. -/
theorem bytesLE_join {w : Nat} (m : Nat) (whole : w = 8 * m) (lo hi : BitVec w) :
    bytesLE (m + m) (lo.setWidth (w + w) ||| hi.setWidth (w + w) <<< w) =
      bytesLE m lo ++ bytesLE m hi := by
  -- A byte lies in one of the halves, and so does each of its bits.
  have low : ∀ k, k < m →
      byteLE (lo.setWidth (w + w) ||| hi.setWidth (w + w) <<< w) k = byteLE lo k := by
    intro k within
    apply BitVec.eq_of_getLsbD_eq
    intro j small
    have range : 8 * k + j < w := by omega
    simp [byteLE, small, range, show 8 * k + j < w + w by omega]
  have high : ∀ k, k < m →
      byteLE (lo.setWidth (w + w) ||| hi.setWidth (w + w) <<< w) (m + k) = byteLE hi k := by
    intro k within
    apply BitVec.eq_of_getLsbD_eq
    intro j small
    have position : 8 * (m + k) + j - w = 8 * k + j := by omega
    have beyond : w ≤ 8 * (m + k) + j := by omega
    simp [byteLE, small, position, BitVec.getLsbD_of_ge lo _ beyond,
      show 8 * (m + k) + j < w + w by omega, show ¬ 8 * (m + k) + j < w by omega]
  unfold bytesLE
  rw [List.range_add, List.map_append, List.map_map]
  congr 1
  · exact List.map_congr_left fun k within => low k (List.mem_range.mp within)
  · exact List.map_congr_left fun k within => high k (List.mem_range.mp within)

/-- Reading byte after byte gives the bytes of the words in order. -/
theorem map_byteLEAt {w n : Nat} (whole : 0 < n) (words : List (BitVec w)) :
    (List.range (n * words.length)).map (byteLEAt n words) = words.flatMap (bytesLE n) := by
  -- The bytes of the first word, then those of the others, one word further on.
  induction words with
  | nil => simp
  | cons x words ih =>
    have first : (List.range n).map (byteLEAt n (x :: words)) = bytesLE n x := by
      refine List.map_congr_left fun k within => ?_
      have small : k < n := List.mem_range.mp within
      simp [byteLEAt, Nat.div_eq_of_lt small, Nat.mod_eq_of_lt small]
    have later : ∀ k, byteLEAt n (x :: words) (n + k) = byteLEAt n words k := by
      intro k
      simp [byteLEAt, Nat.add_div_left k whole]
    have others : (List.range (n * words.length)).map (fun k => byteLEAt n (x :: words) (n + k)) =
        words.flatMap (bytesLE n) := by
      rw [← ih]
      exact List.map_congr_left fun k _ => later k
    have count : n * (x :: words).length = n + n * words.length := by
      rw [List.length_cons, Nat.mul_succ, Nat.add_comm]
    rw [count, List.range_add, List.map_append, List.map_map, first, List.flatMap_cons]
    exact congrArg (bytesLE n x ++ ·) others

/-- Reading the first `len` bytes gives a prefix of the bytes of the words. -/
theorem map_byteLEAt_take {w n : Nat} (whole : 0 < n) (words : List (BitVec w)) (len : Nat)
    (fits : len ≤ n * words.length) :
    (List.range len).map (byteLEAt n words) = (words.flatMap (bytesLE n)).take len := by
  -- The first indices are a prefix of all indices.
  rw [← map_byteLEAt whole, ← List.map_take, List.take_range, Nat.min_eq_left fits]

/-- Two words of whole bytes, one on top of the other: the bytes of the low one come first. -/
theorem bytesLE_append {v w : Nat} (n m : Nat) (whole : w = 8 * n) (hi : BitVec v) (lo : BitVec w) :
    bytesLE (n + m) (hi ++ lo) = bytesLE n lo ++ bytesLE m hi := by
  -- A byte lies in one of the words, and so does each of its bits.
  have low : ∀ k, k < n → byteLE (hi ++ lo) k = byteLE lo k := by
    intro k within
    apply BitVec.eq_of_getLsbD_eq
    intro j small
    have range : 8 * k + j < w := by omega
    simp [byteLE, small, BitVec.getLsbD_append, range]
  have high : ∀ k, byteLE (hi ++ lo) (n + k) = byteLE hi k := by
    intro k
    apply BitVec.eq_of_getLsbD_eq
    intro j small
    have beyond : ¬ 8 * (n + k) + j < w := by omega
    have position : 8 * (n + k) + j - w = 8 * k + j := by omega
    simp [byteLE, small, BitVec.getLsbD_append, beyond, position]
  unfold bytesLE
  rw [List.range_add, List.map_append, List.map_map]
  congr 1
  · exact List.map_congr_left fun k within => low k (List.mem_range.mp within)
  · exact List.map_congr_left fun k _ => high k

/-- A run of whole bytes is cut out of a word as it is out of its bytes. -/
theorem bytesLE_extract {w a v : Nat} (n s m : Nat) (start : a = 8 * s) (size : v = 8 * m)
    (inside : s + m ≤ n) (x : BitVec w) :
    bytesLE m (x.extractLsb' a v) = ((bytesLE n x).drop s).take m := by
  -- Byte by byte, and each bit by its position.
  apply List.ext_getElem
  · simp
    omega
  · intro k inLeft inRight
    have within : k < m := by simpa using inLeft
    simp only [bytesLE, List.getElem_map, List.getElem_range, List.getElem_take, List.getElem_drop]
    apply BitVec.eq_of_getLsbD_eq
    intro j small
    have range : 8 * k + j < v := by omega
    have position : a + (8 * k + j) = 8 * (s + k) + j := by omega
    simp [byteLE, small, range, position]

/-- A word of whole bytes is determined by its bytes. -/
theorem bytesLE_inj {n w : Nat} (whole : w = 8 * n) {x y : BitVec w} :
    bytesLE n x = bytesLE n y ↔ x = y := by
  constructor
  · -- Bit `i` lies in byte `i / 8`.
    intro same
    apply BitVec.eq_of_getLsbD_eq
    intro i small
    have byte := congrArg (·[i / 8]?) same
    have inside : i / 8 < n := by omega
    simp only [bytesLE, List.getElem?_map, List.getElem?_range inside, Option.map_some,
      Option.some.injEq] at byte
    have bit := congrArg (·.getLsbD (i % 8)) byte
    have position : 8 * (i / 8) + i % 8 = i := by omega
    simpa [byteLE, Nat.mod_lt i (by decide : 0 < 8), position] using bit
  · rintro rfl
    rfl

end MarketData
