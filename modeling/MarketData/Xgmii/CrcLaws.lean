import MarketData.Lib.ShiftRegister
import MarketData.Xgmii.Includes

/-! The parallel checksum functions are one serial checksum, and the frame check sequence. -/

namespace MarketData.Xgmii

/-- The polynomial of the checksum, without its leading term. -/
def crcPoly : BitVec 32 :=
  0x04C11DB7#32

/-- The bits of a byte in the order in which they are sent. -/
def byteBits (b : Byte) : List Bool :=
  (List.range 8).map b.getLsbD

/-- The serial checksum of some bytes, bit by bit, from a given register. -/
def crcBytes (r : BitVec 32) (bs : List Byte) : BitVec 32 :=
  shiftBits crcPoly r (bs.flatMap byteBits)

/-- The frame check sequence of a frame. -/
def fcs (payload : List Byte) : BitVec 32 :=
  ~~~ crcRev (crcBytes crcPreset payload)

/-- The bytes of two lists enter one list after the other. -/
theorem crcBytes_append (r : BitVec 32) (bs cs : List Byte) :
    crcBytes r (bs ++ cs) = crcBytes (crcBytes r bs) cs := by
  rw [crcBytes, List.flatMap_append, shiftBits_append, crcBytes, crcBytes]

/-- Without bytes the register stays. -/
@[simp] theorem crcBytes_nil (r : BitVec 32) : crcBytes r [] = r := rfl

/-- The parity of a sum is the sum of the parities. -/
theorem parity_xor {w : Nat} (x y : BitVec w) : parity (x ^^^ y) = (parity x ^^ parity y) := by
  -- Bit by bit.
  unfold parity
  induction List.range w with
  | nil => rfl
  | cons i is ih =>
    rw [List.foldr_cons, ih, List.foldr_cons, List.foldr_cons, BitVec.getLsbD_xor]
    cases x.getLsbD i <;> cases y.getLsbD i <;> simp

/-- The parity of a word that is zero everywhere is even. -/
@[simp] theorem parity_zero (w : Nat) : parity 0#w = false := by
  -- Bit by bit.
  unfold parity
  induction List.range w with
  | nil => rfl
  | cons i is ih => rw [List.foldr_cons, ih, BitVec.getLsbD_zero, Bool.xor_false]

/-- A mask selects from a sum what it selects from both parts. -/
theorem xor_and {w : Nat} (x y z : BitVec w) : (x ^^^ y) &&& z = (x &&& z) ^^^ (y &&& z) := by
  -- Bit by bit.
  apply BitVec.eq_of_getLsbD_eq
  intro i _
  simp only [BitVec.getLsbD_and, BitVec.getLsbD_xor]
  cases x.getLsbD i <;> cases y.getLsbD i <;> cases z.getLsbD i <;> rfl

/-- A single bit of a word, read as a parity. -/
theorem parity_twoPow_and {w : Nat} (x : BitVec w) (i : Nat) :
    parity (BitVec.twoPow w i &&& x) = x.getLsbD i := by
  -- The other bits are masked out, and the index occurs at most once.
  have masked : ∀ n, (List.range n).foldr
      (fun j p => (BitVec.twoPow w i &&& x).getLsbD j ^^ p) false =
        (decide (i < n) && x.getLsbD i) := by
    intro n
    induction n with
    | zero => rfl
    | succ n ih =>
      have tail : ∀ (js : List Nat) (b : Bool), js.foldr
          (fun j p => (BitVec.twoPow w i &&& x).getLsbD j ^^ p) b =
            (js.foldr (fun j p => (BitVec.twoPow w i &&& x).getLsbD j ^^ p) false ^^ b) := by
        intro js b
        induction js with
        | nil => simp
        | cons j js ih => rw [List.foldr_cons, ih, List.foldr_cons, Bool.xor_assoc]
      rw [List.range_succ, List.foldr_append, tail, ih, List.foldr_cons, List.foldr_nil,
        Bool.xor_false, BitVec.getLsbD_and, BitVec.getLsbD_twoPow]
      rcases Nat.lt_trichotomy i n with below | rfl | above
      · have other : i ≠ n := by omega
        simp [below, other, show i < n + 1 by omega]
      · rcases Nat.lt_or_ge i w with inside | outside
        · simp [inside]
        · simp [BitVec.getLsbD_of_ge x i outside]
      · have other : i ≠ n := by omega
        simp [other, show ¬ i < n by omega, show ¬ i < n + 1 by omega]
  rw [parity, masked w]
  rcases Nat.lt_or_ge i w with inside | outside
  · simp [inside]
  · simp [BitVec.getLsbD_of_ge x i outside]

/-- The bits that a word is made of. -/
theorem getLsbD_ofBits (n : Nat) (bit : Nat → Bool) {i : Nat} (small : i < n) :
    (ofBits n bit).getLsbD i = bit i := by
  -- The last bit stands on top.
  induction n with
  | zero => omega
  | succ n ih =>
    rw [ofBits, BitVec.getLsbD_cons]
    split
    · rename_i top
      rw [top]
    · exact ih (by omega)

section Symbolic

variable (w : Nat)

/-- The sum of two equations. -/
def Terms.add {w : Nat} (p q : Terms w) : Terms w :=
  ⟨p.c ^^^ q.c, p.d ^^^ q.d⟩

/-- The equation without terms. -/
def Terms.none : Terms w :=
  ⟨0, 0⟩

/-- The register before any data: every bit is its own term. -/
def registerTerms : List (Terms w) :=
  (List.range 32).map fun i => ⟨BitVec.twoPow 32 i, 0⟩

/-- The bits of the data, as terms. -/
def dataTerms : List (Terms w) :=
  (List.range w).map fun j => ⟨0, BitVec.twoPow w j⟩

/-- The equations of the serial checksum after all bits of the data. -/
def serialTerms : List (Terms w) :=
  (dataTerms w).foldl
    (shiftForm Terms.add (Terms.none w) ((List.range 32).map crcPoly.getLsbD)) (registerTerms w)

variable {w}

/-- Equations that are those of the serial checksum compute it. -/
theorem parallel_serial {rows : List (Terms w)} (same : serialTerms w = rows) (c : BitVec 32)
    (d : BitVec w) :
    parallel rows c d = shiftBits crcPoly c ((List.range w).map d.getLsbD) := by
  -- The values of the symbolic register are the bits of the real one, step by step.
  have additive : ∀ p q : Terms w, (p.add q).value c d = (p.value c d ^^ q.value c d) := by
    intro p q
    simp only [Terms.value, Terms.add, xor_and, parity_xor]
    cases parity (p.c &&& c) <;> cases parity (q.c &&& c) <;>
      cases parity (p.d &&& d) <;> cases parity (q.d &&& d) <;> rfl
  have absent : (Terms.none w).value c d = false := by
    simp [Terms.value, Terms.none]
  have start : FormsRead (Terms.value c d) (registerTerms w) c := by
    unfold FormsRead registerTerms
    rw [List.map_map]
    refine List.map_congr_left fun i _ => ?_
    simp [Terms.value, parity_twoPow_and]
  have data : (dataTerms w).map (Terms.value c d) = (List.range w).map d.getLsbD := by
    unfold dataTerms
    rw [List.map_map]
    refine List.map_congr_left fun j _ => ?_
    simp [Terms.value, parity_twoPow_and]
  have reads : FormsRead _ _ (shiftBits crcPoly _ _) := start.run additive absent rfl (dataTerms w)
  rw [← serialTerms, same, data] at reads
  apply BitVec.eq_of_getLsbD_eq
  intro i small
  have row := congrArg (·[i]?) reads
  rw [parallel, getLsbD_ofBits 32 _ small]
  have length : rows.length = 32 := by simpa using congrArg List.length reads
  have inside : i < rows.length := by omega
  rw [List.getD_eq_getElem?_getD, List.getElem?_eq_getElem inside, Option.getD_some]
  simpa [inside, small] using row

end Symbolic

/-- The bits of the bytes of a word are its bits. -/
theorem flatMap_byteBits {w : Nat} (n : Nat) (x : BitVec w) :
    (bytesLE n x).flatMap byteBits = (List.range (8 * n)).map x.getLsbD := by
  -- Byte by byte, the last one behind the others.
  have byte : ∀ k, byteBits (byteLE x k) = (List.range 8).map fun j => x.getLsbD (8 * k + j) := by
    intro k
    refine List.map_congr_left fun j small => ?_
    have within : j < 8 := List.mem_range.mp small
    simp [byteLE, within]
  induction n with
  | zero => rfl
  | succ n ih =>
    rw [bytesLE, List.range_succ, List.map_append, ← bytesLE, List.flatMap_append, ih,
      Nat.mul_succ, List.range_add, List.map_append, List.map_map]
    simp only [List.map_cons, List.map_nil, List.flatMap_cons, List.flatMap_nil, List.append_nil,
      byte]
    rfl

/-- Equations of the serial checksum compute the checksum of the bytes of a word. -/
theorem parallel_bytes {n w : Nat} (whole : w = 8 * n) {rows : List (Terms w)}
    (same : serialTerms w = rows) (c : BitVec 32) (d : BitVec w) :
    parallel rows c d = crcBytes c (bytesLE n d) := by
  subst whole
  rw [parallel_serial same, crcBytes, flatMap_byteBits]

/-- `crc8B` is the serial checksum of eight bytes. -/
theorem crc8B_eq (c : BitVec 32) (d : BitVec 64) : crc8B c d = crcBytes c (bytesLE 8 d) :=
  parallel_bytes (n := 8) rfl (by decide +kernel) c d

/-- `crc7B` is the serial checksum of seven bytes. -/
theorem crc7B_eq (c : BitVec 32) (d : BitVec 56) : crc7B c d = crcBytes c (bytesLE 7 d) :=
  parallel_bytes (n := 7) rfl (by decide +kernel) c d

/-- `crc6B` is the serial checksum of six bytes. -/
theorem crc6B_eq (c : BitVec 32) (d : BitVec 48) : crc6B c d = crcBytes c (bytesLE 6 d) :=
  parallel_bytes (n := 6) rfl (by decide +kernel) c d

/-- `crc5B` is the serial checksum of five bytes. -/
theorem crc5B_eq (c : BitVec 32) (d : BitVec 40) : crc5B c d = crcBytes c (bytesLE 5 d) :=
  parallel_bytes (n := 5) rfl (by decide +kernel) c d

/-- `crc4B` is the serial checksum of four bytes. -/
theorem crc4B_eq (c : BitVec 32) (d : BitVec 32) : crc4B c d = crcBytes c (bytesLE 4 d) :=
  parallel_bytes (n := 4) rfl (by decide +kernel) c d

/-- `crc3B` is the serial checksum of three bytes. -/
theorem crc3B_eq (c : BitVec 32) (d : BitVec 24) : crc3B c d = crcBytes c (bytesLE 3 d) :=
  parallel_bytes (n := 3) rfl (by decide +kernel) c d

/-- `crc2B` is the serial checksum of two bytes. -/
theorem crc2B_eq (c : BitVec 32) (d : BitVec 16) : crc2B c d = crcBytes c (bytesLE 2 d) :=
  parallel_bytes (n := 2) rfl (by decide +kernel) c d

/-- `crc1B` is the serial checksum of one byte. -/
theorem crc1B_eq (c : BitVec 32) (d : BitVec 8) : crc1B c d = crcBytes c (bytesLE 1 d) :=
  parallel_bytes (n := 1) rfl (by decide +kernel) c d

end MarketData.Xgmii
