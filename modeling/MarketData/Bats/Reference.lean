import Mathlib.Algebra.GroupWithZero.Nat
import MarketData.Bats.Trace

/-! Submodules that behave as the header comments of the parser describe, for concrete runs. -/

namespace MarketData.Bats

/-- Appends by assembling the bytes, extracts by summing them; no concrete run adds an order. -/
def reference : Submodules where
  addDataToBuffer buf len valid data byteEnables :=
    if valid then
      (wordOfBytes (front buf len.toNat ++ wordBytes data (enabledCount byteEnables)),
        len + BitVec.ofNat 7 (enabledCount byteEnables))
    else (buf, len)
  newUxxBe start len buf := BitVec.ofNat 64 (leValue ((front buf (start + len)).drop start))
  addOrder _ := ⟨1, true, 0, 0, 0, 0, 0, 0⟩
  time buf := BitVec.ofNat 32 (leValue ((front buf 6).drop 2))

/-- The front of an assembled buffer is the list it was assembled from. -/
theorem front_wordOfBytes (bs : List Byte) (fits : bs.length ≤ 72) :
    front (wordOfBytes bs) bs.length = bs := by
  -- Byte by byte, the assembled word reads back its list.
  apply List.ext_getElem
  · simp
  · intro k inFront inList
    simp only [front, List.getElem_map, List.getElem_range]
    rw [byteBE_wordOfBytes (n := 72) rfl bs k (by omega), List.getD_eq_getElem?_getD,
      List.getElem?_eq_getElem inList, Option.getD_some]

/-- The reference append meets the contract. -/
theorem reference_appends : Appends reference where
  -- The register is built from the bytes in front and those of the word.
  length buf len data n small fits := by
    unfold bufBytes at fits
    simp only [reference, if_true, enabledCount_topEnables small, BitVec.toNat_add,
      BitVec.toNat_ofNat]
    omega
  bytes buf len data n small fits := by
    unfold bufBytes at fits
    simp only [reference, if_true, enabledCount_topEnables small]
    have count : (front buf len.toNat ++ wordBytes data n).length = len.toNat + n := by
      simp [wordBytes]
    rw [← count]
    exact front_wordOfBytes _ (by omega)
  identity buf len data byteEnables := by simp [reference]

/-- A little-endian value is bounded by its number of bytes. -/
theorem leValue_lt (bs : List Byte) : leValue bs < 256 ^ bs.length := by
  -- Each byte adds one digit in base 256.
  induction bs with
  | nil => simp [leValue]
  | cons b bs ih =>
    have byte := b.isLt
    simp only [leValue, List.length_cons, Nat.pow_succ]
    omega

/-- The reference extraction meets the contract. -/
theorem reference_extracts : ExtractsLittleEndian reference := by
  -- A field of up to eight bytes fits in 64 bits, so nothing is cut off.
  intro start len buf within small
  have count : ((front buf (start + len)).drop start).length = len := by simp
  have bound := leValue_lt ((front buf (start + len)).drop start)
  have top : 256 ^ len ≤ 256 ^ 8 := Nat.pow_le_pow_right (by omega) small
  rw [count] at bound
  simp only [reference, BitVec.toNat_ofNat]
  exact Nat.mod_eq_of_lt (by omega)

/-- A cycle with neither input nor reset. -/
def idle : Inputs :=
  ⟨false, false, 0, 0, false, false, 0, 0⟩

/-- A cycle that delivers the given bytes, at most eight of them. -/
def word (bytes : List Byte) : Inputs :=
  { idle with
    dsDataValid := true
    dsData := wordOfBytes bytes
    dsByteEnables := topEnables bytes.length }

/-- The handshake of one cycle is decided by trying the nine enable patterns. -/
instance (i : Inputs) (r : Regs) : Decidable (Allowed i r) :=
  decidable_of_iff
    (i.dsDataValid = true → readyForUdpInput r = true ∧
      ∃ n ∈ List.range 9, i.dsByteEnables = topEnables n)
    (by simp only [Allowed, List.mem_range, Nat.lt_succ_iff])

/-- The handshake of a run is decided cycle by cycle. -/
instance Respects.decidable (sub : Submodules) :
    (r : Regs) → (is : List Inputs) → Decidable (Respects sub r is)
  | _, [] => .isTrue trivial
  | r, i :: is =>
    have := Respects.decidable sub (step sub i r) is
    inferInstanceAs (Decidable (Allowed i r ∧ Respects sub (step sub i r) is))

/-- Whether a run flushes is decided cycle by cycle. -/
instance NoFlush.decidable (sub : Submodules) :
    (r : Regs) → (is : List Inputs) → Decidable (NoFlush sub r is)
  | _, [] => .isTrue trivial
  | r, i :: is =>
    have := NoFlush.decidable sub (step sub i r) is
    inferInstanceAs (Decidable (flushes sub i r = false ∧ NoFlush sub (step sub i r) is))

/-- Registers in ST_RESET, everything else as power-up happens to leave it. -/
def resetRegs : Regs where
  state := .reset
  buffer := 0
  bufferLength := 0
  hdrLength := 0
  totalCounter := 0
  nextSeqNo := 0
  secondsR := 0
  recvTimeR := 0
  cmdValid := false
  cmd := ⟨0, 0, 0, 0, 0, 0, 0, 0, 0, 0, 0, false, false, false, 0, 0, 0⟩
  dbgValid := false
  dbgData := 0

end MarketData.Bats
