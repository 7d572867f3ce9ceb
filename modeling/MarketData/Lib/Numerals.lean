import Mathlib.Data.Nat.Digits.Lemmas
import MarketData.Lib.Chunks
import MarketData.Lib.LittleEndian

/-! Numbers and bytes as they are printed and read, and texts as lines. -/

namespace MarketData

/-- The decimal digits of a number: `%u` or `%0d`. -/
def decimal (n : Nat) : List Char :=
  Nat.toDigits 10 n

/-- A character of the printable ASCII range. -/
def isPrintable (c : Char) : Bool :=
  0x20 ≤ c.toNat && c.toNat ≤ 0x7E

/-- Digits are printable. -/
theorem isPrintable_of_isDigit {c : Char} (digit : c.isDigit = true) : isPrintable c = true := by
  simp only [Char.isDigit, Bool.and_eq_true, decide_eq_true_eq, UInt32.le_iff_toNat_le] at digit
  have low : 48 ≤ c.toNat := digit.1
  have high : c.toNat ≤ 57 := digit.2
  simp only [isPrintable, Bool.and_eq_true, decide_eq_true_eq]
  omega

/-- A decimal number is written in digits. -/
theorem isDigit_of_mem_decimal {n : Nat} {c : Char} (member : c ∈ decimal n) : c.isDigit = true :=
  Nat.isDigit_of_mem_toDigits (by decide) (by decide) member

/-- A decimal number has a digit. -/
theorem decimal_ne_nil (n : Nat) : decimal n ≠ [] :=
  Nat.toDigits_ne_nil

/-- A number below a power of ten has so many digits at most. -/
theorem length_decimal_le {n k : Nat} (some : 0 < k) (small : n < 10 ^ k) :
    (decimal n).length ≤ k :=
  (Nat.length_toDigits_le_iff (by decide) some).mpr small

/-- The value of a hexadecimal digit of either case. -/
def hexValue (c : Char) : Option Nat :=
  if '0' ≤ c ∧ c ≤ '9' then some (c.toNat - 48)
  else if 'a' ≤ c ∧ c ≤ 'f' then some (c.toNat - 87)
  else if 'A' ≤ c ∧ c ≤ 'F' then some (c.toNat - 55)
  else none

/-- A digit of the class `[0-9a-f]`. -/
def isHexDigit (c : Char) : Bool :=
  (decide ('0' ≤ c) && decide (c ≤ '9')) || (decide ('a' ≤ c) && decide (c ≤ 'f'))

/-- `int(ds, 16)`. -/
def intFromHex (ds : List Char) : Option Nat :=
  (ds.mapM hexValue).map fun vs => Nat.ofDigits 16 vs.reverse

/-- `%0wx`: at least so many hexadecimal digits. -/
def hexPad (w n : Nat) : List Char :=
  (Nat.toDigits 16 n).leftpad w '0'

/-- The two digits of a byte. -/
def byteDigits (b : Byte) : List Char :=
  [(b.toNat / 16).digitChar, (b.toNat % 16).digitChar]

/-- The ASCII blanks, which may stand between the bytes of a hexadecimal text.

They are the ASCII part of the Unicode class of a regular expression's blanks. -/
def isBlank (c : Char) : Bool :=
  c = ' ' || c = '\t' || c = '\n' || c = '\r' || c = '\x0b' || c = '\x0c'

/-- `bytes.fromhex`. -/
def fromHex : List Char → Option (List Byte)
  | [] => some []
  | [c] => if isBlank c then some [] else none
  | c :: d :: t =>
    if isBlank c then fromHex (d :: t)
    else do
      let high ← hexValue c
      let low ← hexValue d
      return BitVec.ofNat 8 (16 * high + low) :: (← fromHex t)

/-- A digit below sixteen reads back as its value, and is not a blank. -/
theorem hexValue_digitChar {n : Nat} (small : n < 16) :
    hexValue n.digitChar = some n ∧ isBlank n.digitChar = false ∧
      isHexDigit n.digitChar = true ∧ isPrintable n.digitChar = true := by
  -- Sixteen digits, each evaluated.
  have all : ∀ m : Fin 16, hexValue m.val.digitChar = some m.val ∧
      isBlank m.val.digitChar = false ∧ isHexDigit m.val.digitChar = true ∧
        isPrintable m.val.digitChar = true := by decide
  exact all ⟨n, small⟩

/-- Both halves of a byte are below sixteen. -/
theorem byte_halves (b : Byte) : b.toNat / 16 < 16 ∧ b.toNat % 16 < 16 := by
  have small := b.isLt
  omega

/-- The digits of bytes read back as these bytes. -/
theorem fromHex_digits (bs : List Byte) : fromHex (bs.flatMap byteDigits) = some bs := by
  -- Two digits at a time.
  induction bs with
  | nil => rfl
  | cons b bs ih =>
    obtain ⟨high, low⟩ := byte_halves b
    have value : 16 * (b.toNat / 16) + b.toNat % 16 = b.toNat := Nat.div_add_mod _ _
    rw [List.flatMap_cons, byteDigits, List.cons_append, List.cons_append, List.nil_append, fromHex]
    simp only [(hexValue_digitChar high).1, (hexValue_digitChar high).2.1,
      (hexValue_digitChar low).1, ih, Bool.false_eq_true, if_false, Option.bind_eq_bind,
      Option.bind_some, Option.pure_def, value, BitVec.ofNat_toNat, BitVec.setWidth_eq]

/-- The digits of bytes are hexadecimal digits. -/
theorem isHexDigit_of_mem {bs : List Byte} {c : Char} (member : c ∈ bs.flatMap byteDigits) :
    isHexDigit c = true ∧ isPrintable c = true := by
  -- A byte has two digits, each of a half of it.
  obtain ⟨b, -, digit⟩ := List.mem_flatMap.mp member
  obtain ⟨high, low⟩ := byte_halves b
  simp only [byteDigits, List.mem_cons, List.not_mem_nil, or_false] at digit
  rcases digit with rfl | rfl
  · exact (hexValue_digitChar high).2.2
  · exact (hexValue_digitChar low).2.2

/-- A byte has two digits. -/
theorem length_digits (bs : List Byte) : (bs.flatMap byteDigits).length = 2 * bs.length := by
  -- Byte by byte.
  induction bs with
  | nil => rfl
  | cons b bs ih =>
    rw [List.flatMap_cons, List.length_append, ih, List.length_cons]
    simp only [byteDigits, List.length_cons, List.length_nil]
    omega

/-- The low bytes of a number, as digits. -/
theorem ofDigits_range (x n : Nat) :
    Nat.ofDigits 256 ((List.range n).map fun k => x / 256 ^ k % 256) = x % 256 ^ n := by
  -- Induction on the number of bytes; the last one is the most significant.
  induction n with
  | zero => simp [Nat.mod_one]
  | succ n ih =>
    rw [List.range_succ, List.map_append, Nat.ofDigits_append, ih, List.map_singleton,
      Nat.ofDigits_singleton, List.length_map, List.length_range, Nat.mod_pow_succ]

/-- The bytes of a word are the word again. -/
theorem intFromBytesLittle_bytesLE {n w : Nat} (whole : w = 8 * n) (x : BitVec w) :
    intFromBytesLittle (bytesLE n x) = x.toNat := by
  -- Each byte is a digit of the number.
  have digits : (bytesLE n x).map BitVec.toNat =
      (List.range n).map fun k => x.toNat / 256 ^ k % 256 := by
    rw [bytesLE, List.map_map]
    refine List.map_congr_left fun k _ => ?_
    rw [Function.comp_apply, byteLE, BitVec.toNat_setWidth, BitVec.toNat_ushiftRight,
      Nat.shiftRight_eq_div_pow, Nat.pow_mul]
  have small : x.toNat < 256 ^ n := by
    subst whole
    have bound := x.isLt
    rwa [Nat.pow_mul] at bound
  rw [intFromBytesLittle, digits, ofDigits_range, Nat.mod_eq_of_lt small]

/-- The hexadecimal digits of a number read back as its value. -/
theorem mapM_hexValue_toDigits (n : Nat) :
    ∃ vs, (Nat.toDigits 16 n).mapM hexValue = some vs ∧ Nat.ofDigits 16 vs.reverse = n := by
  -- Induction on the number; the last digit is the least significant.
  induction n using Nat.strong_induction_on with
  | _ n ih =>
    rw [Nat.toDigits_eq_if (by decide)]
    by_cases single : n < 16
    · rw [if_pos single]
      exact ⟨[n], by simp [(hexValue_digitChar single).1], by simp⟩
    · obtain ⟨vs, read, value⟩ := ih (n / 16) (by omega)
      rw [if_neg single]
      refine ⟨vs ++ [n % 16], ?_, ?_⟩
      · simp [List.mapM_append, read, (hexValue_digitChar (Nat.mod_lt n (by decide))).1]
      · rw [List.reverse_append, List.reverse_singleton, List.singleton_append, Nat.ofDigits_cons,
          value]
        omega

/-- A padded number reads back as its value. -/
theorem intFromHex_hexPad (w n : Nat) : intFromHex (hexPad w n) = some n := by
  -- The zeros in front count nothing.
  obtain ⟨vs, read, value⟩ := mapM_hexValue_toDigits n
  have zeros : ∀ k, (List.replicate k '0').mapM hexValue = some (List.replicate k 0) := by
    intro k
    induction k with
    | zero => rfl
    | succ k ih => rw [List.replicate_succ, List.mapM_cons, ih]; rfl
  rw [intFromHex, hexPad, List.leftpad, List.mapM_append, zeros, read]
  simp [Nat.ofDigits_append, value]

/-- A padded number is written in digits. -/
theorem isHexDigit_of_mem_hexPad {w n : Nat} {c : Char} (member : c ∈ hexPad w n) :
    isHexDigit c = true ∧ isPrintable c = true := by
  have digits : ∀ m, ∀ c ∈ Nat.toDigits 16 m, isHexDigit c = true ∧ isPrintable c = true := by
    -- Induction on the number, digit by digit from the end.
    intro m
    induction m using Nat.strong_induction_on with
    | _ m ih =>
      intro c member
      rw [Nat.toDigits_eq_if (by decide)] at member
      by_cases single : m < 16
      · rw [if_pos single, List.mem_singleton] at member
        exact member ▸ (hexValue_digitChar single).2.2
      · rw [if_neg single, List.mem_append, List.mem_singleton] at member
        rcases member with member | rfl
        · exact ih (m / 16) (by omega) c member
        · exact (hexValue_digitChar (Nat.mod_lt m (by decide))).2.2
  rw [hexPad, List.leftpad, List.mem_append] at member
  rcases member with member | member
  · rw [(List.mem_replicate.mp member).2]
    decide
  · exact digits n c member

/-- A number that fits is padded to the width. -/
theorem length_hexPad {w n : Nat} (some : 0 < w) (small : n < 16 ^ w) : (hexPad w n).length = w := by
  have fits := (Nat.length_toDigits_le_iff (by decide) some).mpr small
  rw [hexPad, List.leftpad, List.length_append, List.length_replicate]
  omega

/-- `snprintf` into a buffer of so many bytes, the last one for the end of the string. -/
def snprintf (size : Nat) (text : List Char) : List Char :=
  text.take (size - 1)

/-- A text that fits is printed whole. -/
theorem snprintf_eq {size : Nat} {text : List Char} (fits : text.length < size) :
    snprintf size text = text :=
  List.take_of_length_le (by omega)

/-- A character at which a line ends. -/
def isLineBreak (c : Char) : Bool :=
  c = '\n' || c = '\r' || c = '\x0b' || c = '\x0c' || c = '\x1c' || c = '\x1d' || c = '\x1e' ||
    c = '\u0085' || c = '\u2028' || c = '\u2029'

/-- The lines of a text, which may follow a carriage return: then a line feed ends no other line. -/
def splitLinesFrom (cr : Bool) : List Char → List (List Char)
  | [] => []
  | c :: t =>
    if cr ∧ c = '\n' then splitLinesFrom false t
    else if isLineBreak c then [] :: splitLinesFrom (c = '\r') t
    else
      match splitLinesFrom false t with
      | [] => [[c]]
      | line :: lines => (c :: line) :: lines

/-- `splitlines`. -/
def splitLines (t : List Char) : List (List Char) :=
  splitLinesFrom false t

/-- Lines, each with its end. -/
def joinLines (lines : List (List Char)) : List Char :=
  lines.flatMap fun line => line ++ ['\n']

/-- No line ends at a printable character. -/
theorem isLineBreak_of_isPrintable {c : Char} (printable : isPrintable c = true) :
    isLineBreak c = false := by
  -- None of the ten line ends is printable.
  by_contra ends
  rw [Bool.not_eq_false] at ends
  simp only [isLineBreak, Bool.or_eq_true, decide_eq_true_eq] at ends
  rcases ends with ((((((((rfl | rfl) | rfl) | rfl) | rfl) | rfl) | rfl) | rfl) | rfl) | rfl
  all_goals exact absurd printable (by decide)

/-- The line in front of a line feed comes first. -/
theorem splitLines_line {line : List Char} (printable : ∀ c ∈ line, isPrintable c = true)
    (rest : List Char) : splitLines (line ++ '\n' :: rest) = line :: splitLines rest := by
  -- Induction on the line, no character of which ends it.
  induction line with
  | nil =>
    have ends : isLineBreak '\n' = true := rfl
    rw [List.nil_append, splitLines, splitLinesFrom, if_neg (by simp), if_pos ends]
    rfl
  | cons c line ih =>
    obtain ⟨first, others⟩ := List.forall_mem_cons.mp printable
    have rest := ih others
    rw [splitLines] at rest
    rw [List.cons_append, splitLines, splitLinesFrom, if_neg (by simp),
      isLineBreak_of_isPrintable first, rest]
    rfl

/-- Lines without a line end read back. -/
theorem splitLines_joinLines {lines : List (List Char)}
    (printable : ∀ line ∈ lines, ∀ c ∈ line, isPrintable c = true) :
    splitLines (joinLines lines) = lines := by
  -- Line by line.
  induction lines with
  | nil => rfl
  | cons line lines ih =>
    obtain ⟨first, rest⟩ := List.forall_mem_cons.mp printable
    rw [joinLines, List.flatMap_cons, List.append_assoc, List.singleton_append,
      splitLines_line first]
    exact congrArg (line :: ·) (ih rest)

end MarketData
