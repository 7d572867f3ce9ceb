import MarketData.Lib.Pattern
import MarketData.Server.Poller

/-! The text of a frame dump, and its lines. -/

namespace MarketData.Server

/-- The tags of the three capture streams. -/
inductive Tag where
  | debug
  | mdebug
  | cmd
  deriving DecidableEq

/-- A tag as it is printed. -/
def Tag.text : Tag → String
  | .debug => "DEBUG"
  | .mdebug => "MDEBUG"
  | .cmd => "CMD"

/-- `"[%s] frame %u (%u bytes)%s:"`. -/
def FrameDump.header (d : FrameDump) : List Char :=
  "[".toList ++ d.tag.toList ++ "] frame ".toList ++ decimal d.frame.toNat ++ " (".toList ++
    decimal d.len ++ " bytes)".toList ++ (if d.isPartial then " (partial)".toList else []) ++
    ":".toList

/-- `"  %04x: "`. -/
def rowHead (off : Nat) : List Char :=
  "  ".toList ++ hexPad 4 off ++ ": ".toList

/-- The text that `print_frame` writes out; every piece but the bytes passes a buffer of 64. -/
def FrameDump.text (d : FrameDump) : List Char :=
  snprintf 64 (d.header ++ ['\n']) ++
    d.rows.flatMap fun row => snprintf 64 (rowHead row.1) ++ row.2 ++ ['\n']

/-- The line of a row. -/
def rowLine (row : Nat × List Char) : List Char :=
  rowHead row.1 ++ row.2

/-- The lines of a dump. -/
def FrameDump.lines (d : FrameDump) : List (List Char) :=
  d.header :: d.rows.map rowLine

/-- A captured frame with what the pollers guarantee of its length. -/
structure CaptureFrame where
  tag : Tag
  frame : BitVec 32
  words : List (BitVec 64)
  len : Nat
  isPartial : Bool
  /-- The frame has a byte. -/
  pos : 1 ≤ len
  /-- The frame fits into the FIFO. -/
  le : len ≤ 4096
  /-- The words hold the bytes. -/
  count : words.length = nwords len

/-- What `print_frame` makes of a frame. -/
def CaptureFrame.dump (f : CaptureFrame) : FrameDump :=
  printFrame f.tag.text f.frame f.words f.len f.isPartial

/-- Frames printed one after another. -/
def printed (fs : List CaptureFrame) : List Char :=
  fs.flatMap fun f => f.dump.text

/-- The digits of the bytes of a row. -/
theorem rowDigits_eq (w : BitVec 64) (n : Nat) :
    ((List.range n).flatMap fun i => hexByte (byteLE w i)) = (bytesLE n w).flatMap byteDigits := by
  simp only [hexByte_eq, bytesLE, List.flatMap_map]

/-- The digits of a dump are those of bytes. -/
theorem row_digits {f : CaptureFrame} {row : Nat × List Char} (member : row ∈ f.dump.rows) :
    ∃ bs : List Byte, row.2 = bs.flatMap byteDigits := by
  obtain ⟨r, -, rfl⟩ := List.mem_map.mp member
  exact ⟨_, rowDigits_eq _ _⟩

/-- The row of a frame with a number. -/
def CaptureFrame.row (f : CaptureFrame) (r : Nat) : Nat × List Char :=
  (8 * r, (bytesLE (min (f.len - 8 * r) 8) (f.words.getD r 0)).flatMap byteDigits)

/-- The rows of a dump are numbered from zero. -/
theorem CaptureFrame.rows_eq (f : CaptureFrame) :
    f.dump.rows = (List.range (nwords f.len)).map f.row := by
  rw [CaptureFrame.dump, printFrame]
  exact List.map_congr_left fun r _ => congrArg (8 * r, ·) (rowDigits_eq _ _)

/-- A tag has at most six printable characters. -/
theorem tag_text (tag : Tag) :
    tag.text.toList.length ≤ 6 ∧ ∀ c ∈ tag.text.toList, isPrintable c = true := by
  cases tag <;> exact ⟨Nat.le_of_ble_eq_true rfl, List.all_eq_true.mp rfl⟩

/-- The header fits into its buffer. -/
theorem FrameDump.header_fits {d : FrameDump} (tag : d.tag.toList.length ≤ 6)
    (small : d.len ≤ 4096) : (d.header ++ ['\n']).length < 64 := by
  -- Six characters of the tag, ten digits of the number and four of the length.
  have number : (decimal d.frame.toNat).length ≤ 10 :=
    length_decimal_le (by decide) (Nat.lt_trans d.frame.isLt (by decide))
  have bytes : (decimal d.len).length ≤ 4 :=
    length_decimal_le (by decide) (Nat.lt_of_le_of_lt small (by decide))
  have mark : (if d.isPartial then " (partial)".toList else []).length ≤ 10 := by
    split <;> decide
  have fixed : "[".toList.length + "] frame ".toList.length + " (".toList.length +
      " bytes)".toList.length + ":".toList.length = 19 := rfl
  unfold FrameDump.header
  simp only [List.length_append, List.length_singleton]
  omega

/-- The header is printable if the tag is. -/
theorem FrameDump.header_printable {d : FrameDump}
    (tag : ∀ c ∈ d.tag.toList, isPrintable c = true) : ∀ c ∈ d.header, isPrintable c = true := by
  -- Piece by piece.
  have number : ∀ n, ∀ c ∈ decimal n, isPrintable c = true := fun n c member =>
    isPrintable_of_isDigit (isDigit_of_mem_decimal member)
  have mark : ∀ c ∈ (if d.isPartial then " (partial)".toList else []), isPrintable c = true := by
    split <;> exact List.all_eq_true.mp rfl
  unfold FrameDump.header
  simp only [List.forall_mem_append]
  have literal : ∀ {s : List Char}, s.all isPrintable = true → ∀ c ∈ s, isPrintable c = true :=
    List.all_eq_true.mp
  exact ⟨⟨⟨⟨⟨⟨⟨⟨literal rfl, tag⟩, literal rfl⟩, number _⟩, literal rfl⟩, number _⟩, literal rfl⟩,
    mark⟩, literal rfl⟩

/-- The offset of a row fits into its buffer. -/
theorem rowHead_fits {off : Nat} (small : off < 16 ^ 4) : (rowHead off).length < 64 := by
  have digits := length_hexPad (by decide) small
  simp only [rowHead, List.length_append, digits]
  decide

/-- The dump is printed as its lines. -/
theorem CaptureFrame.text_eq (f : CaptureFrame) : f.dump.text = joinLines f.dump.lines := by
  -- Nothing is cut off by the buffer.
  have offset : ∀ row ∈ f.dump.rows, row.1 < 16 ^ 4 := by
    intro row member
    have le := f.le
    obtain ⟨r, within, rfl⟩ := List.mem_map.mp member
    have bound := List.mem_range.mp within
    omega
  have rows : (f.dump.rows.flatMap fun row => snprintf 64 (rowHead row.1) ++ row.2 ++ ['\n']) =
      f.dump.rows.flatMap fun row => rowLine row ++ ['\n'] := by
    refine List.flatMap_congr fun row member => ?_
    rw [snprintf_eq (rowHead_fits (offset row member)), rowLine]
  have fits := FrameDump.header_fits (d := f.dump) (tag_text f.tag).1 f.le
  rw [FrameDump.text, snprintf_eq fits, rows, FrameDump.lines, joinLines, List.flatMap_cons,
    List.flatMap_map]

/-- Every character of a dump is printable, the line ends apart. -/
theorem CaptureFrame.lines_printable (f : CaptureFrame) :
    ∀ line ∈ f.dump.lines, ∀ c ∈ line, isPrintable c = true := by
  -- The header and the rows are letters, digits and blanks.
  rw [FrameDump.lines, List.forall_mem_cons]
  refine ⟨FrameDump.header_printable (tag_text f.tag).2, fun line member => ?_⟩
  obtain ⟨row, inside, rfl⟩ := List.mem_map.mp member
  obtain ⟨bs, digits⟩ := row_digits inside
  simp only [rowLine, rowHead, List.forall_mem_append, digits]
  exact ⟨⟨⟨List.all_eq_true.mp rfl, fun c member => (isHexDigit_of_mem_hexPad member).2⟩,
    List.all_eq_true.mp rfl⟩, fun c member => (isHexDigit_of_mem member).2⟩

/-- The lines of frames printed one after another. -/
theorem splitLines_printed (fs : List CaptureFrame) :
    splitLines (printed fs) = fs.flatMap fun f => f.dump.lines := by
  -- All lines end with a line feed, and nothing in them is a line end.
  have text : printed fs = joinLines (fs.flatMap fun f => f.dump.lines) := by
    rw [printed, List.flatMap_congr fun f _ => f.text_eq, joinLines, List.flatMap_assoc]
    rfl
  rw [text]
  refine splitLines_joinLines fun line member => ?_
  obtain ⟨f, -, member⟩ := List.mem_flatMap.mp member
  exact f.lines_printable line member

end MarketData.Server
