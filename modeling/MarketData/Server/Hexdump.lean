import Mathlib.Tactic.GCongr
import Mathlib.Tactic.NormNum
import MarketData.Lib.Json
import MarketData.Server.Printing

/-! The dump that a subscriber prints is the dump that a local poll prints. -/

namespace MarketData.Server

/-- A time as `"%.6f"` prints it: whole seconds of a 64-bit clock, and microseconds. -/
structure Stamp where
  secs : BitVec 63
  micros : Fin 1000000

/-- The digits of the microseconds. -/
def Stamp.fraction (ts : Stamp) : List Char :=
  (decimal ts.micros.val).leftpad 6 '0'

/-- The digits of a time. -/
def Stamp.text (ts : Stamp) : List Char :=
  decimal ts.secs.toNat ++ ".".toList ++ ts.fraction

/-- The text of a line up to its data. -/
def FrameLine.head (l : FrameLine (BitVec 32)) (ts : Stamp) : List Char :=
  "\x7b\"fifo\":\"".toList ++ l.fifo.toList ++ "\",\"frame\":".toList ++ decimal l.frame.toNat ++
    ",\"ts\":".toList ++ ts.text ++ ",\"len\":".toList ++ decimal l.len ++
    ",\"partial\":".toList ++ (if l.isPartial then "true".toList else "false".toList) ++
    ",\"data\":\"".toList

/-- The text that `json_frame` builds; the front passes a buffer of 128. -/
def FrameLine.text (l : FrameLine (BitVec 32)) (ts : Stamp) : List Char :=
  snprintf 128 (l.head ts) ++ l.data ++ "\"\x7d\n".toList

/-- What Python makes of values that no line of the server has where they are used. -/
structure PyValues where
  /-- How other values than strings and integers are formatted. -/
  format : Json → List Char
  /-- Which floats are true. -/
  nonzero : List Char → Bool

section Hexdump

variable (py : PyValues)

/-- A value in a formatted string. -/
def pyFormat : Json → List Char
  | .str s => s
  | .int n => if n < 0 then '-' :: decimal n.natAbs else decimal n.natAbs
  | v => py.format v

/-- Whether a value is true. -/
def pyTrue : Json → Bool
  | .null => false
  | .bool b => b
  | .int n => n ≠ 0
  | .float text => py.nonzero text
  | .str s => s ≠ []
  | .arr items => !items.isEmpty
  | .obj members => !members.isEmpty

/-- `hexdump`: nothing when a key is missing or the data are not hexadecimal. -/
def hexdump (msg : Json) : Option (List Char) := do
  let data ← match ← msg.get "data".toList with
    | .str s => fromHex s
    | _ => none
  let isPartial := if ((msg.get "partial".toList).map (pyTrue py)).getD false then
    " (partial)".toList else []
  let fifo ← msg.get "fifo".toList
  let frame ← msg.get "frame".toList
  let len ← msg.get "len".toList
  let out := "[".toList ++ pyFormat py fifo ++ "] frame ".toList ++ pyFormat py frame ++
    " (".toList ++ pyFormat py len ++ " bytes)".toList ++ isPartial ++ ":".toList
  let rows := (List.range ((data.length + 7) / 8)).map fun i =>
    "  ".toList ++ hexPad 4 (8 * i) ++ ": ".toList ++ ((data.drop (8 * i)).take 8).flatMap byteDigits
  return ['\n'].intercalate (out :: rows)

end Hexdump

/-- What `json_frame` makes of a frame. -/
def CaptureFrame.line (f : CaptureFrame) : FrameLine (BitVec 32) :=
  jsonFrame f.tag.text f.frame f.words f.len f.isPartial

/-- The bytes of a frame. -/
def CaptureFrame.bytes (f : CaptureFrame) : List Byte :=
  (List.range f.len).map (byteLEAt 8 f.words)

/-- The message that a line stands for. -/
def CaptureFrame.message (f : CaptureFrame) (ts : Stamp) : Json :=
  .obj [("fifo".toList, .str f.tag.text.toList), ("frame".toList, .int f.frame.toNat),
    ("ts".toList, .float ts.text), ("len".toList, .int f.len), ("partial".toList, .bool f.isPartial),
    ("data".toList, .str (f.bytes.flatMap byteDigits))]

/-- The microseconds are six digits. -/
theorem Stamp.fraction_digits (ts : Stamp) :
    ts.fraction.length = 6 ∧ ∀ c ∈ ts.fraction, c.isDigit = true := by
  -- The number has six digits at most, and zeros are put in front.
  have small : ts.micros.val < 10 ^ 6 := by
    have bound := ts.micros.isLt
    omega
  have fits := length_decimal_le (by decide) small
  constructor
  · rw [Stamp.fraction, List.leftpad, List.length_append, List.length_replicate]
    omega
  · intro c member
    rw [Stamp.fraction, List.leftpad, List.mem_append] at member
    rcases member with member | member
    · rw [(List.mem_replicate.mp member).2]
      rfl
    · exact isDigit_of_mem_decimal member

/-- The pieces of the front that do not change have 53 characters. -/
theorem length_head (fifo frame secs micros len isPartial : List Char) :
    ("\x7b\"fifo\":\"".toList ++ fifo ++ "\",\"frame\":".toList ++ frame ++ ",\"ts\":".toList ++
        (secs ++ ".".toList ++ micros) ++ ",\"len\":".toList ++ len ++ ",\"partial\":".toList ++
        isPartial ++ ",\"data\":\"".toList).length =
      53 + fifo.length + frame.length + secs.length + micros.length + len.length +
        isPartial.length := by
  simp
  omega

/-- The front of a line fits into its buffer. -/
theorem FrameLine.head_fits {l : FrameLine (BitVec 32)} (ts : Stamp)
    (tag : l.fifo.toList.length ≤ 6) (small : l.len ≤ 4096) : (l.head ts).length < 128 := by
  -- Six characters of the tag, ten digits of the number, 26 of the time and four of the length.
  have number : (decimal l.frame.toNat).length ≤ 10 :=
    length_decimal_le (by decide) (Nat.lt_trans l.frame.isLt (by decide))
  have seconds : (decimal ts.secs.toNat).length ≤ 19 :=
    length_decimal_le (by decide) (Nat.lt_trans ts.secs.isLt (by norm_num))
  have fraction := ts.fraction_digits.1
  have bytes : (decimal l.len).length ≤ 4 :=
    length_decimal_le (by decide) (Nat.lt_of_le_of_lt small (by decide))
  have mark : (if l.isPartial then "true".toList else "false".toList).length ≤ 5 := by
    split <;> decide
  unfold FrameLine.head
  rw [Stamp.text, length_head, fraction]
  calc 53 + l.fifo.toList.length + (decimal l.frame.toNat).length +
        (decimal ts.secs.toNat).length + 6 + (decimal l.len).length +
        (if l.isPartial then "true".toList else "false".toList).length
      ≤ 53 + 6 + 10 + 19 + 6 + 4 + 5 := by gcongr
    _ < 128 := by decide

/-- The data of a line are the digits of the bytes. -/
theorem CaptureFrame.data_eq (f : CaptureFrame) : f.line.data = f.bytes.flatMap byteDigits := by
  simp only [CaptureFrame.line, jsonFrame, CaptureFrame.bytes, hexByte_eq, List.flatMap_map]

/-- Tags and digits stand for themselves in a string. -/
theorem isPlain_text (f : CaptureFrame) : (∀ c ∈ f.tag.text.toList, Json.isPlain c = true) ∧
    ∀ c ∈ f.bytes.flatMap byteDigits, Json.isPlain c = true := by
  -- Neither a quotation mark nor a backslash is among them.
  constructor
  · cases f.tag <;> exact List.all_eq_true.mp rfl
  · intro c member
    obtain ⟨hex, printable⟩ := isHexDigit_of_mem member
    have other : ∀ d : Char, isHexDigit d = false → c ≠ d := by
      rintro d not rfl
      exact absurd (hex.symm.trans not) (by decide)
    simp [Json.isPlain, printable, other '"' (by decide), other '\\' (by decide)]

/-- A number does not start with white space. -/
theorem skipWs_decimal (n : Nat) (t : List Char) :
    Json.skipWs (decimal n ++ t) = decimal n ++ t := by
  -- Its first digit is no blank.
  obtain ⟨d, ds, digits⟩ := List.exists_cons_of_ne_nil (decimal_ne_nil n)
  have digit : d.isDigit = true := isDigit_of_mem_decimal (n := n) (by rw [digits]; simp)
  have notWs : Json.isWs d = false := by
    by_contra blank
    rw [Bool.not_eq_false] at blank
    simp only [Json.isWs, Bool.or_eq_true, decide_eq_true_eq] at blank
    rcases blank with ((rfl | rfl) | rfl) | rfl
    all_goals exact absurd digit (by decide)
  rw [digits, List.cons_append, Json.skipWs_cons notWs]

/-- The text of a line as that of an object and its members. -/
theorem line_members (fifo frame ts len isPartial data : List Char) :
    "\x7b\"fifo\":\"".toList ++ fifo ++ "\",\"frame\":".toList ++ frame ++ ",\"ts\":".toList ++ ts ++
        ",\"len\":".toList ++ len ++ ",\"partial\":".toList ++ isPartial ++ ",\"data\":\"".toList ++
        data ++ "\"\x7d\n".toList =
      '\x7b' :: Json.member "fifo".toList ('"' :: (fifo ++ '"' :: ',' ::
        Json.member "frame".toList (frame ++ ',' :: Json.member "ts".toList (ts ++ ',' ::
          Json.member "len".toList (len ++ ',' :: Json.member "partial".toList (isPartial ++ ',' ::
            Json.member "data".toList ('"' :: (data ++ '"' :: ['\x7d', '\n'])))))))) := by
  simp [Json.member]

/-- The members of a line are read one after another. -/
theorem loads_members {fifo fraction data : List Char} (frame secs len : Nat) (isPartial : Bool)
    (fifoPlain : ∀ c ∈ fifo, Json.isPlain c = true) (dataPlain : ∀ c ∈ data, Json.isPlain c = true)
    (some : fraction ≠ []) (digits : ∀ c ∈ fraction, c.isDigit = true) :
    Json.loads ("\x7b\"fifo\":\"".toList ++ fifo ++ "\",\"frame\":".toList ++ decimal frame ++
        ",\"ts\":".toList ++ (decimal secs ++ '.' :: fraction) ++ ",\"len\":".toList ++ decimal len ++
        ",\"partial\":".toList ++ (if isPartial then "true".toList else "false".toList) ++
        ",\"data\":\"".toList ++ data ++ "\"\x7d\n".toList) =
      Option.some (.obj [("fifo".toList, .str fifo), ("frame".toList, .int frame),
        ("ts".toList, .float (decimal secs ++ '.' :: fraction)), ("len".toList, .int len),
        ("partial".toList, .bool isPartial), ("data".toList, .str data)]) := by
  rw [line_members]
  refine Json.loads_obj ?_
  -- Every turn takes more than one character, so the fuel is enough for six members.
  have enough : ∀ text, ∃ fuel, (Json.member "fifo".toList text).length + 1 = fuel + 7 := by
    intro text
    refine ⟨text.length + 1, ?_⟩
    simp [Json.member]
  obtain ⟨fuel, enough⟩ := enough _
  rw [enough]
  refine Json.members_next (List.all_eq_true.mp rfl) (Json.skipWs_cons rfl _) (Json.value_str _ fifoPlain _) ?_
  refine Json.members_next (List.all_eq_true.mp rfl) (skipWs_decimal _ _) (Json.value_int _ _ rfl _) ?_
  rw [List.append_assoc, List.cons_append]
  refine Json.members_next (List.all_eq_true.mp rfl) (skipWs_decimal _ _)
    (Json.value_float _ _ some digits rfl _) ?_
  refine Json.members_next (List.all_eq_true.mp rfl) (skipWs_decimal _ _) (Json.value_int _ _ rfl _) ?_
  refine Json.members_next (List.all_eq_true.mp rfl) (by cases isPartial <;> rfl) (Json.value_bool _ _ _) ?_
  exact Json.members_last (List.all_eq_true.mp rfl) (Json.skipWs_cons rfl _) (Json.value_str _ dataPlain _)

/-- A line is read as its message. -/
theorem CaptureFrame.loads_line (f : CaptureFrame) (ts : Stamp) :
    Json.loads (f.line.text ts) = some (f.message ts) := by
  -- The line is not cut, so all members are there, the stamp with a fraction of six digits.
  obtain ⟨tagPlain, dataPlain⟩ := isPlain_text f
  obtain ⟨six, digits⟩ := ts.fraction_digits
  have nonempty : ts.fraction ≠ [] := by
    intro none
    rw [none] at six
    exact absurd six (by decide)
  have stamp : ts.text = decimal ts.secs.toNat ++ '.' :: ts.fraction := by
    simp [Stamp.text]
  have fits := FrameLine.head_fits (l := f.line) ts (tag_text f.tag).1 f.le
  unfold FrameLine.text
  rw [snprintf_eq fits, f.data_eq]
  unfold FrameLine.head
  rw [CaptureFrame.message, stamp]
  exact loads_members _ _ _ _ tagPlain dataPlain nonempty digits

/-- Eight bytes of a frame are those of one word. -/
theorem CaptureFrame.bytes_row (f : CaptureFrame) (r : Nat) :
    (f.bytes.drop (8 * r)).take 8 = bytesLE (min (f.len - 8 * r) 8) (f.words.getD r 0) := by
  -- Byte `i` of the row is byte `8 * r + i` of the frame.
  apply List.ext_getElem
  · simp [CaptureFrame.bytes]
    omega
  · intro i _ within
    have small : i < 8 := by simp at within; omega
    have word : (8 * r + i) / 8 = r := by omega
    have place : (8 * r + i) % 8 = i := by omega
    simp only [CaptureFrame.bytes, List.getElem_take, List.getElem_drop, List.getElem_map,
      List.getElem_range, byteLEAt, word, place, bytesLE]

/-- The message is dumped as the lines of the local dump. -/
theorem CaptureFrame.hexdump_message (f : CaptureFrame) (ts : Stamp) (py : PyValues) :
    hexdump py (f.message ts) = some (['\n'].intercalate f.dump.lines) := by
  -- The rows are those of the words, and the header has the same parts.
  have length : f.bytes.length = f.len := by rw [CaptureFrame.bytes, List.length_map, List.length_range]
  have rows : ((List.range ((f.bytes.length + 7) / 8)).map fun i =>
      "  ".toList ++ hexPad 4 (8 * i) ++ ": ".toList ++
        ((f.bytes.drop (8 * i)).take 8).flatMap byteDigits) = f.dump.rows.map rowLine := by
    rw [length, f.rows_eq, List.map_map]
    refine List.map_congr_left fun r _ => ?_
    rw [f.bytes_row]
    rfl
  have data : (f.message ts).get "data".toList = some (.str (f.bytes.flatMap byteDigits)) := rfl
  have isPartial : (f.message ts).get "partial".toList = some (.bool f.isPartial) := rfl
  have fifo : (f.message ts).get "fifo".toList = some (.str f.tag.text.toList) := rfl
  have frame : (f.message ts).get "frame".toList = some (.int f.frame.toNat) := rfl
  have len : (f.message ts).get "len".toList = some (.int f.len) := rfl
  simp only [hexdump, data, isPartial, fifo, frame, len, fromHex_digits, Option.bind_eq_bind,
    Option.bind_some, rows, Option.map_some, Option.getD_some, pyTrue, Option.pure_def]
  rfl

/-- Lines with their ends are the lines joined, and a last end. -/
theorem joinLines_eq {line : List Char} (lines : List (List Char)) :
    joinLines (line :: lines) = ['\n'].intercalate (line :: lines) ++ ['\n'] := by
  -- Line by line.
  induction lines generalizing line with
  | nil => simp [joinLines, List.intercalate]
  | cons next lines ih =>
    rw [joinLines, List.flatMap_cons, ← joinLines, ih]
    simp [List.intercalate]

/-- The dump of a subscriber is the dump of a local poll without its last line end. -/
theorem hexdump_json_frame (f : CaptureFrame) (ts : Stamp) (py : PyValues) :
    ((Json.loads (f.line.text ts)).bind (hexdump py)).map (· ++ ['\n']) = some f.dump.text := by
  rw [f.loads_line, Option.bind_some, f.hexdump_message, Option.map_some, f.text_eq,
    FrameDump.lines, joinLines_eq]

end MarketData.Server
