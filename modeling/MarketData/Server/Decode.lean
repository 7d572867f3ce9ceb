import MarketData.Server.Printing

/-! The decoder of a capture reads back what was printed, the short rows apart. -/

namespace MarketData.Server

open Pattern

/-- `(DEBUG|MDEBUG|CMD)`. -/
def tagPattern : Pattern :=
  group (oneOf ["DEBUG".toList, "MDEBUG".toList, "CMD".toList])

/-- `\[(DEBUG|MDEBUG|CMD)\] frame (\d+) \((\d+) bytes\)`, its digits the ASCII ones only. -/
def headerPattern : Pattern :=
  seq (lit "[".toList) (seq tagPattern (seq (lit "] frame ".toList) (seq (group (plus Char.isDigit))
    (seq (lit " (".toList) (seq (group (plus Char.isDigit)) (lit " bytes)".toList))))))

/-- `\s+([0-9a-f]{4}): ([0-9a-f]{16})`, its blanks the ASCII ones only. -/
def rowPattern : Pattern :=
  seq (plus isBlank) (seq (group (exactly 4 isHexDigit)) (seq (lit ": ".toList)
    (group (exactly 16 isHexDigit))))

/-- A decoded frame: its tag and its words. -/
abbrev Decoded := List Char × List Nat

/-- One turn of the loop of `parse`; `cur` is the last of the frames, and `fromhex` may raise. -/
def parseLine (frames : List Decoded) (line : List Char) : Option (List Decoded) :=
  match headerPattern.match_ line with
  | some (some tag :: _) => some (frames ++ [(tag, [])])
  | _ =>
    match rowPattern.match_ line, frames.getLast? with
    | some [_, some row], some cur => do
      let bytes ← fromHex row
      return frames.dropLast ++ [(cur.1, cur.2 ++ [intFromBytesLittle bytes])]
    | _, _ => some frames

/-- `parse`. -/
def parse (lines : List (List Char)) : Option (List Decoded) :=
  lines.foldlM parseLine []

/-- A tag is found and kept. -/
theorem leads_tag (tag : Tag) (r : List Char) :
    tagPattern.Leads (tag.text.toList ++ r) [some tag.text.toList] r := by
  -- The words in front of the tag differ from it in the first character.
  have word : (oneOf ["DEBUG".toList, "MDEBUG".toList, "CMD".toList]).Leads
      (tag.text.toList ++ r) [] r := by
    cases tag <;> simp [Pattern.Leads, oneOf, lit, Tag.text]
  exact word.group

/-- A number is found and kept up to a character that is no digit. -/
theorem leads_number (n : Nat) {c : Char} (r : List Char) (ends : c.isDigit = false) :
    (group (plus Char.isDigit)).Leads (decimal n ++ c :: r) [some (decimal n)] (c :: r) := by
  refine (leads_plus (decimal_ne_nil n) (fun _ member => isDigit_of_mem_decimal member) ?_).group
  intro d first
  obtain rfl := Option.some.inj first
  exact ends

/-- The header of a dump is matched with its tag. -/
theorem match_header {d : FrameDump} (tag : Tag) (text : d.tag = tag.text) :
    headerPattern.match_ d.header =
      some [some tag.text.toList, some (decimal d.frame.toNat), some (decimal d.len)] := by
  -- Piece by piece, each behind the one before.
  unfold FrameDump.header
  rw [text]
  simp only [List.append_assoc]
  exact Leads.match_eq (Leads.seq (leads_lit _ _) (Leads.seq (leads_tag tag _)
    (Leads.seq (leads_lit _ _) (Leads.seq (leads_number _ _ rfl) (Leads.seq (leads_lit _ _)
      (Leads.seq (leads_number _ _ rfl) (leads_lit _ _)))))))

/-- A hexadecimal digit is no blank. -/
theorem isBlank_of_isHexDigit {c : Char} (digit : isHexDigit c = true) : isBlank c = false := by
  -- None of the six blanks is a digit.
  by_contra blank
  rw [Bool.not_eq_false] at blank
  simp only [isBlank, Bool.or_eq_true, decide_eq_true_eq] at blank
  rcases blank with ((((rfl | rfl) | rfl) | rfl) | rfl) | rfl
  all_goals exact absurd digit (by decide)

/-- The digits of an offset are four, and no blank. -/
theorem offset_digits {off : Nat} (small : off < 16 ^ 4) (r : List Char) :
    (hexPad 4 off).length = 4 ∧ (∀ c ∈ hexPad 4 off, isHexDigit c = true) ∧
      ∀ c ∈ (hexPad 4 off ++ r).head?, isBlank c = false := by
  -- A digit is no blank.
  have length := length_hexPad (by decide) small
  refine ⟨length, fun c member => (isHexDigit_of_mem_hexPad member).1, fun c first => ?_⟩
  have some : hexPad 4 off ≠ [] := by
    intro none
    rw [none] at length
    exact absurd length (by decide)
  rw [List.head?_append_of_ne_nil _ some] at first
  exact isBlank_of_isHexDigit (isHexDigit_of_mem_hexPad (List.mem_of_mem_head? first)).1

/-- A full row is matched with its digits. -/
theorem match_row {off : Nat} (small : off < 16 ^ 4) {digits : List Char}
    (length : digits.length = 16) (hex : ∀ c ∈ digits, isHexDigit c = true) :
    rowPattern.match_ (rowLine (off, digits)) = some [some (hexPad 4 off), some digits] := by
  -- Piece by piece, each behind the one before.
  obtain ⟨four, all, ends⟩ := offset_digits small (": ".toList ++ digits)
  rw [rowLine, rowHead]
  simp only [List.append_assoc]
  have kept : (group (exactly 16 isHexDigit)).Leads (digits ++ []) [some digits] [] :=
    (leads_exactly [] length hex).group
  rw [List.append_nil] at kept
  exact (Leads.seq (leads_plus (by simp) (List.all_eq_true.mp rfl) ends)
    (Leads.seq (leads_exactly _ four all).group (Leads.seq (leads_lit _ _) kept))).match_eq

/-- A short row is not matched. -/
theorem match_short_row {off : Nat} (small : off < 16 ^ 4) {digits : List Char}
    (short : digits.length < 16) : rowPattern.match_ (rowLine (off, digits)) = none := by
  -- Behind the offset too few digits are left, and behind a single blank there is no digit.
  obtain ⟨four, all, ends⟩ := offset_digits small (": ".toList ++ digits)
  rw [rowLine, rowHead]
  simp only [List.append_assoc]
  refine match_eq_none (seq_fails_behind fun way member => ?_)
  rcases plus_ways (List.all_eq_true.mp rfl) ends way member with rest | ⟨c, u, rest, blank⟩
  · rw [rest]
    refine seq_group_fails_behind fun way member => ?_
    rw [exactly_ways _ _ _ way member, List.drop_left' four]
    refine seq_fails_behind fun way member => ?_
    rw [lit_ways _ _ way member, List.drop_left]
    exact group_fails (exactly_short short)
  · rw [rest]
    refine seq_fails (group_fails (exactly_fails (i := 0) rfl (by decide) ?_))
    by_contra digit
    rw [Bool.not_eq_false] at digit
    rw [isBlank_of_isHexDigit digit] at blank
    exact absurd blank (by decide)

/-- What the decoder makes of a row: its word, if it has all eight bytes. -/
def CaptureFrame.rowWord (f : CaptureFrame) (r : Nat) : Option Nat :=
  if 8 ≤ f.len - 8 * r then some (f.words.getD r 0).toNat else none

/-- What the decoder makes of a frame. -/
def CaptureFrame.decoded (f : CaptureFrame) : Decoded :=
  (f.tag.text.toList, (List.range (nwords f.len)).filterMap f.rowWord)

/-- A header starts a frame. -/
theorem parseLine_header (frames : List Decoded) (f : CaptureFrame) :
    parseLine frames f.dump.header = some (frames ++ [(f.tag.text.toList, [])]) := by
  rw [parseLine, match_header f.tag rfl]

/-- A row adds its word to the last frame, and nothing if it is short. -/
theorem parseLine_row (frames : List Decoded) (cur : Decoded) (f : CaptureFrame) {r : Nat}
    (within : r < nwords f.len) :
    parseLine (frames ++ [cur]) (rowLine (f.row r)) =
      some (frames ++ [(cur.1, cur.2 ++ (f.rowWord r).toList)]) := by
  -- The line starts with a blank, so it is no header.
  have small : 8 * r < 16 ^ 4 := by
    have le := f.le
    rw [nwords] at within
    omega
  have noHeader : headerPattern.match_ (rowLine (f.row r)) = none :=
    match_eq_none (seq_fails (lit_fails [] _ (by decide)))
  rw [parseLine, noHeader, CaptureFrame.row, CaptureFrame.rowWord]
  by_cases full : 8 ≤ f.len - 8 * r
  · rw [Nat.min_eq_right full, if_pos full, match_row small (by rw [length_digits, length_bytesLE])
      fun c member => (isHexDigit_of_mem member).1]
    simp [fromHex_digits, intFromBytesLittle_bytesLE]
  · have short : ((bytesLE (min (f.len - 8 * r) 8) (f.words.getD r 0)).flatMap
        byteDigits).length < 16 := by
      rw [length_digits, length_bytesLE]
      omega
    rw [match_short_row small short, if_neg full]
    simp

/-- The rows of a frame add the words of the full ones. -/
theorem parse_rows (frames : List Decoded) (cur : Decoded) (f : CaptureFrame) (rs : List Nat)
    (within : ∀ r ∈ rs, r < nwords f.len) :
    (rs.map fun r => rowLine (f.row r)).foldlM parseLine (frames ++ [cur]) =
      some (frames ++ [(cur.1, cur.2 ++ rs.filterMap f.rowWord)]) := by
  -- Row by row.
  induction rs generalizing cur with
  | nil => simp
  | cons r rs ih =>
    obtain ⟨first, rest⟩ := List.forall_mem_cons.mp within
    rw [List.map_cons, List.foldlM_cons, parseLine_row frames cur f first, Option.bind_eq_bind,
      Option.bind_some, ih _ rest, List.filterMap_cons]
    cases f.rowWord r <;> simp

/-- The lines of a frame add the frame. -/
theorem parse_frame (frames : List Decoded) (f : CaptureFrame) :
    f.dump.lines.foldlM parseLine frames = some (frames ++ [f.decoded]) := by
  rw [FrameDump.lines, List.foldlM_cons, parseLine_header, Option.bind_eq_bind, Option.bind_some,
    f.rows_eq, List.map_map]
  exact parse_rows frames _ f _ fun r member => List.mem_range.mp member

/-- What was printed is decoded frame by frame. -/
theorem parse_printed (fs : List CaptureFrame) :
    parse (splitLines (printed fs)) = some (fs.map CaptureFrame.decoded) := by
  -- Induction on the frames behind those already decoded.
  have loop : ∀ frames : List Decoded, (fs.flatMap fun f => f.dump.lines).foldlM parseLine frames =
      some (frames ++ fs.map CaptureFrame.decoded) := by
    induction fs with
    | nil => intro frames; simp
    | cons f fs ih =>
      intro frames
      rw [List.flatMap_cons, List.foldlM_append, parse_frame, Option.bind_eq_bind, Option.bind_some,
        ih]
      simp
  rw [splitLines_printed, parse, loop, List.nil_append]

/-- A frame as it was captured: every word, the bytes past the length zero. -/
def CaptureFrame.captured (f : CaptureFrame) : Decoded :=
  (f.tag.text.toList, (List.range (nwords f.len)).map fun r =>
    (f.words.getD r 0).toNat % 256 ^ (f.len - 8 * r))

/-- A frame is decoded as it was captured exactly when it ends with a full word. -/
theorem CaptureFrame.decoded_iff (f : CaptureFrame) :
    f.decoded = f.captured ↔ f.len % 8 = 0 := by
  have last := f.pos
  constructor
  · -- A short row is missing, so the words are fewer.
    intro same
    by_contra ragged
    have missing : f.rowWord (nwords f.len - 1) = none := by
      rw [CaptureFrame.rowWord, if_neg]
      rw [nwords]
      omega
    have counts := congrArg (fun frame => frame.2.length) same
    simp only [CaptureFrame.decoded, CaptureFrame.captured, List.length_map,
      List.length_range] at counts
    have all := List.filterMap_length_eq_length.mp (counts.trans List.length_range.symm)
    have found := all (nwords f.len - 1) (List.mem_range.mpr (by rw [nwords]; omega))
    rw [missing] at found
    exact absurd found (by decide)
  -- Every row is a full one, and its digits are those of its word.
  · intro full
    rw [CaptureFrame.decoded, CaptureFrame.captured]
    congr 1
    rw [← List.filterMap_eq_map']
    refine List.filterMap_congr fun r member => ?_
    have within := List.mem_range.mp member
    rw [nwords] at within
    have whole : 8 ≤ f.len - 8 * r := by omega
    have bytes : 2 ^ 64 ≤ 256 ^ (f.len - 8 * r) :=
      (Nat.pow_le_pow_right (by decide) whole : 256 ^ 8 ≤ 256 ^ (f.len - 8 * r))
    have fits : (f.words.getD r 0).toNat < 256 ^ (f.len - 8 * r) :=
      Nat.lt_of_lt_of_le (f.words.getD r 0).isLt bytes
    rw [CaptureFrame.rowWord, if_pos whole, Nat.mod_eq_of_lt fits]

/-- A capture is decoded to what was captured exactly when every frame ends with a full word. -/
theorem parse_printed_iff (fs : List CaptureFrame) :
    parse (splitLines (printed fs)) = some (fs.map CaptureFrame.captured) ↔
      ∀ f ∈ fs, f.len % 8 = 0 := by
  rw [parse_printed, Option.some.injEq, List.map_inj_left]
  exact forall₂_congr fun f _ => f.decoded_iff

/-- A command frame of nine bytes. -/
def nineBytes : CaptureFrame where
  tag := .cmd
  frame := 1
  words := [0x0807060504030201#64, 9#64]
  len := 9
  isPartial := false
  pos := by decide
  le := by decide
  count := rfl

/-- The ninth byte is lost. -/
theorem short_row_lost :
    ¬ ∀ fs : List CaptureFrame,
      parse (splitLines (printed fs)) = some (fs.map CaptureFrame.captured) := by
  intro always
  have decoded := (parse_printed [nineBytes]).symm.trans (always [nineBytes])
  exact absurd decoded (by decide)

end MarketData.Server
