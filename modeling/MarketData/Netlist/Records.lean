import Mathlib.Algebra.GroupWithZero.Nat
import Mathlib.Logic.Function.Basic
import MarketData.Server.Decode

/-! The records that are scored, as read from the text of a simulation or of a board capture. -/

namespace MarketData

open Pattern Server

/-- The streams whose records are scored, `"DEBUG"` and `"CMD"`. -/
inductive Kind where
  | debug
  | cmd
  deriving DecidableEq

/-- The stream with a name, if it is scored. -/
def kindOf (name : List Char) : Option Kind :=
  if name = "DEBUG".toList then some .debug
  else if name = "CMD".toList then some .cmd
  else none

/-- The variables of `records`. -/
structure Scan where
  hdrs : List (Nat × Nat)
  cmds : List (List Nat)
  cur : Kind → List Nat

/-- `to_bytes(size, "big")`, which raises for a number that does not fit. -/
def toBytesBig (size n : Nat) : Option (List Byte) :=
  if n < 256 ^ size then
    some ((List.range size).map fun i => BitVec.ofNat 8 (n / 256 ^ (size - 1 - i)))
  else none

/-- `hdr_rec`: parsed length and sequence number. -/
def hdrRec (w : List Nat) : Option (Nat × Nat) := do
  -- The sequence number is in the upper half of the third word, the length in the first one.
  let b ← toBytesBig 8 (← w[2]?)
  return ((← w[0]?) &&& 0xFFFF, intFromBytesLittle ((b.drop 4).take 4))

/-- A DEBUG record that is scored: four words, and 0xDE in the upper half of the first one. -/
def isHeaderRecord (w : List Nat) : Bool :=
  w.length = 4 && w.headD 0 >>> 32 = 0xDE

/-- The two tests at the end of a record. -/
def Scan.score (s : Scan) (k : Kind) (w : List Nat) : Option Scan :=
  match k with
  -- A header is decoded, which may raise; a record of another shape is passed over.
  | .debug =>
    if isHeaderRecord w then do
      return { s with hdrs := s.hdrs ++ [← hdrRec w] }
    else some s
  -- A command has sixteen words.
  | .cmd => if w.length = 16 then some { s with cmds := s.cmds ++ [w] } else some s

/-- `w = cur[k]; cur[k] = []`, and the tests. -/
def Scan.close (s : Scan) (k : Kind) : Option Scan :=
  { s with cur := Function.update s.cur k [] }.score k (s.cur k)

/-- `cur[k].append(v)`. -/
def Scan.append (s : Scan) (k : Kind) (v : Nat) : Scan :=
  { s with cur := Function.update s.cur k (s.cur k ++ [v]) }

/-- `\[(DEBUG|MDEBUG|CMD)\] frame (\d+)`, its digits the ASCII ones only. -/
def boardHeader : Pattern :=
  seq (lit "[".toList) (seq tagPattern (seq (lit "] frame ".toList) (group (plus Char.isDigit))))

/-- `\s+[0-9a-f]{4}: ([0-9a-f]{16})`, its blanks the ASCII ones only. -/
def boardRow : Pattern :=
  seq (plus isBlank) (seq (exactly 4 isHexDigit) (seq (lit ": ".toList)
    (group (exactly 16 isHexDigit))))

/-- `(\d+) (CMD|DEBUG)\s+w(\d+) 0x([0-9a-f]+)( LAST)?`, its digits and blanks the ASCII ones. -/
def simWord : Pattern :=
  seq (group (plus Char.isDigit)) (seq (lit " ".toList)
    (seq (group (oneOf ["CMD".toList, "DEBUG".toList])) (seq (plus isBlank) (seq (lit "w".toList)
      (seq (group (plus Char.isDigit)) (seq (lit " 0x".toList)
        (seq (group (plus isHexDigit)) (optional (group (lit " LAST".toList))))))))))

/-- One turn over a board capture; the stream of the current frame, if it is scored, is kept. -/
def boardLine (state : Option Kind × Scan) (l : List Char) : Option (Option Kind × Scan) :=
  let (kind, s) := state
  match boardHeader.match_ l with
  | some (some name :: _) => do
    -- The header closes the record before it.
    let s ← match kind with
      | some k => if s.cur k = [] then some s else s.close k
      | none => some s
    return (kindOf name, s)
  | _ =>
    -- A row is kept only inside a frame of a scored stream.
    match boardRow.match_ l, kind with
    | some [some row], some k => do
      let bytes ← fromHex row
      return (kind, s.append k (intFromBytesLittle bytes))
    | _, _ => some (kind, s)

/-- One turn over the output of a simulation. -/
def simLine (s : Scan) (l : List Char) : Option Scan :=
  match simWord.match_ l with
  | some [_, some name, _, some word, last] => do
    let k ← kindOf name
    -- The digits are a number of any size; the mark closes the record.
    let s := s.append k (← intFromHex word)
    if last.isSome then s.close k else some s
  | _ => some s

/-- Nothing read yet. -/
def Scan.start : Scan :=
  { hdrs := [], cmds := [], cur := fun _ => [] }

/-- A line that a board capture is known by. -/
def isBoardLine (l : List Char) : Bool :=
  "[CMD] frame".toList.isPrefixOf l || "[DEBUG] frame".toList.isPrefixOf l

/-- The loop over a board capture and the two records that are open at its end. -/
def boardRecords (text : List (List Char)) : Option Scan := do
  -- Nothing closes the last record of a capture but its end.
  let (_, s) ← text.foldlM boardLine (none, .start)
  let s ← s.score .debug (s.cur .debug)
  s.score .cmd (s.cur .cmd)

/-- `records`, on the text of the file: the headers and the commands. -/
def records (text : List Char) : Option (List (Nat × Nat) × List (List Nat)) := do
  let lines := splitLines text
  let s ← if lines.any isBoardLine then boardRecords lines else lines.foldlM simLine .start
  return (s.hdrs, s.cmds)

/-- A word that one of the monitors of the testbench prints. -/
structure WordLine where
  tag : Tag
  /-- The cycle counter. -/
  cyc : Nat
  /-- The number of the word in its record. -/
  n : Nat
  tdata : BitVec 64
  tlast : Bool

/-- `"%0d DEBUG  w%0d 0x%016h%s"` and the formats of the other two monitors. -/
def WordLine.text (l : WordLine) : List Char :=
  decimal l.cyc ++ (match l.tag with
    | .debug => " DEBUG  w".toList
    | .cmd => " CMD    w".toList
    | .mdebug => " MDEBUG w".toList) ++
    decimal l.n ++ " 0x".toList ++ hexPad 16 l.tdata.toNat ++
    (if l.tlast then " LAST".toList else [])

/-- A line of the output of a simulation: a word, or a remark of the stimulus. -/
inductive SimLine where
  | word (l : WordLine)
  /-- `"# ..."`, which is printable. -/
  | remark (rest : List Char) (printable : ∀ c ∈ rest, isPrintable c = true)

/-- The line as it is printed. -/
def SimLine.text : SimLine → List Char
  | .word l => l.text
  | .remark rest _ => "# ".toList ++ rest

/-- The word of a line, if it is not a remark. -/
def SimLine.word? : SimLine → Option WordLine
  | .word l => some l
  | .remark _ _ => none

/-- The text that a simulation prints. -/
def simText (ls : List SimLine) : List Char :=
  joinLines (ls.map SimLine.text)

/-- The stream of a tag, if it is scored. -/
def kindOfTag : Tag → Option Kind
  | .debug => some .debug
  | .mdebug => none
  | .cmd => some .cmd

/-- The name of a tag leads to its stream. -/
theorem kindOf_text (tag : Tag) : kindOf tag.text.toList = kindOfTag tag := by
  cases tag <;> rfl

/-- The header of a dump is matched with its tag. -/
theorem match_boardHeader {d : FrameDump} (tag : Tag) (text : d.tag = tag.text) :
    boardHeader.match_ d.header = some [some tag.text.toList, some (decimal d.frame.toNat)] := by
  -- Piece by piece, each behind the one before.
  unfold FrameDump.header
  rw [text]
  simp only [List.append_assoc]
  exact Leads.match_eq (Leads.seq (leads_lit _ _) (Leads.seq (leads_tag tag _)
    (Leads.seq (leads_lit _ _) (leads_number _ _ rfl))))

/-- A row of eight bytes is matched with its digits. -/
theorem match_boardRow {off : Nat} (small : off < 16 ^ 4) {digits : List Char}
    (length : digits.length = 16) (hex : ∀ c ∈ digits, isHexDigit c = true) :
    boardRow.match_ (rowLine (off, digits)) = some [some digits] := by
  -- Piece by piece, each behind the one before.
  obtain ⟨four, all, ends⟩ := offset_digits small (": ".toList ++ digits)
  rw [rowLine, rowHead]
  simp only [List.append_assoc]
  have kept : (group (exactly 16 isHexDigit)).Leads (digits ++ []) [some digits] [] :=
    (leads_exactly [] length hex).group
  rw [List.append_nil] at kept
  exact (Leads.seq (leads_plus (by simp) (by simp [isBlank]) ends)
    (Leads.seq (leads_exactly _ four all) (Leads.seq (leads_lit _ _) kept))).match_eq

/-- A row is no header. -/
theorem boardHeader_row (row : Nat × List Char) : boardHeader.match_ (rowLine row) = none :=
  match_eq_none (seq_fails (lit_fails [] _ (by decide)))

/-- A line that starts with no digit is no word. -/
theorem simWord_fails {c : Char} (t : List Char) (other : c.isDigit = false) :
    simWord.match_ (c :: t) = none :=
  match_eq_none (seq_fails (group_fails (plus_fails t other)))

/-- The mark of the last word. -/
def lastMark (tlast : Bool) : Option (List Char) :=
  if tlast then some " LAST".toList else none

/-- The mark of the last word is found, or nothing. -/
theorem leads_last (tlast : Bool) :
    (optional (group (lit " LAST".toList))).Leads (if tlast then " LAST".toList else [])
      [lastMark tlast] [] := by
  cases tlast with
  | true => exact Leads.optional (Leads.group (s := " LAST".toList) (r := []) (leads_lit _ []))
  | false => exact leads_optional_none rfl

/-- The pieces of a word line; one blank or more stand behind the name. -/
theorem WordLine.text_eq (l : WordLine) :
    ∃ blanks : List Char, blanks ≠ [] ∧ (∀ c ∈ blanks, isBlank c = true) ∧
      l.text = decimal l.cyc ++ (" ".toList ++ (l.tag.text.toList ++ (blanks ++ ("w".toList ++
        (decimal l.n ++ (" 0x".toList ++ (hexPad 16 l.tdata.toNat ++
          (if l.tlast then " LAST".toList else [])))))))) := by
  -- The name stands between a blank and the blanks in front of the `w`.
  have front : ∀ blanks : List Char, (match l.tag with
      | .debug => " DEBUG  w".toList
      | .cmd => " CMD    w".toList
      | .mdebug => " MDEBUG w".toList) = " ".toList ++ (l.tag.text.toList ++ (blanks ++ "w".toList)) →
        l.text = decimal l.cyc ++ (" ".toList ++ (l.tag.text.toList ++ (blanks ++ ("w".toList ++
          (decimal l.n ++ (" 0x".toList ++ (hexPad 16 l.tdata.toNat ++
            (if l.tlast then " LAST".toList else [])))))))) := by
    intro blanks same
    rw [WordLine.text, same]
    simp only [List.append_assoc]
  cases tag : l.tag with
  | debug => exact ⟨"  ".toList, by simp, by simp [isBlank], tag ▸ front _ (by rw [tag]; rfl)⟩
  | mdebug => exact ⟨" ".toList, by simp, by simp [isBlank], tag ▸ front _ (by rw [tag]; rfl)⟩
  | cmd => exact ⟨"    ".toList, by simp, by simp [isBlank], tag ▸ front _ (by rw [tag]; rfl)⟩

/-- A word of a scored stream is matched with its name, its digits and its mark. -/
theorem match_word {l : WordLine} {k : Kind} (scored : kindOfTag l.tag = some k) :
    simWord.match_ l.text = some [some (decimal l.cyc), some l.tag.text.toList, some (decimal l.n),
      some (hexPad 16 l.tdata.toNat), lastMark l.tlast] := by
  obtain ⟨blanks, nonempty, blank, text⟩ := l.text_eq
  -- The digits end at the mark or with the line.
  have some : hexPad 16 l.tdata.toNat ≠ [] := by
    intro none
    have length := length_hexPad (w := 16) (by omega) l.tdata.isLt
    rw [none] at length
    exact absurd length (by simp)
  have ends : ∀ c ∈ (if l.tlast then " LAST".toList else []).head?, isHexDigit c = false := by
    cases l.tlast with
    | true =>
      intro c first
      obtain rfl := Option.some.inj first
      rfl
    | false =>
      intro c first
      cases first
  have name : ∀ r, (oneOf ["CMD".toList, "DEBUG".toList]).Leads (l.tag.text.toList ++ r) [] r := by
    intro r
    cases tag : l.tag with
    | debug => simp [Pattern.Leads, oneOf, lit, Tag.text]
    | mdebug =>
      rw [tag] at scored
      cases scored
    | cmd => simp [Pattern.Leads, oneOf, lit, Tag.text]
  have word := Leads.seq (leads_plus some (fun c member => (isHexDigit_of_mem_hexPad member).1)
    ends).group (leads_last l.tlast)
  have number := Leads.seq (leads_lit "w".toList _) (Leads.seq (leads_number l.n _ rfl)
    (Leads.seq (leads_lit " 0x".toList _) word))
  have gap : ∀ c ∈ ("w".toList ++ (decimal l.n ++ (" 0x".toList ++ (hexPad 16 l.tdata.toNat ++
      (if l.tlast then " LAST".toList else []))))).head?, isBlank c = false := by
    intro c first
    obtain rfl := Option.some.inj first
    rfl
  rw [text]
  exact (Leads.seq (leads_number l.cyc _ rfl) (Leads.seq (leads_lit " ".toList _)
    (Leads.seq (name _).group (Leads.seq (leads_plus nonempty blank gap) number)))).match_eq

/-- A word of the other stream is not matched. -/
theorem match_mdebug {l : WordLine} (other : l.tag = .mdebug) : simWord.match_ l.text = none := by
  obtain ⟨blanks, -, -, text⟩ := l.text_eq
  -- Behind all digits stands the wrong name, and behind fewer of them no blank.
  rw [text, other]
  refine match_eq_none (seq_group_fails_behind fun way member => ?_)
  have ends : ∀ c ∈ (" ".toList ++ (Tag.mdebug.text.toList ++ (blanks ++ ("w".toList ++
      (decimal l.n ++ (" 0x".toList ++ (hexPad 16 l.tdata.toNat ++
        (if l.tlast then " LAST".toList else [])))))))).head?, c.isDigit = false := by
    intro c first
    obtain rfl := Option.some.inj first
    rfl
  rcases plus_ways (fun c member => isDigit_of_mem_decimal member) ends way member with
    rest | ⟨c, u, rest, digit⟩
  · rw [rest]
    refine seq_fails_behind fun way member => ?_
    rw [lit_ways _ _ way member, List.drop_left]
    exact seq_fails (group_fails rfl)
  · rw [rest]
    refine seq_fails (lit_fails [] u ?_)
    rintro rfl
    exact absurd digit (by decide)

/-- The first character of a word line is a digit. -/
theorem isBoardLine_sim (l : SimLine) : isBoardLine l.text = false := by
  -- It is a digit or the mark of a remark, and no bracket.
  have other : ∀ (c : Char) (t : List Char), c ≠ '[' → isBoardLine (c :: t) = false := by
    intro c t other
    have differs : ('[' == c) = false := beq_false_of_ne other.symm
    simp [isBoardLine, List.isPrefixOf, differs]
  cases l with
  | word l =>
    obtain ⟨blanks, -, -, text⟩ := l.text_eq
    obtain ⟨d, ds, digits⟩ := List.exists_cons_of_ne_nil (decimal_ne_nil l.cyc)
    have digit : d.isDigit = true := isDigit_of_mem_decimal (n := l.cyc) (by rw [digits]; simp)
    rw [SimLine.text, text, digits, List.cons_append]
    refine other d _ ?_
    rintro rfl
    exact absurd digit (by decide)
  | remark rest _ => exact other '#' _ (by decide)

/-- The header of a scored stream is what a board capture is known by. -/
theorem isBoardLine_header {d : FrameDump} (tag : Tag) (text : d.tag = tag.text) :
    isBoardLine d.header = (kindOfTag tag).isSome := by
  unfold FrameDump.header
  rw [text]
  simp only [List.append_assoc]
  cases tag <;> rfl

end MarketData
