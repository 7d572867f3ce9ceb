import Mathlib.Data.Char
import Mathlib.Data.List.Lex
import MarketData.Lib.Fields
import MarketData.Lib.SortedSet

/-! The request line of a client, as the two servers read it and answer it. -/

namespace MarketData.Server

/-- A word of a request, or the name of a FIFO. -/
abbrev Word := List Char

/-- `read_line`: the characters up to a newline, without carriage returns, at most 1024 of them. -/
def readLine (out : List Char) : List Char → Option (List Char)
  | [] => if 1024 ≤ out.length then some out else none
  -- The length is looked at in front of every character, as the condition of the loop.
  | c :: input =>
    if 1024 ≤ out.length then some out
    else if c = '\n' then some out
    else if c ≠ '\r' then readLine (out ++ [c]) input
    else readLine out input

/-- The delimiters of the request. -/
def isDelim (c : Char) : Bool :=
  c == ' ' || c == '\t'

/-- `strtok`: the next word and what stands behind the delimiter that ends it. -/
def strtok (s : List Char) : Option (Word × List Char) :=
  -- One delimiter behind the word is overwritten and not looked at again.
  let s := s.dropWhile isDelim
  if s.isEmpty then none
  else some (s.takeWhile fun c => !isDelim c, (s.dropWhile fun c => !isDelim c).tail)

/-- Behind a word less is left of the request. -/
theorem strtok_shorter {s : List Char} {w : Word} {rest : List Char}
    (next : strtok s = some (w, rest)) : rest.length < s.length := by
  -- A suffix of what follows the blanks, and of that the first character is gone.
  unfold strtok at next
  dsimp only at next
  split at next
  · exact absurd next (by simp)
  · rename_i present
    obtain ⟨rfl, rfl⟩ := Prod.mk.inj (Option.some.inj next)
    have blanks := (List.dropWhile_suffix (l := s) isDelim).length_le
    have word := (List.dropWhile_suffix (l := s.dropWhile isDelim) fun c => !isDelim c).length_le
    have some_ : 0 < (s.dropWhile isDelim).length := by
      simpa [List.length_pos_iff] using present
    rw [List.length_tail]
    omega

/-- The words that the loop over `strtok` goes through. -/
def tokens (s : List Char) : List Word :=
  match _next : strtok s with
  | none => []
  | some (w, rest) => w :: tokens rest
termination_by s.length
decreasing_by exact strtok_shorter _next

/-- What the loop over the words knows: no word was seen, a star was seen, the names so far. -/
structure Request where
  first : Bool
  star : Bool
  names : SortedSet Word

/-- A turn of the loop in `client_thread`. -/
def parseWord (available : SortedSet Word) (r : Request) (t : Word) : Request :=
  let w := t.map Char.toLower
  -- The command may be left out, and a name that is not available is passed over.
  if r.first && w == "subscribe".toList then { r with first := false }
  else
    let r := { r with first := false }
    if w == "*".toList then { r with star := true }
    else if available.elems.contains w then { r with names := r.names.insert w }
    else r

/-- A name in quotes. -/
def quoted (n : Word) : List Char :=
  "\"".toList ++ n ++ "\"".toList

/-- A turn of the loop that writes the names into the hello line. -/
def helloName (p : List Char × Nat) (n : Word) : List Char × Nat :=
  -- The separator stands in front of every name but the first.
  let (hello, i) := p
  ((if i ≠ 0 then hello ++ ", ".toList else hello) ++ quoted n, i + 1)

/-- The hello line up to the names. -/
def helloHead : List Char :=
  "\x7b\"hello\": \"mktdata_poc fifo_server\", \"subscribed\": [".toList

/-- The hello line of the C++ server. -/
def hello (names : List Word) : List Char :=
  (names.foldl helloName (helloHead, 0)).1 ++ "]\x7d\n".toList

/-- `client_thread` up to the hello line, if a request line comes. -/
def clientThread (available : SortedSet Word) (input : List Char) :
    Option (SortedSet Word × List Char) :=
  (readLine [] input).map fun req =>
    let r := (tokens req).foldl (parseWord available) ⟨true, false, .empty⟩
    -- Without a name, or with a star among the words, everything is subscribed.
    let names := if r.names.elems.isEmpty || r.star then available else r.names
    (names, hello names.elems)

/-- Python's white space among the ASCII characters. -/
def isSpace (c : Char) : Bool :=
  c == ' ' || (9 ≤ c.val && c.val ≤ 13) || (28 ≤ c.val && c.val ≤ 31)

/-- `readline`: the characters up to a newline and the newline. -/
def pyReadline (input : List Char) : List Char :=
  -- The newline is part of the line, unless the input ends without one.
  input.takeWhile (fun c => c ≠ '\n') ++ (input.dropWhile fun c => c ≠ '\n').take 1

/-- `strip`: without the white space at both ends. -/
def pyStrip (s : List Char) : List Char :=
  ((s.dropWhile isSpace).reverse.dropWhile isSpace).reverse

/-- `split`: the words between runs of white space. -/
def pySplit (s : List Char) : List Word :=
  fields isSpace s

/-- Four hexadecimal digits. -/
def hex4 (n : Nat) : List Char :=
  [Nat.digitChar (n / 4096 % 16), Nat.digitChar (n / 256 % 16), Nat.digitChar (n / 16 % 16),
    Nat.digitChar (n % 16)]

/-- A character in a string of `json.dumps`, which writes ASCII only. -/
def jsonChar (c : Char) : List Char :=
  if c = '"' then "\\\"".toList
  else if c = '\\' then "\\\\".toList
  -- Printable characters stand for themselves, the common control characters have a letter.
  else if 32 ≤ c.toNat ∧ c.toNat < 127 then [c]
  else if c = '\n' then "\\n".toList
  else if c = '\r' then "\\r".toList
  else if c = '\t' then "\\t".toList
  else if c.toNat = 8 then "\\b".toList
  else if c.toNat = 12 then "\\f".toList
  else if c.toNat < 65536 then "\\u".toList ++ hex4 c.toNat
  -- Beyond the first plane a character is a pair of surrogates.
  else
    let n := c.toNat - 65536
    "\\u".toList ++ hex4 (0xd800 + n / 1024) ++ "\\u".toList ++ hex4 (0xdc00 + n % 1024)

/-- A string of `json.dumps`. -/
def jsonString (s : Word) : List Char :=
  "\"".toList ++ s.flatMap jsonChar ++ "\"".toList

/-- A list of strings of `json.dumps`. -/
def jsonList (items : List Word) : List Char :=
  "[".toList ++ ", ".toList.intercalate (items.map jsonString) ++ "]".toList

/-- The hello line of the Python server. -/
def pyHello (names : List Word) : List Char :=
  "\x7b".toList ++ jsonString "hello".toList ++ ": ".toList ++
    jsonString "mktdata_poc fifo_server".toList ++ ", ".toList ++ jsonString "subscribed".toList ++
    ": ".toList ++ jsonList names ++ "\x7d".toList ++ "\n".toList

/-- The `client_thread` of `fifo_server.py` up to the hello line. -/
def pyClientThread (available : List Word) (input : List Char) : Finset Word × List Char :=
  let words := pySplit (pyStrip (pyReadline input))
  -- The command is looked for in any case, the names are lowered.
  let words : List Word := match words with
    | [] => words
    | w :: rest => if w.map Char.toUpper == "SUBSCRIBE".toList then rest else words
  let names := (words.map fun w => w.map Char.toLower).toFinset ∩ available.toFinset
  -- A star counts as a word only as it stands.
  let names := if names = ∅ ∨ "*".toList ∈ words then available.toFinset else names
  (names, pyHello (names.sort (· ≤ ·)))

/-- The available names among some words. -/
def named (available : Finset Word) (words : List Word) : Finset Word :=
  (words.map fun w => w.map Char.toLower).toFinset ∩ available

/-- The names that a request selects. -/
def selected (available : Finset Word) (words : List Word) : Finset Word :=
  if named available words = ∅ ∨ "*".toList ∈ words then available else named available words

end MarketData.Server
