import MarketData.Lib.Numerals

/-! JSON texts as the `json` module reads them. -/

namespace MarketData

/-- A value; a float is kept as it is written. -/
inductive Json where
  | null
  | bool (b : Bool)
  | int (n : Int)
  | float (text : List Char)
  | str (s : List Char)
  | arr (items : List Json)
  | obj (members : List (List Char × Json))

namespace Json

/-- White space between tokens. -/
def isWs (c : Char) : Bool :=
  c = ' ' || c = '\t' || c = '\n' || c = '\r'

/-- Behind the white space. -/
def skipWs (t : List Char) : List Char :=
  t.dropWhile isWs

/-- The number of four hexadecimal digits. -/
def hexFour (a b c d : Char) : Option Nat :=
  intFromHex [a, b, c, d]

/-- The character that a backslash and a letter stand for. -/
def escape (c : Char) : Option Char :=
  match c with
  | '"' => some '"'
  | '\\' => some '\\'
  | '/' => some '/'
  | 'b' => some '\x08'
  | 'f' => some '\x0c'
  | 'n' => some '\n'
  | 'r' => some '\r'
  | 't' => some '\t'
  | _ => none

/-- The first half of a surrogate pair. -/
def isHigh (n : Nat) : Bool :=
  0xD800 ≤ n && n < 0xDC00

/-- The second half of a surrogate pair. -/
def isLow (n : Nat) : Bool :=
  0xDC00 ≤ n && n < 0xE000

/-- A string behind its quote, up to the closing one, and what follows it.

A lone surrogate is no character, so a string with one is not read here. -/
def scanString : List Char → Option (List Char × List Char)
  | [] => none
  | '"' :: t => some ([], t)
  -- Two escapes in a row may be the halves of one character.
  | '\\' :: 'u' :: a :: b :: c :: d :: '\\' :: 'u' :: e :: f :: g :: h :: t => do
    let n ← hexFour a b c d
    if isHigh n then
      let m ← hexFour e f g h
      let (s, r) ← scanString t
      if isLow m then some (Char.ofNat (0x10000 + (n - 0xD800) * 0x400 + (m - 0xDC00)) :: s, r)
      else none
    else if isLow n then none
    -- They are not, so the second one is read again.
    else
      let (s, r) ← scanString ('\\' :: 'u' :: e :: f :: g :: h :: t)
      some (Char.ofNat n :: s, r)
  | '\\' :: 'u' :: a :: b :: c :: d :: t => do
    let n ← hexFour a b c d
    let (s, r) ← scanString t
    if isHigh n || isLow n then none else some (Char.ofNat n :: s, r)
  | '\\' :: c :: t => do
    let e ← escape c
    let (s, r) ← scanString t
    some (e :: s, r)
  -- A control character has to be escaped.
  | c :: t =>
    if c.toNat < 0x20 then none
    else do
      let (s, r) ← scanString t
      some (c :: s, r)

/-- The digits in front and what follows them. -/
def digits (t : List Char) : List Char × List Char :=
  (t.takeWhile Char.isDigit, t.dropWhile Char.isDigit)

/-- The part of a number before its point: no zero leads another digit. -/
def scanWhole : List Char → Option (List Char × List Char)
  -- Behind a leading zero the number goes on with a point or an exponent, or ends.
  | '0' :: t => some (['0'], t)
  | t => if (digits t).1 = [] then none else some (digits t)

/-- The fraction of a number, if there is one. -/
def scanFraction : List Char → List Char × List Char
  | '.' :: t => if (digits t).1 = [] then ([], '.' :: t) else ('.' :: (digits t).1, (digits t).2)
  | t => ([], t)

/-- The sign of an exponent. -/
def scanSign : List Char → List Char × List Char
  | '+' :: t => (['+'], t)
  | '-' :: t => (['-'], t)
  | t => ([], t)

/-- The exponent of a number, if there is one. -/
def scanExponent : List Char → List Char × List Char
  | c :: t =>
    let (sign, u) := scanSign t
    -- Without digits the letter is not read.
    if (c = 'e' || c = 'E') && (digits u).1 ≠ [] then
      (c :: sign ++ (digits u).1, (digits u).2)
    else ([], c :: t)
  | [] => ([], [])

/-- A number without its sign. -/
def scanUnsigned (negative : Bool) (t : List Char) : Option (Json × List Char) := do
  let (whole, t) ← scanWhole t
  let (fraction, t) := scanFraction t
  let (exponent, t) := scanExponent t
  if fraction = [] ∧ exponent = [] then
    let n := Nat.ofDigitChars 10 whole 0
    some (.int (if negative then -n else n), t)
  else
    some (.float ((if negative then ['-'] else []) ++ whole ++ fraction ++ exponent), t)

/-- A number; the module also reads the names of three floats. -/
def scanNumber : List Char → Option (Json × List Char)
  | 'N' :: 'a' :: 'N' :: t => some (.float "NaN".toList, t)
  | 'I' :: 'n' :: 'f' :: 'i' :: 'n' :: 'i' :: 't' :: 'y' :: t => some (.float "Infinity".toList, t)
  | '-' :: 'I' :: 'n' :: 'f' :: 'i' :: 'n' :: 'i' :: 't' :: 'y' :: t =>
    some (.float "-Infinity".toList, t)
  | '-' :: t => scanUnsigned true t
  | t => scanUnsigned false t

mutual

/-- A value in front of a text, and what follows it. -/
def value : Nat → List Char → Option (Json × List Char)
  | 0, _ => none
  | fuel + 1, t =>
    match t with
    | '"' :: t => (scanString t).map fun (s, r) => (.str s, r)
    | '\x7b' :: t =>
      match skipWs t with
      | '\x7d' :: t => some (.obj [], t)
      | t => (members fuel t).map fun (ms, r) => (.obj ms, r)
    | '[' :: t =>
      match skipWs t with
      | ']' :: t => some (.arr [], t)
      | t => (items fuel t).map fun (vs, r) => (.arr vs, r)
    | 'n' :: 'u' :: 'l' :: 'l' :: t => some (.null, t)
    | 't' :: 'r' :: 'u' :: 'e' :: t => some (.bool true, t)
    | 'f' :: 'a' :: 'l' :: 's' :: 'e' :: t => some (.bool false, t)
    | t => scanNumber t

/-- The members of an object up to its closing brace. -/
def members : Nat → List Char → Option (List (List Char × Json) × List Char)
  | 0, _ => none
  | fuel + 1, t =>
    match t with
    | '"' :: t => do
      let (key, t) ← scanString t
      match skipWs t with
      | ':' :: t =>
        let (v, t) ← value fuel (skipWs t)
        match skipWs t with
        | '\x7d' :: t => some ([(key, v)], t)
        | ',' :: t => (members fuel (skipWs t)).map fun (ms, r) => ((key, v) :: ms, r)
        | _ => none
      | _ => none
    | _ => none

/-- The items of an array up to its closing bracket. -/
def items : Nat → List Char → Option (List Json × List Char)
  | 0, _ => none
  | fuel + 1, t => do
    let (v, t) ← value fuel t
    match skipWs t with
    | ']' :: t => some ([v], t)
    | ',' :: t => (items fuel (skipWs t)).map fun (vs, r) => (v :: vs, r)
    | _ => none

end

/-- `json.loads`: one value and white space around it; every value takes a character. -/
def loads (t : List Char) : Option Json := do
  let (v, rest) ← value (t.length + 1) (skipWs t)
  if skipWs rest = [] then some v else none

/-- The value of a key, the last one if it is there twice. -/
def get (key : List Char) : Json → Option Json
  | .obj ms => (ms.reverse.find? fun m => m.1 = key).map Prod.snd
  | _ => none

/-- A character that stands for itself in a string. -/
def isPlain (c : Char) : Bool :=
  isPrintable c && c ≠ '"' && c ≠ '\\'

/-- A string of plain characters is read up to its closing quote. -/
theorem scanString_plain {s : List Char} (plain : ∀ c ∈ s, isPlain c = true) (r : List Char) :
    scanString (s ++ '"' :: r) = some (s, r) := by
  -- Character by character, none of which is a quote or a backslash.
  induction s with
  | nil => rw [List.nil_append, scanString]
  | cons c s ih =>
    obtain ⟨first, others⟩ := List.forall_mem_cons.mp plain
    simp only [isPlain, isPrintable, Bool.and_eq_true, decide_eq_true_eq] at first
    obtain ⟨⟨⟨low, -⟩, quote⟩, backslash⟩ := first
    rw [List.cons_append, scanString, if_neg (by omega), ih others]
    · rfl
    · exact fun same => quote same
    · rintro a b c d e f g h t rfl
      exact absurd rfl backslash
    · rintro a b c d t rfl
      exact absurd rfl backslash
    · rintro a t rfl
      exact absurd rfl backslash

/-- Digits are read up to another character. -/
theorem digits_append {ds : List Char} (all : ∀ c ∈ ds, c.isDigit = true) {c : Char} (r : List Char)
    (ends : c.isDigit = false) : digits (ds ++ c :: r) = (ds, c :: r) := by
  rw [digits, List.takeWhile_append_of_pos all, List.dropWhile_append_of_pos all]
  simp [ends]

/-- A number other than zero does not start with a zero. -/
theorem decimal_head {n : Nat} (positive : n ≠ 0) :
    ∃ d ds, decimal n = d :: ds ∧ d ≠ '0' := by
  -- Induction on the number; the first digit is that of a tenth of it.
  induction n using Nat.strong_induction_on with
  | _ n ih =>
    rw [decimal, Nat.toDigits_eq_if (by decide)]
    by_cases single : n < 10
    · rw [if_pos single]
      refine ⟨n.digitChar, [], rfl, ?_⟩
      have all : ∀ m : Fin 10, m.val ≠ 0 → m.val.digitChar ≠ '0' := by decide
      exact all ⟨n, single⟩ positive
    · obtain ⟨d, ds, first, nonzero⟩ := ih (n / 10) (by omega) (by omega)
      rw [if_neg single]
      exact ⟨d, ds ++ [(n % 10).digitChar], by rw [← decimal, first, List.cons_append], nonzero⟩

/-- The part before the point is read up to another character. -/
theorem scanWhole_decimal (n : Nat) {c : Char} (r : List Char) (ends : c.isDigit = false) :
    scanWhole (decimal n ++ c :: r) = some (decimal n, c :: r) := by
  -- Zero is a single digit, any other number starts with another digit.
  rcases Nat.eq_zero_or_pos n with rfl | positive
  · rfl
  · obtain ⟨d, ds, first, nonzero⟩ := decimal_head (Nat.ne_of_gt positive)
    have read : digits (decimal n ++ c :: r) = (decimal n, c :: r) :=
      digits_append (fun _ member => isDigit_of_mem_decimal member) r ends
    rw [first] at read ⊢
    rw [List.cons_append] at read ⊢
    rw [scanWhole, read]
    · simp
    · rintro t same
      exact nonzero (List.cons.inj same).1

/-- A value that starts with a digit is a number without a sign. -/
theorem value_digit (fuel : Nat) {d : Char} (digit : d.isDigit = true) (t : List Char) :
    value (fuel + 1) (d :: t) = scanUnsigned false (d :: t) := by
  -- No other value, and no sign or name of a float, starts with a digit.
  have other : ∀ c : Char, c.isDigit = false → d ≠ c := by
    rintro c not rfl
    exact absurd (digit.symm.trans not) (by decide)
  rw [value, scanNumber]
  all_goals
    intros
    rename_i same
    exact absurd (List.cons.inj same).1 (other _ rfl)

/-- A value that starts with the digits of a number is a number without a sign. -/
theorem value_decimal (fuel n : Nat) (t : List Char) :
    value (fuel + 1) (decimal n ++ t) = scanUnsigned false (decimal n ++ t) := by
  obtain ⟨d, ds, digits⟩ := List.exists_cons_of_ne_nil (decimal_ne_nil n)
  have digit : d.isDigit = true := isDigit_of_mem_decimal (n := n) (by rw [digits]; simp)
  rw [digits, List.cons_append, value_digit fuel digit]

/-- A character at which a number ends. -/
def endsNumber (c : Char) : Bool :=
  c = ',' || c = '\x7d'

/-- Without an exponent the number ends. -/
theorem scanExponent_none {c : Char} (ends : endsNumber c = true) (r : List Char) :
    scanExponent (c :: r) = ([], c :: r) := by
  simp only [endsNumber, Bool.or_eq_true, decide_eq_true_eq] at ends
  rcases ends with rfl | rfl <;> simp [scanExponent]

/-- An integer is read up to the end of its member. -/
theorem value_int (fuel n : Nat) {c : Char} (ends : endsNumber c = true) (r : List Char) :
    value (fuel + 1) (decimal n ++ c :: r) = some (.int n, c :: r) := by
  -- There is neither a fraction nor an exponent.
  have noDigit : c.isDigit = false ∧ scanFraction (c :: r) = ([], c :: r) := by
    simp only [endsNumber, Bool.or_eq_true, decide_eq_true_eq] at ends
    rcases ends with rfl | rfl <;> exact ⟨rfl, by simp [scanFraction]⟩
  rw [value_decimal, scanUnsigned, scanWhole_decimal n r noDigit.1]
  simp [noDigit.2, scanExponent_none ends, decimal]

/-- A number with a fraction is read up to the end of its member. -/
theorem value_float (fuel n : Nat) {ds : List Char} (some : ds ≠ [])
    (all : ∀ c ∈ ds, c.isDigit = true) {c : Char} (ends : endsNumber c = true) (r : List Char) :
    value (fuel + 1) (decimal n ++ '.' :: (ds ++ c :: r)) =
      Option.some (.float (decimal n ++ '.' :: ds), c :: r) := by
  -- The digits behind the point are the fraction, and there is no exponent.
  have noDigit : c.isDigit = false := by
    simp only [endsNumber, Bool.or_eq_true, decide_eq_true_eq] at ends
    rcases ends with rfl | rfl <;> rfl
  rw [value_decimal, scanUnsigned, scanWhole_decimal n _ rfl]
  simp [scanFraction, digits_append all r noDigit, some, scanExponent_none ends]

/-- A string of plain characters is read. -/
theorem value_str (fuel : Nat) {s : List Char} (plain : ∀ c ∈ s, isPlain c = true)
    (r : List Char) : value (fuel + 1) ('"' :: (s ++ '"' :: r)) = some (.str s, r) := by
  rw [value, scanString_plain plain]
  rfl

/-- Both truth values are read. -/
theorem value_bool (fuel : Nat) (b : Bool) (r : List Char) :
    value (fuel + 1) ((if b then "true".toList else "false".toList) ++ r) = some (.bool b, r) := by
  cases b <;> simp [value]

/-- No white space is left out in front of another character. -/
theorem skipWs_cons {c : Char} (other : isWs c = false) (t : List Char) :
    skipWs (c :: t) = c :: t := by
  simp [skipWs, other]

/-- A key and the text of its value. -/
def member (key text : List Char) : List Char :=
  '"' :: (key ++ '"' :: ':' :: text)

/-- A member that is followed by another one. -/
theorem members_next {fuel : Nat} {key text : List Char} (plain : ∀ c ∈ key, isPlain c = true)
    (tight : skipWs text = text) {v : Json} {key' text' r : List Char}
    {ms : List (List Char × Json)} (read : value fuel text = some (v, ',' :: member key' text'))
    (rest : members fuel (member key' text') = some (ms, r)) :
    members (fuel + 1) (member key text) = some ((key, v) :: ms, r) := by
  -- Behind the comma the other members are read.
  have quoted : skipWs (member key' text') = member key' text' := skipWs_cons rfl _
  rw [member, members, scanString_plain plain]
  simp only [Option.bind_eq_bind, Option.bind_some, skipWs_cons (c := ':') rfl, tight, read,
    skipWs_cons (c := ',') rfl, quoted, rest, Option.map_some]

/-- The last member. -/
theorem members_last {fuel : Nat} {key text : List Char} (plain : ∀ c ∈ key, isPlain c = true)
    (tight : skipWs text = text) {v : Json} {r : List Char}
    (read : value fuel text = some (v, '\x7d' :: r)) :
    members (fuel + 1) (member key text) = some ([(key, v)], r) := by
  rw [member, members, scanString_plain plain]
  simp only [Option.bind_eq_bind, Option.bind_some, skipWs_cons (c := ':') rfl, tight, read,
    skipWs_cons (c := '\x7d') rfl]

/-- An object on a line of its own is read with its members. -/
theorem loads_obj {key text : List Char} {ms : List (List Char × Json)}
    (read : members ((member key text).length + 1) (member key text) = some (ms, ['\n'])) :
    loads ('\x7b' :: member key text) = some (.obj ms) := by
  -- Behind the object there is only the end of the line.
  have quoted : skipWs (member key text) = member key text := skipWs_cons rfl _
  have object : value ((member key text).length + 1 + 1) ('\x7b' :: member key text) =
      some (.obj ms, ['\n']) := by
    rw [value, quoted]
    change ((members ((member key text).length + 1) (member key text)).map fun (ms, r) =>
      (obj ms, r)) = _
    rw [read]
    rfl
  rw [loads, skipWs_cons rfl, List.length_cons, object]
  rfl

end Json

end MarketData
