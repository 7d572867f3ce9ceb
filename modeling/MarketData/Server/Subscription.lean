import Mathlib.Data.List.DropRight
import MarketData.Server.Subscribe

/-! Both servers read the same subscription out of a request line and answer it alike. -/

namespace MarketData.Server

section Case

variable {c l : Char}

/-- Folding to lower case adds the distance of the cases to an upper-case letter. -/
theorem toNat_toLower (c : Char) :
    c.toLower.toNat = if 65 ≤ c.toNat ∧ c.toNat ≤ 90 then c.toNat + 32 else c.toNat := by
  -- The sum is far below the size of a machine word.
  unfold Char.toLower
  have range : (c.val ≥ 'A'.val ∧ c.val ≤ 'Z'.val) ↔ 65 ≤ c.toNat ∧ c.toNat ≤ 90 := Iff.rfl
  split
  · rename_i upper
    have bounds : 65 ≤ c.val.toNat ∧ c.val.toNat ≤ 90 := range.mp upper
    have distance : ('a'.val - 'A'.val).toNat = 32 := by decide
    rw [if_pos (range.mp upper)]
    show (c.val + ('a'.val - 'A'.val)).toNat = c.val.toNat + 32
    rw [UInt32.toNat_add, distance]
    exact Nat.mod_eq_of_lt (by omega)
  · rename_i other
    rw [if_neg fun upper => other (range.mpr upper)]

/-- Folding to upper case takes the distance of the cases off a lower-case letter. -/
theorem toNat_toUpper (c : Char) :
    c.toUpper.toNat = if 97 ≤ c.toNat ∧ c.toNat ≤ 122 then c.toNat - 32 else c.toNat := by
  -- The distance is negative, so the sum overflows.
  unfold Char.toUpper
  have range : ('a'.val ≤ c.val ∧ c.val ≤ 'z'.val) ↔ 97 ≤ c.toNat ∧ c.toNat ≤ 122 := Iff.rfl
  split
  · rename_i lower
    have bounds : 97 ≤ c.val.toNat ∧ c.val.toNat ≤ 122 := range.mp lower
    have distance : ('A'.val - 'a'.val).toNat = 4294967264 := by decide
    rw [if_pos (range.mp lower)]
    show (c.val + ('A'.val - 'a'.val)).toNat = c.val.toNat - 32
    rw [UInt32.toNat_add, distance]
    omega
  · rename_i other
    rw [if_neg fun lower => other (range.mpr lower)]

/-- A character is a given lower-case letter in one case when it is the upper-case one in the other. -/
theorem toLower_eq_iff_toUpper (lower : 97 ≤ l.toNat ∧ l.toNat ≤ 122) :
    c.toLower = l ↔ c.toUpper = l.toUpper := by
  -- By the case of the character.
  rw [← Char.toNat_inj, ← Char.toNat_inj, toNat_toLower, toNat_toUpper, toNat_toUpper, if_pos lower]
  split <;> split <;> omega

/-- A character that is no letter is the same in lower case, and no other one becomes it. -/
theorem toLower_eq_iff_of_not_letter (other : l.toNat < 65) : c.toLower = l ↔ c = l := by
  -- Lower-case letters are not below upper-case ones.
  rw [← Char.toNat_inj, ← Char.toNat_inj, toNat_toLower]
  split <;> omega

/-- A word is a given one in lower case when it is the same one in upper case. -/
theorem map_toLower_eq_iff {word : Word} (w : Word)
    (lower : ∀ l ∈ word, 97 ≤ l.toNat ∧ l.toNat ≤ 122) :
    w.map Char.toLower = word ↔ w.map Char.toUpper = word.map Char.toUpper := by
  -- Letter by letter.
  induction word generalizing w with
  | nil => simp
  | cons l word ih =>
    cases w with
    | nil => simp
    | cons c w =>
      rw [List.map_cons, List.map_cons, List.map_cons, List.cons.injEq, List.cons.injEq,
        toLower_eq_iff_toUpper (lower l (by simp)), ih w fun k member => lower k (by simp [member])]

/-- Both servers recognise the same keyword. -/
theorem keyword_iff (w : Word) :
    (w.map Char.toLower == "subscribe".toList) = (w.map Char.toUpper == "SUBSCRIBE".toList) := by
  -- The keyword is a word of letters.
  have upper : "SUBSCRIBE".toList = "subscribe".toList.map Char.toUpper := by decide
  have letters : ∀ l ∈ "subscribe".toList, 97 ≤ l.toNat ∧ l.toNat ≤ 122 := by simp
  rw [Bool.eq_iff_iff, beq_iff_eq, beq_iff_eq, upper]
  exact map_toLower_eq_iff w letters

/-- A word is a star in lower case when it is one. -/
theorem star_iff (w : Word) : w.map Char.toLower = "*".toList ↔ w = "*".toList := by
  -- A star is no letter.
  have single : "*".toList = ['*'] := by decide
  have below : '*'.toNat < 65 := by decide
  rw [single]
  cases w with
  | nil => simp
  | cons c w => simp [toLower_eq_iff_of_not_letter below]

end Case

section Lines

/-- A character of a request line. -/
def Printable (c : Char) : Prop :=
  c = '\t' ∨ (32 ≤ c.toNat ∧ c.toNat < 127)

variable {line : List Char}

/-- A character of a request line ends no line. -/
theorem Printable.ne {c : Char} (printable : Printable c) : c ≠ '\n' ∧ c ≠ '\r' := by
  -- Both are control characters.
  constructor
  all_goals
    rintro rfl
    exact absurd printable (by unfold Printable; decide)

/-- `read_line` reads a line that fits, without what ends it. -/
theorem readLine_line (returns : Nat) (rest : List Char) :
    ∀ (line out : List Char), (∀ c ∈ line, Printable c) → out.length + line.length < 1024 →
      readLine out (line ++ List.replicate returns '\r' ++ '\n' :: rest) = some (out ++ line) := by
  -- Character by character, then the carriage returns, then the newline.
  intro line
  induction line with
  | nil =>
    intro out _ fits
    have space : ¬ 1024 ≤ out.length := by simpa using fits
    induction returns with
    | zero => simp [readLine, space]
    | succ returns ih => simpa [readLine, space, List.replicate_succ] using ih
  | cons c line ih =>
    intro out printable fits
    obtain ⟨notNewline, notReturn⟩ := (printable c (by simp)).ne
    simp only [List.length_cons] at fits
    have space : ¬ 1024 ≤ out.length := by omega
    have later := ih (out ++ [c]) (fun d member => printable d (by simp [member]))
      (by simp only [List.length_append, List.length_singleton]; omega)
    simpa [readLine, space, notNewline, notReturn] using later

/-- `readline` reads the line with what ends it. -/
theorem pyReadline_line (printable : ∀ c ∈ line, Printable c) (returns : Nat) (rest : List Char) :
    pyReadline (line ++ List.replicate returns '\r' ++ '\n' :: rest) =
      line ++ List.replicate returns '\r' ++ ['\n'] := by
  -- No character in front of the newline is one.
  have none : ∀ c ∈ line ++ List.replicate returns '\r', decide (c ≠ '\n') = true := by
    intro c member
    rcases List.mem_append.mp member with inLine | inReturns
    · exact decide_eq_true (printable c inLine).ne.1
    · obtain rfl := List.eq_of_mem_replicate inReturns
      decide
  unfold pyReadline
  rw [List.takeWhile_append_of_pos none, List.dropWhile_append_of_pos none]
  simp

/-- `strtok` finds the first field, and behind it the others. -/
theorem strtok_fields (s : List Char) :
    fields isDelim s = match strtok s with
      | none => []
      | some (w, rest) => w :: fields isDelim rest := by
  -- The blanks in front make no field.
  unfold strtok
  dsimp only
  rw [← fields_dropWhile s]
  by_cases blank : s.dropWhile isDelim = []
  · simp [blank]
  · have visible : (s.dropWhile isDelim).isEmpty = false := by simpa using blank
    have starts : (s.dropWhile isDelim).dropWhile isDelim = s.dropWhile isDelim :=
      List.dropWhile_idempotent isDelim s
    rw [visible, fields_first blank starts]
    rfl

/-- The words that the loop over `strtok` goes through are the fields of the line. -/
theorem tokens_eq_fields (s : List Char) : tokens s = fields isDelim s := by
  -- Induction on the rest of the line that `strtok` leaves.
  induction s using tokens.induct with
  | case1 s next => rw [tokens.eq_def, strtok_fields, next]
  | case2 s w rest next ih =>
    rw [tokens.eq_def, strtok_fields, next]
    exact congrArg (w :: ·) ih

/-- Python finds the same words in the line with what ends it. -/
theorem pySplit_line (printable : ∀ c ∈ line, Printable c) (returns : Nat) :
    pySplit (pyStrip (line ++ List.replicate returns '\r' ++ ['\n'])) = fields isDelim line := by
  -- What ends the line is white space, and in the line blanks and tabs are the white space.
  have ends : ∀ c ∈ List.replicate returns '\r' ++ ['\n'], isSpace c = true := by
    intro c member
    rcases List.mem_append.mp member with inReturns | newline
    · obtain rfl := List.eq_of_mem_replicate inReturns
      decide
    · obtain rfl := List.mem_singleton.mp newline
      decide
  have same : ∀ c ∈ line, isSpace c = isDelim c := by
    intro c member
    rcases printable c member with rfl | ⟨above, _⟩
    · decide
    · have value : 32 ≤ c.val.toNat := above
      have control : ¬ c.val ≤ 13 := by rw [UInt32.le_iff_toNat_le]; simp; omega
      have separator : ¬ c.val ≤ 31 := by rw [UInt32.le_iff_toNat_le]; simp; omega
      have noTab : c ≠ '\t' := by
        rintro rfl
        exact absurd above (by decide)
      simp [isSpace, isDelim, control, separator, noTab]
  unfold pySplit pyStrip
  rw [fields_strip, List.append_assoc, fields_append_separators line ends, fields_congr same]

end Lines

section Loop

variable {available : SortedSet Word}

/-- The words without the keyword in front. -/
def dropKeyword : List Word → List Word
  | [] => []
  | w :: rest => if w.map Char.toUpper == "SUBSCRIBE".toList then rest else w :: rest

/-- Behind the first word, a star is noted and an available name is added. -/
theorem parseWord_later (noStar : "*".toList ∉ available.toFinset) {r : Request}
    (later : r.first = false) (t : Word) :
    (parseWord available r t).first = false ∧
      (parseWord available r t).star = (r.star || decide (t = "*".toList)) ∧
      (parseWord available r t).names.toFinset =
        r.names.toFinset ∪ named available.toFinset [t] := by
  -- A star is no available name.
  obtain ⟨first, star, names⟩ := r
  obtain rfl : first = false := later
  have member (w : Word) : available.elems.contains w = true ↔ w ∈ available.toFinset := by
    simp [SortedSet.toFinset]
  unfold parseWord
  simp only [Bool.false_and, Bool.false_eq_true, if_false, beq_iff_eq, star_iff, member]
  split
  · rename_i isStar
    have lowerStar : t.map Char.toLower = "*".toList := (star_iff t).mpr isStar
    refine ⟨rfl, by simp [isStar], ?_⟩
    simp only [named, List.map_cons, List.map_nil, lowerStar, List.toFinset_cons, List.toFinset_nil,
      LawfulSingleton.insert_empty_eq, Finset.singleton_inter_of_notMem noStar, Finset.union_empty]
  · rename_i other
    have plain : decide (t = "*".toList) = false := decide_eq_false other
    split
    · rename_i present
      refine ⟨rfl, by rw [plain, Bool.or_false], ?_⟩
      simp only [SortedSet.toFinset_insert, named, List.map_cons, List.map_nil, List.toFinset_cons,
        List.toFinset_nil, LawfulSingleton.insert_empty_eq,
        Finset.singleton_inter_of_mem present, Finset.union_singleton]
    · rename_i absent
      refine ⟨rfl, by rw [plain, Bool.or_false], ?_⟩
      simp only [named, List.map_cons, List.map_nil, List.toFinset_cons, List.toFinset_nil,
        LawfulSingleton.insert_empty_eq, Finset.singleton_inter_of_notMem absent,
        Finset.union_empty]

/-- Behind the first word, the loop finds the stars and the available names. -/
theorem foldl_later (noStar : "*".toList ∉ available.toFinset) (words : List Word) :
    ∀ {r : Request}, r.first = false →
      (words.foldl (parseWord available) r).star = (r.star || decide ("*".toList ∈ words)) ∧
      (words.foldl (parseWord available) r).names.toFinset =
        r.names.toFinset ∪ named available.toFinset words := by
  -- Induction on the words.
  induction words with
  | nil => exact fun _ => ⟨by simp, by simp [named]⟩
  | cons t words ih =>
    intro r later
    obtain ⟨first, star, names⟩ := parseWord_later noStar later t
    obtain ⟨stars, allNames⟩ := ih first
    have parts : named available.toFinset (t :: words) =
        named available.toFinset [t] ∪ named available.toFinset words := by
      simp only [named, List.map_cons, List.map_nil, List.toFinset_cons, List.toFinset_nil,
        ← Finset.union_inter_distrib_right, Finset.insert_union, Finset.empty_union]
    rw [List.foldl_cons, stars, allNames, star, names, parts, Finset.union_assoc]
    refine ⟨?_, rfl⟩
    simp [Bool.or_assoc, eq_comm, Bool.decide_or]

/-- The loop drops the keyword in front and finds the stars and the available names. -/
theorem foldl_request (noStar : "*".toList ∉ available.toFinset) (words : List Word) :
    (words.foldl (parseWord available) ⟨true, false, .empty⟩).star =
        decide ("*".toList ∈ dropKeyword words) ∧
      (words.foldl (parseWord available) ⟨true, false, .empty⟩).names.toFinset =
        named available.toFinset (dropKeyword words) := by
  -- The flag matters for the first word only.
  cases words with
  | nil => exact ⟨by simp [dropKeyword], by simp [named, dropKeyword]⟩
  | cons w rest =>
    cases keyword : w.map Char.toUpper == "SUBSCRIBE".toList with
    | true =>
      have dropped : dropKeyword (w :: rest) = rest := by simp only [dropKeyword, keyword, if_true]
      have first : parseWord available ⟨true, false, .empty⟩ w = ⟨false, false, .empty⟩ := by
        simp only [parseWord, keyword_iff, keyword, Bool.and_self, if_true]
      rw [dropped, List.foldl_cons, first]
      simpa using foldl_later noStar rest (r := ⟨false, false, .empty⟩) rfl
    | false =>
      have whole : dropKeyword (w :: rest) = w :: rest := by
        simp only [dropKeyword, keyword, Bool.false_eq_true, if_false]
      have first : parseWord available ⟨true, false, .empty⟩ w =
          parseWord available ⟨false, false, .empty⟩ w := by
        simp only [parseWord, keyword_iff, keyword, Bool.and_false]
      rw [whole, List.foldl_cons, first]
      simpa using foldl_later noStar (w :: rest) (r := ⟨false, false, .empty⟩) rfl

end Loop

section Hello

/-- A word of lower-case letters, as the names of the FIFOs are. -/
def Letters (n : Word) : Prop :=
  n ≠ [] ∧ ∀ c ∈ n, 97 ≤ c.toNat ∧ c.toNat ≤ 122

/-- Behind the first name, every name comes with a comma in front. -/
theorem foldl_helloName (names : List Word) : ∀ (out : List Char) (i : Nat),
    (names.foldl helloName (out, i + 1)).1 =
      out ++ names.flatMap fun n => ", ".toList ++ quoted n := by
  -- Name by name.
  induction names with
  | nil => exact fun out i => (List.append_nil out).symm
  | cons n names ih =>
    intro out i
    have turn : helloName (out, i + 1) n = (out ++ ", ".toList ++ quoted n, i + 1 + 1) := rfl
    rw [List.foldl_cons, turn, ih, List.flatMap_cons]
    simp only [List.append_assoc]

/-- Between the items of a list stands the separator. -/
theorem intercalate_cons (separator : List Char) (n : Word) (items : List Word) :
    separator.intercalate (n :: items) = n ++ items.flatMap fun m => separator ++ m := by
  -- Item by item.
  induction items generalizing n with
  | nil => simp [List.intercalate]
  | cons m items ih =>
    have next : separator.intercalate (n :: m :: items) =
        n ++ (separator ++ separator.intercalate (m :: items)) := by
      simp [List.intercalate]
    rw [next, ih, List.flatMap_cons, List.append_assoc]

/-- Letters are written as they are. -/
theorem jsonString_letters {n : Word} (letters : Letters n) :
    jsonString n = quoted n := by
  -- No letter is escaped.
  have plain : n.flatMap jsonChar = n := by
    have every := letters.2
    clear letters
    induction n with
    | nil => rfl
    | cons c n ih =>
      have range := every c (by simp)
      have visible : 32 ≤ c.toNat ∧ c.toNat < 127 := by omega
      have noQuote : c ≠ '"' := by
        rintro rfl
        exact absurd range (by decide)
      have noBackslash : c ≠ '\\' := by
        rintro rfl
        exact absurd range (by decide)
      have kept : jsonChar c = [c] := by
        simp only [jsonChar, if_neg noQuote, if_neg noBackslash, if_pos visible]
      rw [List.flatMap_cons, kept, ih fun d member => every d (by simp [member])]
      rfl
  rw [jsonString, plain, quoted]

/-- The names of the hello line are the items of a list. -/
theorem foldl_hello (names : List Word) (head : List Char) :
    (names.foldl helloName (head, 0)).1 = head ++ ", ".toList.intercalate (names.map quoted) := by
  -- The first name has no comma in front.
  cases names with
  | nil => exact (List.append_nil head).symm
  | cons n names =>
    have turn : helloName (head, 0) n = (head ++ quoted n, 0 + 1) := rfl
    rw [List.foldl_cons, turn, foldl_helloName, List.map_cons, intercalate_cons, List.flatMap_map,
      List.append_assoc]

/-- Both servers write the same hello line. -/
theorem hello_eq_pyHello (names : List Word) (letters : ∀ n ∈ names, Letters n) :
    hello names = pyHello names := by
  -- What stands in front of the names and behind them is the same text.
  have strings : names.map jsonString = names.map quoted :=
    List.map_congr_left fun n member => jsonString_letters (letters n member)
  have front : helloHead =
      "\x7b".toList ++ jsonString "hello".toList ++ ": ".toList ++
        jsonString "mktdata_poc fifo_server".toList ++ ", ".toList ++
        jsonString "subscribed".toList ++ ": ".toList ++ "[".toList := by decide
  have back : "]\x7d\n".toList = "]".toList ++ "\x7d".toList ++ "\n".toList := by decide
  unfold hello pyHello jsonList
  rw [foldl_hello, front, back, strings]
  simp only [List.append_assoc]

end Hello

/-- Only available names are selected. -/
theorem selected_subset (available : Finset Word) (words : List Word) :
    selected available words ⊆ available := by
  -- All of them, or those that the words name.
  unfold selected
  split
  · exact Finset.Subset.refl _
  · exact Finset.inter_subset_right

section Threads

variable {line : List Char}

/-- The subscription in the C++ server. -/
theorem clientThread_line {available : SortedSet Word} (noStar : "*".toList ∉ available.toFinset)
    (printable : ∀ c ∈ line, Printable c) (short : line.length < 1024) (returns : Nat)
    (rest : List Char) :
    ∃ names : SortedSet Word,
      clientThread available (line ++ List.replicate returns '\r' ++ '\n' :: rest) =
        some (names, hello names.elems) ∧
      names.toFinset = selected available.toFinset (dropKeyword (fields isDelim line)) := by
  -- The loop over the words leaves the stars and the available names.
  have read := readLine_line returns rest line [] printable (by simpa using short)
  obtain ⟨star, names⟩ := foldl_request noStar (tokens line)
  rw [tokens_eq_fields] at star names
  refine ⟨_, by rw [clientThread, read]; rfl, ?_⟩
  have none := SortedSet.elems_eq_nil_iff
    ((fields isDelim line).foldl (parseWord available) ⟨true, false, .empty⟩).names
  rw [List.nil_append, tokens_eq_fields, selected, star, apply_ite SortedSet.toFinset]
  refine if_congr ?_ rfl names
  rw [Bool.or_eq_true, List.isEmpty_iff, none, names, decide_eq_true_eq]

/-- The subscription in the Python server. -/
theorem pyClientThread_line (fifos : List Word) (printable : ∀ c ∈ line, Printable c)
    (returns : Nat) (rest : List Char) :
    pyClientThread fifos (line ++ List.replicate returns '\r' ++ '\n' :: rest) =
      (selected fifos.toFinset (dropKeyword (fields isDelim line)),
        pyHello ((selected fifos.toFinset (dropKeyword (fields isDelim line))).sort (· ≤ ·))) := by
  -- The words are the fields of the line.
  unfold pyClientThread
  rw [pyReadline_line printable, pySplit_line printable]
  cases fields isDelim line with
  | nil => rfl
  | cons w words => rfl

end Threads

/-- On every request line both servers compute the same subscription and send the same hello line. -/
theorem clientThread_agrees (available : SortedSet Word) (fifos : List Word)
    (same : available.toFinset = fifos.toFinset) (letters : ∀ n ∈ fifos, Letters n)
    (line : List Char) (printable : ∀ c ∈ line, Printable c) (short : line.length < 1024)
    (returns : Nat) (rest : List Char) :
    ∃ names text,
      clientThread available (line ++ List.replicate returns '\r' ++ '\n' :: rest) =
        some (names, text) ∧
      pyClientThread fifos (line ++ List.replicate returns '\r' ++ '\n' :: rest) =
        (names.toFinset, text) := by
  -- Both subscribe to what the words of the line select, and write the names in ascending order.
  have noStar : "*".toList ∉ available.toFinset := by
    rw [same, List.mem_toFinset]
    intro member
    exact absurd ((letters _ member).2 '*' (by decide)) (by decide)
  obtain ⟨names, sends, chosen⟩ := clientThread_line noStar printable short returns rest
  have lower : ∀ n ∈ names.elems, Letters n := by
    intro n member
    have chosenName : n ∈ names.toFinset := List.mem_toFinset.mpr member
    rw [chosen, same] at chosenName
    exact letters n (List.mem_toFinset.mp (selected_subset _ _ chosenName))
  refine ⟨names, hello names.elems, sends, ?_⟩
  rw [pyClientThread_line fifos printable, ← same, ← chosen, names.sort_toFinset,
    hello_eq_pyHello names.elems lower]

/-- Three FIFOs as the servers know them by default. -/
def sampleFifos : List Word :=
  ["cmd".toList, "debug".toList, "mdebug".toList]

/-- The request of the comments with a repeated name, an unknown one and blanks. -/
def sampleLine : List Char :=
  " SubScribe  cmd\tDEBUG nope cmd ".toList

/-- The sample line has only characters of request lines. -/
theorem sampleLine_printable : ∀ c ∈ sampleLine, Printable c := by
  -- The line is gone through; the characters are not.
  have all : sampleLine.all (fun c => decide (c = '\t' ∨ (32 ≤ c.toNat ∧ c.toNat < 127))) = true := by
    decide
  exact fun c member => by simpa [Printable] using List.all_eq_true.mp all c member

/-- The servers agree on the sample line. -/
theorem clientThread_agrees_sample :
    ∃ names text,
      clientThread ⟨sampleFifos, by decide⟩ (sampleLine ++ List.replicate 1 '\r' ++ '\n' :: []) =
        some (names, text) ∧
      pyClientThread sampleFifos (sampleLine ++ List.replicate 1 '\r' ++ '\n' :: []) =
        (names.toFinset, text) :=
  clientThread_agrees ⟨sampleFifos, by decide⟩ sampleFifos rfl (by simp [sampleFifos, Letters])
    sampleLine sampleLine_printable (by decide) 1 []

end MarketData.Server
