import MarketData.Netlist.Records

/-! A simulation and a board capture of the same records are read alike, however they interleave. -/

namespace MarketData

open Server

/-- A record of a stream. -/
structure Record where
  words : List (BitVec 64)
  /-- There is a last word. -/
  nonempty : words ≠ []
  /-- The record fits into a frame of the FIFO. -/
  short : words.length ≤ 512

/-- The words of a record as numbers. -/
def Record.values (r : Record) : List Nat :=
  r.words.map BitVec.toNat

/-- The records of the three streams, each in its order. -/
abbrev Streams := Tag → List Record

/-- The header of a DEBUG record, if it is scored. -/
def headerOf (w : List Nat) : Option (Nat × Nat) :=
  if isHeaderRecord w then hdrRec w else none

/-- The headers and the commands that are scored, each in the order of its stream. -/
def scored (streams : Streams) : List (Nat × Nat) × List (List Nat) :=
  (((streams .debug).map Record.values).filterMap headerOf,
    ((streams .cmd).map Record.values).filter fun w => w.length = 16)

/-- A word of a stream: its number in the record, its data and whether it is the last. -/
abbrev Beat := Nat × BitVec 64 × Bool

/-- The beats of a record from a word on. -/
def beatsFrom (n : Nat) : List (BitVec 64) → List Beat
  | [] => []
  | w :: ws => (n, w, ws.isEmpty) :: beatsFrom (n + 1) ws

/-- The beat that a line shows. -/
def WordLine.beat (l : WordLine) : Beat :=
  (l.n, l.tdata, l.tlast)

/-- The beats of a stream, as the lines of a simulation show them. -/
def beatsOf (tag : Tag) (ls : List SimLine) : List Beat :=
  ((ls.filterMap SimLine.word?).filter fun l => l.tag = tag).map WordLine.beat

/-- Lines that show the words of the streams, interleaved in any way, remarks between them. -/
def ShowsWords (streams : Streams) (ls : List SimLine) : Prop :=
  ∀ tag, beatsOf tag ls = (streams tag).flatMap fun r => beatsFrom 0 r.words

/-- Frames that hold the records of the streams, interleaved in any way. -/
def HoldsRecords (streams : Streams) (fs : List CaptureFrame) : Prop :=
  (∀ f ∈ fs, f.len = 8 * f.words.length) ∧
    ∀ tag, (fs.filter fun f => f.tag = tag).map CaptureFrame.words = (streams tag).map Record.words

/-- What is scored for a record. -/
def Scan.scored (s : Scan) (k : Kind) (w : List Nat) : Scan :=
  match k with
  | .debug => { s with hdrs := s.hdrs ++ (headerOf w).toList }
  | .cmd => { s with cmds := s.cmds ++ [w].filter fun w => w.length = 16 }

/-- A number that fits is written in so many bytes. -/
theorem toBytesBig_eq {size n : Nat} (fits : n < 256 ^ size) :
    toBytesBig size n =
      some ((List.range size).map fun i => BitVec.ofNat 8 (n / 256 ^ (size - 1 - i))) :=
  if_pos fits

/-- A record of 64-bit words is scored without an exception. -/
theorem Scan.score_eq (s : Scan) (k : Kind) {w : List Nat} (small : ∀ v ∈ w, v < 2 ^ 64) :
    s.score k w = some (s.scored k w) := by
  -- Only the decoding of a header could fail, and it does not on words of 64 bits.
  cases k with
  | debug =>
    rw [Scan.score, Scan.scored, headerOf]
    by_cases header : isHeaderRecord w = true
    · -- Four words are there, and the third one fits into eight bytes.
      have four : w.length = 4 := by
        simp only [isHeaderRecord, Bool.and_eq_true, decide_eq_true_eq] at header
        exact header.1
      have third := small w[2] (List.getElem_mem (by omega))
      have fits : w[2] < 256 ^ 8 := third
      obtain ⟨h, decoded⟩ : ∃ h, hdrRec w = some h := by
        rw [hdrRec, List.getElem?_eq_getElem (show 2 < w.length by omega),
          List.getElem?_eq_getElem (show 0 < w.length by omega)]
        simp only [Option.bind_eq_bind, Option.bind_some, toBytesBig_eq fits, Option.pure_def]
        exact ⟨_, rfl⟩
      simp [header, decoded]
    · simp [header]
  | cmd =>
    rw [Scan.score, Scan.scored]
    -- A command is kept or passed over by its length alone.
    by_cases sixteen : w.length = 16
    · simp [sixteen]
    · simp [sixteen]

/-- The words that are open are 64-bit words. -/
def Scan.Small (s : Scan) : Prop :=
  ∀ k, ∀ v ∈ s.cur k, v < 2 ^ 64

/-- A record is closed without an exception. -/
theorem Scan.close_eq {s : Scan} (small : s.Small) (k : Kind) :
    s.close k = some ({ s with cur := Function.update s.cur k [] }.scored k (s.cur k)) :=
  Scan.score_eq _ k (small k)

/-- Scoring leaves the open records as they are. -/
@[simp] theorem Scan.scored_cur (s : Scan) (k : Kind) (w : List Nat) : (s.scored k w).cur = s.cur := by
  cases k <;> rfl

/-- A stream takes another word, and the other one does not. -/
theorem Scan.append_cur (s : Scan) (k k' : Kind) (v : Nat) :
    (s.append k v).cur k' = if k' = k then s.cur k ++ [v] else s.cur k' :=
  Function.update_apply _ _ _ _

/-- An open record takes another word. -/
theorem Scan.Small.append {s : Scan} (small : s.Small) (k : Kind) (w : BitVec 64) :
    (s.append k w.toNat).Small := by
  -- The new word is a 64-bit word, and the other stream is left alone.
  intro k' v member
  rw [Scan.append_cur] at member
  by_cases same : k' = k
  · rw [if_pos same, List.mem_append, List.mem_singleton] at member
    rcases member with member | rfl
    · exact small k v member
    · exact w.isLt
  · rw [if_neg same] at member
    exact small k' v member

/-- The records that beats complete, and the words that stay open behind them. -/
def cut (cur : List Nat) : List Beat → List (List Nat) × List Nat
  | [] => ([], cur)
  | (_, w, last) :: bs =>
    if last then ((cur ++ [w.toNat]) :: (cut [] bs).1, (cut [] bs).2)
    else cut (cur ++ [w.toNat]) bs

/-- The beats of a record complete it. -/
theorem cut_beatsFrom (cur : List Nat) (n : Nat) {ws : List (BitVec 64)} (some : ws ≠ [])
    (bs : List Beat) :
    cut cur (beatsFrom n ws ++ bs) = ((cur ++ ws.map BitVec.toNat) :: (cut [] bs).1, (cut [] bs).2) := by
  -- Word by word, up to the last one.
  induction ws generalizing cur n with
  | nil => exact absurd rfl some
  | cons w ws ih =>
    cases ws with
    | nil => rfl
    | cons next ws =>
      have rest := ih (cur ++ [w.toNat]) (n + 1) (List.cons_ne_nil next ws)
      rw [List.append_assoc] at rest
      exact rest

/-- The beats of a stream complete its records, and leave nothing open. -/
theorem cut_stream (rs : List Record) :
    cut [] (rs.flatMap fun r => beatsFrom 0 r.words) = (rs.map Record.values, []) := by
  -- Record by record.
  induction rs with
  | nil => rfl
  | cons r rs ih =>
    rw [List.flatMap_cons, cut_beatsFrom [] 0 r.nonempty, ih]
    rfl

/-- The tag of a stream. -/
def Kind.tag : Kind → Tag
  | .debug => .debug
  | .cmd => .cmd

/-- A tag with a stream is the tag of that stream. -/
theorem kindOfTag_eq {tag : Tag} {k : Kind} (scored : kindOfTag tag = some k) : tag = k.tag := by
  -- The third tag has no stream.
  cases tag with
  | debug =>
    obtain rfl := Option.some.inj scored
    rfl
  | mdebug => exact nomatch scored
  | cmd =>
    obtain rfl := Option.some.inj scored
    rfl

/-- A word is the first beat of its own stream. -/
theorem beatsOf_own (l : WordLine) (ls : List SimLine) :
    beatsOf l.tag (.word l :: ls) = l.beat :: beatsOf l.tag ls := by
  simp [beatsOf, SimLine.word?]

/-- A line without a word of a stream shows no beat of it. -/
theorem beatsOf_other {tag : Tag} {l : SimLine} (other : ∀ w, l = .word w → w.tag ≠ tag)
    (ls : List SimLine) : beatsOf tag (l :: ls) = beatsOf tag ls := by
  cases l with
  | word w => simp [beatsOf, SimLine.word?, other w rfl]
  | remark rest _ => rfl

/-- The state behind a word: the record is closed with its last one. -/
def Scan.take (s : Scan) (k : Kind) (w : BitVec 64) (last : Bool) : Scan :=
  let s := s.append k w.toNat
  if last then { s with cur := Function.update s.cur k [] }.scored k (s.cur k) else s

/-- A word of a scored stream is taken. -/
theorem simLine_word {s : Scan} (small : s.Small) {l : WordLine} {k : Kind}
    (tag : kindOfTag l.tag = some k) :
    simLine s l.text = some (s.take k l.tdata l.tlast) := by
  rw [simLine, match_word tag]
  simp only [kindOf_text, tag, Option.bind_eq_bind, Option.bind_some, intFromHex_hexPad]
  cases last : l.tlast with
  | true => exact Scan.close_eq (small.append k l.tdata) k
  | false => rfl

/-- Remarks and the words of the other stream are passed over. -/
theorem simLine_other (s : Scan) {l : SimLine} (other : ∀ w, l = .word w → w.tag = .mdebug) :
    simLine s l.text = some s := by
  have none : simWord.match_ l.text = Option.none := by
    cases l with
    | word w => exact match_mdebug (other w rfl)
    | remark rest _ => exact simWord_fails _ rfl
  rw [simLine, none]

/-- What lines add to a state: what the beats of each stream complete, and what they leave open. -/
structure Adds (s : Scan) (ls : List SimLine) (s' : Scan) : Prop where
  hdrs : s'.hdrs = s.hdrs ++ (cut (s.cur .debug) (beatsOf .debug ls)).1.filterMap headerOf
  cmds : s'.cmds = s.cmds ++ (cut (s.cur .cmd) (beatsOf .cmd ls)).1.filter fun w => w.length = 16
  debug : s'.cur .debug = (cut (s.cur .debug) (beatsOf .debug ls)).2
  cmd : s'.cur .cmd = (cut (s.cur .cmd) (beatsOf .cmd ls)).2

/-- The state behind a word is small again. -/
theorem Scan.Small.take {s : Scan} (small : s.Small) (k : Kind) (w : BitVec 64) (last : Bool) :
    (s.take k w last).Small := by
  -- A record that was closed has no word any more.
  have appended := small.append k w
  cases last with
  | false => exact appended
  | true =>
    intro k' v member
    simp only [Scan.take, if_true, Scan.scored_cur] at member
    by_cases same : k' = k
    · subst same
      rw [Function.update_self] at member
      exact absurd member List.not_mem_nil
    · rw [Function.update_of_ne same] at member
      exact appended k' v member

/-- The open record behind a word. -/
theorem Scan.take_cur (s : Scan) (k k' : Kind) (w : BitVec 64) (last : Bool) :
    (s.take k w last).cur k' =
      if k' = k then (if last then [] else s.cur k ++ [w.toNat]) else s.cur k' := by
  -- Closing empties the record, and scoring leaves all of them.
  cases last with
  | false => exact s.append_cur k k' w.toNat
  | true =>
    simp only [Scan.take, if_true, Scan.scored_cur, Function.update_apply, Scan.append_cur]
    by_cases same : k' = k <;> simp [same]

/-- What is scored behind a word. -/
theorem Scan.take_scored (s : Scan) (k : Kind) (w : BitVec 64) (last : Bool) :
    (s.take k w last).hdrs =
        s.hdrs ++ (if last ∧ k = .debug then headerOf (s.cur k ++ [w.toNat]) else none).toList ∧
      (s.take k w last).cmds =
        s.cmds ++ if last ∧ k = .cmd then [s.cur k ++ [w.toNat]].filter (fun w => w.length = 16)
          else [] := by
  -- Only a last word scores, and each stream has its own list.
  cases last with
  | false => exact ⟨by simp [Scan.take, Scan.append], by simp [Scan.take, Scan.append]⟩
  | true =>
    cases k with
    | debug => exact ⟨by simp [Scan.take, Scan.scored, Scan.append], by
        simp [Scan.take, Scan.scored, Scan.append]⟩
    | cmd => exact ⟨by simp [Scan.take, Scan.scored, Scan.append], by
        simp [Scan.take, Scan.scored, Scan.append]⟩

/-- A word adds its beat, and the lines behind it what they add. -/
theorem Adds.word {s s' : Scan} {l : WordLine} {ls : List SimLine} {k : Kind}
    (tag : kindOfTag l.tag = some k) (rest : Adds (s.take k l.tdata l.tlast) ls s') :
    Adds s (.word l :: ls) s' := by
  -- The word is a beat of its own stream only.
  have own := beatsOf_own l ls
  rw [kindOfTag_eq tag] at own
  have other : ∀ tag, tag ≠ k.tag → beatsOf tag (.word l :: ls) = beatsOf tag ls := by
    intro tag' differs
    refine beatsOf_other ?_ ls
    rintro w ⟨⟩ same
    exact differs (same.symm.trans (kindOfTag_eq tag))
  obtain ⟨hdrs, cmds, debug, cmd⟩ := rest
  obtain ⟨takenHdrs, takenCmds⟩ := s.take_scored k l.tdata l.tlast
  rw [takenHdrs, s.take_cur] at hdrs
  rw [takenCmds, s.take_cur] at cmds
  rw [s.take_cur] at debug cmd
  cases k with
  | debug =>
    have cmdBeats := other .cmd (by simp [Kind.tag])
    refine ⟨?_, by rw [cmdBeats]; simpa using cmds, ?_, by rw [cmdBeats]; simpa using cmd⟩
    · rw [show Tag.debug = Kind.debug.tag from rfl, own, hdrs]
      cases last : l.tlast with
      | true => cases header : headerOf (s.cur .debug ++ [l.tdata.toNat]) <;>
          simp [WordLine.beat, last, cut, header, Kind.tag]
      | false => simp [WordLine.beat, last, cut, Kind.tag]
    · rw [show Tag.debug = Kind.debug.tag from rfl, own, debug]
      cases last : l.tlast <;> simp [WordLine.beat, last, cut, Kind.tag]
  | cmd =>
    have debugBeats := other .debug (by simp [Kind.tag])
    refine ⟨by rw [debugBeats]; simpa using hdrs, ?_, by rw [debugBeats]; simpa using debug, ?_⟩
    · rw [show Tag.cmd = Kind.cmd.tag from rfl, own, cmds]
      cases last : l.tlast with
      | true => by_cases sixteen : (s.cur .cmd).length = 15 <;>
          simp [WordLine.beat, last, cut, sixteen, Kind.tag]
      | false => simp [WordLine.beat, last, cut, Kind.tag]
    · rw [show Tag.cmd = Kind.cmd.tag from rfl, own, cmd]
      cases last : l.tlast <;> simp [WordLine.beat, last, cut, Kind.tag]

/-- The loop over the output of a simulation adds what its lines show. -/
theorem simLine_foldl (ls : List SimLine) {s : Scan} (small : s.Small) :
    ∃ s', (ls.map SimLine.text).foldlM simLine s = some s' ∧ Adds s ls s' := by
  -- Line by line; only the words of the two scored streams count.
  induction ls generalizing s with
  | nil => exact ⟨s, rfl, by simp [beatsOf, cut], by simp [beatsOf, cut], rfl, rfl⟩
  | cons l ls ih =>
    rw [List.map_cons, List.foldlM_cons]
    by_cases taken : ∃ w k, l = .word w ∧ kindOfTag w.tag = some k
    · obtain ⟨w, k, rfl, tag⟩ := taken
      obtain ⟨s', run, adds⟩ := ih (small.take k w.tdata w.tlast)
      refine ⟨s', ?_, adds.word tag⟩
      rw [SimLine.text, simLine_word small tag]
      exact run
    · have other : ∀ w, l = .word w → w.tag = .mdebug := by
        rintro w rfl
        cases tag : w.tag with
        | mdebug => rfl
        | debug => exact absurd ⟨w, .debug, rfl, by rw [tag]; rfl⟩ taken
        | cmd => exact absurd ⟨w, .cmd, rfl, by rw [tag]; rfl⟩ taken
      have none : ∀ tag, tag ≠ .mdebug → beatsOf tag (l :: ls) = beatsOf tag ls := fun tag differs =>
        beatsOf_other (fun w here same => differs (same.symm.trans (other w here))) ls
      obtain ⟨s', run, adds⟩ := ih small
      refine ⟨s', ?_, ?_⟩
      · rw [simLine_other s other]
        exact run
      · have debug := none .debug (by simp)
        have cmd := none .cmd (by simp)
        exact ⟨by rw [debug]; exact adds.hdrs, by rw [cmd]; exact adds.cmds,
          by rw [debug]; exact adds.debug, by rw [cmd]; exact adds.cmd⟩

/-- Every character of a line is printable. -/
theorem SimLine.text_printable (l : SimLine) : ∀ c ∈ l.text, isPrintable c = true := by
  cases l with
  | word l =>
    -- Piece by piece.
    have number : ∀ n, ∀ c ∈ decimal n, isPrintable c = true := fun n c member =>
      isPrintable_of_isDigit (isDigit_of_mem_decimal member)
    have mark : ∀ c ∈ (if l.tlast then " LAST".toList else []), isPrintable c = true := by
      cases l.tlast <;> exact List.all_eq_true.mp rfl
    rw [SimLine.text, WordLine.text]
    simp only [List.forall_mem_append]
    refine ⟨⟨⟨⟨⟨number _, ?_⟩, number _⟩, List.all_eq_true.mp rfl⟩,
      fun c member => (isHexDigit_of_mem_hexPad member).2⟩, mark⟩
    cases l.tag <;> exact List.all_eq_true.mp rfl
  | remark rest printable =>
    rw [SimLine.text, List.forall_mem_append]
    exact ⟨List.all_eq_true.mp rfl, printable⟩

/-- The text of a simulation is read as what its streams hold. -/
theorem records_simText {streams : Streams} {ls : List SimLine} (shows : ShowsWords streams ls) :
    records (simText ls) = some (scored streams) := by
  -- No line looks like one of a board capture, and every record is completed.
  have printable : ∀ line ∈ ls.map SimLine.text, ∀ c ∈ line, isPrintable c = true := by
    intro line member
    obtain ⟨l, -, rfl⟩ := List.mem_map.mp member
    exact l.text_printable
  have sim : (ls.map SimLine.text).any isBoardLine = false := by
    rw [List.any_eq_false]
    intro line member
    obtain ⟨l, -, rfl⟩ := List.mem_map.mp member
    rw [isBoardLine_sim]
    exact Bool.false_ne_true
  obtain ⟨s, run, adds⟩ := simLine_foldl ls (s := .start) fun _ _ member => nomatch member
  have hdrs := adds.hdrs
  have cmds := adds.cmds
  rw [shows .debug, Scan.start, cut_stream] at hdrs
  rw [shows .cmd, Scan.start, cut_stream] at cmds
  rw [records, simText, splitLines_joinLines printable]
  simp only [sim, Bool.false_eq_true, if_false, run, Option.bind_eq_bind, Option.bind_some, hdrs,
    cmds]
  rfl

/-- The state inside a frame: only the record of its stream is open. -/
def openIn (kind : Option Kind) (hdrs : List (Nat × Nat)) (cmds : List (List Nat))
    (w : List Nat) : Scan where
  hdrs := hdrs
  cmds := cmds
  cur k := if kind = some k then w else []

/-- The header that an open record leads to. -/
def openHeader (kind : Option Kind) (w : List Nat) : List (Nat × Nat) :=
  if kind = some .debug then (headerOf w).toList else []

/-- The command that an open record leads to. -/
def openCommand (kind : Option Kind) (w : List Nat) : List (List Nat) :=
  if kind = some .cmd then [w].filter fun w => w.length = 16 else []

/-- A record without a word leads to no header. -/
@[simp] theorem openHeader_nil (kind : Option Kind) : openHeader kind [] = [] :=
  ite_self _

/-- A record without a word leads to no command. -/
@[simp] theorem openCommand_nil (kind : Option Kind) : openCommand kind [] = [] :=
  ite_self _

/-- Nothing is open in a frame without a word yet, whatever its stream. -/
theorem openIn_nil (kind kind' : Option Kind) (hdrs : List (Nat × Nat)) (cmds : List (List Nat)) :
    openIn kind hdrs cmds [] = openIn kind' hdrs cmds [] := by
  simp only [openIn, ite_self]

/-- The header of a frame closes the record of the frame before it. -/
theorem boardLine_header (kind : Option Kind) (hdrs : List (Nat × Nat)) (cmds : List (List Nat))
    {w : List Nat} (small : ∀ v ∈ w, v < 2 ^ 64) (f : CaptureFrame) :
    boardLine (kind, openIn kind hdrs cmds w) f.dump.header =
      some (kindOfTag f.tag, openIn (kindOfTag f.tag) (hdrs ++ openHeader kind w)
        (cmds ++ openCommand kind w) []) := by
  -- What is done depends on whether a record of a scored stream is open.
  have header := match_boardHeader (d := f.dump) f.tag rfl
  unfold boardLine
  simp only [header, kindOf_text]
  cases kind with
  | none =>
    simp only [Option.bind_eq_bind, Option.bind_some, Option.pure_def, openHeader, openCommand,
      reduceCtorEq, if_false, List.append_nil]
    rw [openIn_nil (kindOfTag f.tag) none]
    simp only [openIn, reduceCtorEq, if_false]
  | some k =>
    -- An empty record is not closed, but it would not count either.
    have current : (openIn (some k) hdrs cmds w).cur k = w := if_pos rfl
    simp only [current]
    by_cases empty : w = []
    · subst empty
      simp [openIn_nil (kindOfTag f.tag) (some k)]
    · have closed : (openIn (some k) hdrs cmds w).close k =
          some (openIn (some k) (hdrs ++ openHeader (some k) w) (cmds ++ openCommand (some k) w)
            []) := by
        rw [Scan.close, current, Scan.score_eq _ k small]
        -- Closing it leaves nothing open, so its stream does not matter any more.
        have nothing : Function.update (openIn (some k) hdrs cmds w).cur k [] = fun _ => [] := by
          funext k'
          by_cases same : k' = k
          · rw [same, Function.update_self]
          · rw [Function.update_of_ne same]
            exact if_neg fun own => same (Option.some.inj own).symm
        rw [nothing]
        cases k <;> simp [Scan.scored, openIn, openHeader, openCommand]
      rw [if_neg empty, closed]
      simp [openIn_nil (kindOfTag f.tag) (some k)]

/-- A full row adds its word to the record of the frame. -/
theorem boardLine_row (kind : Option Kind) (hdrs : List (Nat × Nat)) (cmds : List (List Nat))
    (w : List Nat) (f : CaptureFrame) {r : Nat} (full : 8 * (r + 1) ≤ f.len) :
    boardLine (kind, openIn kind hdrs cmds w) (rowLine (f.row r)) =
      some (kind, openIn kind hdrs cmds (w ++ [(f.words.getD r 0).toNat])) := by
  -- The line starts with a blank, so it is no header.
  have le := f.le
  have whole : min (f.len - 8 * r) 8 = 8 := by omega
  have row : boardRow.match_ (rowLine (f.row r)) =
      some [some ((bytesLE 8 (f.words.getD r 0)).flatMap byteDigits)] := by
    rw [CaptureFrame.row, whole]
    exact match_boardRow (by omega) (by rw [length_digits, length_bytesLE])
      fun c member => (isHexDigit_of_mem member).1
  unfold boardLine
  rw [boardHeader_row, row]
  cases kind with
  | none => simp [openIn]
  | some k =>
    have appended : (openIn (some k) hdrs cmds w).append k (f.words.getD r 0).toNat =
        openIn (some k) hdrs cmds (w ++ [(f.words.getD r 0).toNat]) := by
      rw [Scan.append, openIn, openIn]
      congr 1
      funext k'
      by_cases same : k' = k
      · subst same
        simp
      · simp [Function.update_of_ne same, Ne.symm same]
    simp only [fromHex_digits, Option.bind_eq_bind, Option.bind_some,
      intFromBytesLittle_bytesLE (show 64 = 8 * 8 from rfl), appended]
    rfl

/-- Full rows add their words to the record of the frame. -/
theorem boardLine_rows (kind : Option Kind) (hdrs : List (Nat × Nat)) (cmds : List (List Nat))
    (w : List Nat) (f : CaptureFrame) (rs : List Nat) (full : ∀ r ∈ rs, 8 * (r + 1) ≤ f.len) :
    (rs.map fun r => rowLine (f.row r)).foldlM boardLine (kind, openIn kind hdrs cmds w) =
      some (kind, openIn kind hdrs cmds (w ++ rs.map fun r => (f.words.getD r 0).toNat)) := by
  -- Row by row.
  induction rs generalizing w with
  | nil => rw [List.map_nil, List.map_nil, List.append_nil]; rfl
  | cons r rs ih =>
    obtain ⟨first, rest⟩ := List.forall_mem_cons.mp full
    rw [List.map_cons, List.foldlM_cons, boardLine_row kind hdrs cmds w f first,
      Option.bind_eq_bind, Option.bind_some, ih _ rest, List.map_cons, List.append_assoc,
      List.singleton_append]

/-- A frame closes the record before it, and leaves its own one open. -/
theorem boardLine_frame (kind : Option Kind) (hdrs : List (Nat × Nat)) (cmds : List (List Nat))
    {w : List Nat} (small : ∀ v ∈ w, v < 2 ^ 64) {f : CaptureFrame}
    (full : f.len = 8 * f.words.length) :
    f.dump.lines.foldlM boardLine (kind, openIn kind hdrs cmds w) =
      some (kindOfTag f.tag, openIn (kindOfTag f.tag) (hdrs ++ openHeader kind w)
        (cmds ++ openCommand kind w) (f.words.map BitVec.toNat)) := by
  -- The frame has one full row for each of its words, behind its header.
  have count : nwords f.len = f.words.length := f.count.symm
  have words : (List.range f.words.length).map (fun r => (f.words.getD r 0).toNat) =
      f.words.map BitVec.toNat := by
    refine List.ext_getElem (by simp) fun r inside within => ?_
    have small : r < f.words.length := by simpa using within
    simp [small]
  rw [FrameDump.lines, List.foldlM_cons, boardLine_header kind hdrs cmds small f,
    Option.bind_eq_bind, Option.bind_some, f.rows_eq, List.map_map, count]
  have rows := boardLine_rows (kindOfTag f.tag) (hdrs ++ openHeader kind w)
    (cmds ++ openCommand kind w) [] f (List.range f.words.length) fun r member => by
      have within := List.mem_range.mp member
      omega
  rw [words, List.nil_append] at rows
  exact rows

/-- The records that frames of a stream hold. -/
def heldBy (tag : Tag) (fs : List CaptureFrame) : List (List Nat) :=
  (fs.filter fun f => f.tag = tag).map fun f => f.words.map BitVec.toNat

/-- A frame leads to a header if it is of the DEBUG stream. -/
theorem heldBy_debug (f : CaptureFrame) (fs : List CaptureFrame) :
    (heldBy .debug (f :: fs)).filterMap headerOf =
      openHeader (kindOfTag f.tag) (f.words.map BitVec.toNat) ++
        (heldBy .debug fs).filterMap headerOf := by
  -- A frame of another stream leads to nothing.
  cases tag : f.tag with
  | debug =>
    cases header : headerOf (f.words.map BitVec.toNat) <;>
      simp [heldBy, tag, openHeader, kindOfTag, header]
  | mdebug => simp [heldBy, tag, openHeader, kindOfTag]
  | cmd => simp [heldBy, tag, openHeader, kindOfTag]

/-- A frame leads to a command if it is of the CMD stream. -/
theorem heldBy_cmd (f : CaptureFrame) (fs : List CaptureFrame) :
    ((heldBy .cmd (f :: fs)).filter fun w => w.length = 16) =
      openCommand (kindOfTag f.tag) (f.words.map BitVec.toNat) ++
        (heldBy .cmd fs).filter fun w => w.length = 16 := by
  -- A frame of another stream leads to nothing, and so does a command of another length.
  cases tag : f.tag with
  | debug => simp [heldBy, tag, openCommand, kindOfTag]
  | mdebug => simp [heldBy, tag, openCommand, kindOfTag]
  | cmd =>
    by_cases sixteen : f.words.length = 16 <;>
      simp [heldBy, tag, openCommand, kindOfTag, sixteen]

/-- The loop over frames, up to the record that is open at the end. -/
theorem boardLine_foldl (fs : List CaptureFrame) (full : ∀ f ∈ fs, f.len = 8 * f.words.length)
    (kind : Option Kind) (hdrs : List (Nat × Nat)) (cmds : List (List Nat)) {w : List Nat}
    (small : ∀ v ∈ w, v < 2 ^ 64) :
    ∃ kind' hdrs' cmds' w', (fs.flatMap fun f => f.dump.lines).foldlM boardLine
        (kind, openIn kind hdrs cmds w) = some (kind', openIn kind' hdrs' cmds' w') ∧
      (∀ v ∈ w', v < 2 ^ 64) ∧
      hdrs' ++ openHeader kind' w' =
        hdrs ++ openHeader kind w ++ (heldBy .debug fs).filterMap headerOf ∧
      cmds' ++ openCommand kind' w' =
        cmds ++ openCommand kind w ++ (heldBy .cmd fs).filter fun w => w.length = 16 := by
  -- Frame by frame; what is open counts as read already.
  induction fs generalizing kind hdrs cmds w with
  | nil =>
    exact ⟨kind, hdrs, cmds, w, rfl, small, by simp [heldBy], by simp [heldBy]⟩
  | cons f fs ih =>
    obtain ⟨first, rest⟩ := List.forall_mem_cons.mp full
    have words : ∀ v ∈ f.words.map BitVec.toNat, v < 2 ^ 64 := by
      intro v member
      obtain ⟨x, -, rfl⟩ := List.mem_map.mp member
      exact x.isLt
    obtain ⟨kind', hdrs', cmds', w', run, small', hdrsEq, cmdsEq⟩ := ih rest (kindOfTag f.tag)
      (hdrs ++ openHeader kind w) (cmds ++ openCommand kind w) words
    refine ⟨kind', hdrs', cmds', w', ?_, small', ?_, ?_⟩
    · rw [List.flatMap_cons, List.foldlM_append, boardLine_frame kind hdrs cmds small first,
        Option.bind_eq_bind, Option.bind_some]
      exact run
    · rw [hdrsEq, heldBy_debug, List.append_assoc (hdrs ++ openHeader kind w)]
    · rw [cmdsEq, heldBy_cmd, List.append_assoc (cmds ++ openCommand kind w)]

/-- A board capture is read as what its frames hold. -/
theorem boardRecords_printed {fs : List CaptureFrame}
    (full : ∀ f ∈ fs, f.len = 8 * f.words.length) :
    ∃ s, boardRecords (fs.flatMap fun f => f.dump.lines) = some s ∧
      s.hdrs = (heldBy .debug fs).filterMap headerOf ∧
      s.cmds = (heldBy .cmd fs).filter fun w => w.length = 16 := by
  obtain ⟨kind, hdrs, cmds, w, run, small, hdrsEq, cmdsEq⟩ :=
    boardLine_foldl fs full none [] [] (w := []) fun _ member => nomatch member
  have start : Scan.start = openIn none [] [] [] := by
    simp only [Scan.start, openIn, ite_self]
  have opened : ∀ k, ∀ v ∈ (openIn kind hdrs cmds w).cur k, v < 2 ^ 64 := by
    intro k v member
    simp only [openIn] at member
    split at member
    · exact small v member
    · exact nomatch member
  -- Both records that may be open are scored at the end.
  refine ⟨(((openIn kind hdrs cmds w).scored .debug ((openIn kind hdrs cmds w).cur .debug)).scored
    .cmd ((openIn kind hdrs cmds w).cur .cmd)), ?_, ?_, ?_⟩
  · rw [boardRecords, start, run]
    simp only [Option.bind_eq_bind, Option.bind_some]
    rw [Scan.score_eq _ .debug (opened .debug), Option.bind_some, Scan.scored_cur,
      Scan.score_eq _ .cmd (opened .cmd)]
  · rw [openHeader_nil, List.append_nil, List.nil_append] at hdrsEq
    rw [← hdrsEq]
    by_cases debug : kind = some .debug <;> simp [Scan.scored, openIn, openHeader, debug, headerOf, isHeaderRecord]
  · rw [openCommand_nil, List.append_nil, List.nil_append] at cmdsEq
    rw [← cmdsEq]
    by_cases cmd : kind = some .cmd <;> simp [Scan.scored, openIn, openCommand, cmd]

/-- The frames of a stream hold its records. -/
theorem HoldsRecords.heldBy_eq {streams : Streams} {fs : List CaptureFrame}
    (holds : HoldsRecords streams fs) (tag : Tag) :
    heldBy tag fs = (streams tag).map Record.values := by
  -- The words agree as words, so they agree as numbers.
  have words := congrArg (List.map (List.map BitVec.toNat)) (holds.2 tag)
  rw [List.map_map, List.map_map] at words
  exact words

/-- A line of a dump is no word of a simulation. -/
theorem simLine_printed (s : Scan) {f : CaptureFrame} {line : List Char}
    (member : line ∈ f.dump.lines) : simLine s line = some s := by
  -- It starts with a bracket or a blank.
  have none : simWord.match_ line = Option.none := by
    rcases List.mem_cons.mp member with rfl | row
    · unfold FrameDump.header
      simp only [List.append_assoc]
      exact simWord_fails _ rfl
    · obtain ⟨r, -, rfl⟩ := List.mem_map.mp row
      exact simWord_fails _ rfl
  rw [simLine, none]

/-- The text of a board capture is read as what its streams hold. -/
theorem records_printed {streams : Streams} {fs : List CaptureFrame}
    (holds : HoldsRecords streams fs) : records (printed fs) = some (scored streams) := by
  -- The text is taken for a board capture if a line of it is a header of a scored stream.
  unfold records
  rw [splitLines_printed]
  by_cases board : (fs.flatMap fun f => f.dump.lines).any isBoardLine = true
  · obtain ⟨s, run, hdrs, cmds⟩ := boardRecords_printed holds.1
    rw [holds.heldBy_eq] at hdrs cmds
    simp only [if_pos board, run, Option.bind_eq_bind, Option.bind_some, hdrs, cmds]
    rfl
  · -- No frame is of a scored stream, so these streams are empty.
    have lines : ∀ f ∈ fs, kindOfTag f.tag = none := by
      intro f member
      by_contra scored
      refine board (List.any_eq_true.mpr ⟨f.dump.header,
        List.mem_flatMap.mpr ⟨f, member, List.mem_cons_self⟩, ?_⟩)
      rw [isBoardLine_header (d := f.dump) f.tag rfl]
      exact Option.isSome_iff_ne_none.mpr scored
    have empty : ∀ tag, kindOfTag tag ≠ none → streams tag = [] := by
      intro tag scored
      have none : (fs.filter fun f => f.tag = tag) = [] := by
        rw [List.filter_eq_nil_iff]
        intro f member same
        exact scored (of_decide_eq_true same ▸ lines f member)
      have words := holds.2 tag
      rw [none, List.map_nil] at words
      exact List.map_eq_nil_iff.mp words.symm
    -- The other reader finds no word in any line.
    have passed : ∀ lines : List (List Char), (∀ line ∈ lines, ∃ f : CaptureFrame,
        line ∈ f.dump.lines) → lines.foldlM simLine Scan.start = some .start := by
      intro lines
      induction lines with
      | nil => exact fun _ => rfl
      | cons line lines ih =>
        intro printed
        obtain ⟨⟨f, first⟩, rest⟩ := List.forall_mem_cons.mp printed
        rw [List.foldlM_cons, simLine_printed _ first, Option.bind_eq_bind, Option.bind_some,
          ih rest]
    have run := passed (fs.flatMap fun f => f.dump.lines) fun line member => by
      obtain ⟨f, -, inside⟩ := List.mem_flatMap.mp member
      exact ⟨f, inside⟩
    simp only [if_neg board, run, Option.bind_eq_bind, Option.bind_some, scored,
      empty .debug (by simp [kindOfTag]), empty .cmd (by simp [kindOfTag])]
    rfl

/-- A simulation and a board capture of the same records are scored alike. -/
theorem records_agree (streams : Streams) :
    (∀ ls, ShowsWords streams ls → records (simText ls) = some (scored streams)) ∧
      ∀ fs, HoldsRecords streams fs → records (printed fs) = some (scored streams) :=
  ⟨fun _ shows => records_simText shows, fun _ holds => records_printed holds⟩

/-- A header of nineteen bytes, and a record of the other stream. -/
def oneHeader : Streams
  | .debug => [⟨[0xDE00000013#64, 0#64, 0x01000000#64, 0#64], by simp, by simp⟩]
  | .mdebug => [⟨[7#64], by simp, by simp⟩]
  | .cmd => []

/-- The lines of the header, the other record between them. -/
def oneHeaderLines : List SimLine :=
  [.remark "1 frames".toList (List.all_eq_true.mp rfl),
    .word ⟨.debug, 10, 0, 0xDE00000013#64, false⟩, .word ⟨.debug, 11, 1, 0#64, false⟩,
    .word ⟨.mdebug, 11, 0, 7#64, true⟩, .word ⟨.debug, 12, 2, 0x01000000#64, false⟩,
    .word ⟨.debug, 13, 3, 0#64, true⟩]

/-- A word fits into the FIFO. -/
theorem word_le : 8 ≤ 4096 := by decide

/-- The frames of the header and of the other record. -/
def oneHeaderFrames : List CaptureFrame :=
  [⟨.mdebug, 1, [7#64], 8, false, by simp, word_le, rfl⟩,
    ⟨.debug, 1, [0xDE00000013#64, 0#64, 0x01000000#64, 0#64], 32, false, by simp, by simp, rfl⟩]

/-- Both texts of the header are read as one header. -/
theorem records_agree_one :
    records (simText oneHeaderLines) = some ([(19, 1)], []) ∧
      records (printed oneHeaderFrames) = some ([(19, 1)], []) := by
  -- One header record, which both texts show.
  have one : scored oneHeader = ([(19, 1)], []) := rfl
  obtain ⟨sim, board⟩ := records_agree oneHeader
  rw [← one]
  refine ⟨sim _ fun tag => ?_, board _ ⟨?_, fun tag => ?_⟩⟩
  · cases tag <;> rfl
  · simp [oneHeaderFrames]
  · cases tag <;> rfl

end MarketData
