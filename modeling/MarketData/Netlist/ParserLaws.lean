import MarketData.Netlist.BufferLaws
import MarketData.Netlist.Parser

/-! The parser step on byte strings: what each branch does to a packed buffer. -/

namespace MarketData

/-- The bytes an element delivers: its enabled bytes, none when it is not valid. -/
def Elem.bytes (e : Elem) : List Byte :=
  if e.valid then e.data8.toList.take (numOfTrue e.keep) else []

/-- The keep of an element is contiguous from byte 0. -/
def Elem.Contiguous (e : Elem) : Prop :=
  ∃ n, n ≤ 8 ∧ e.keep = lowKeep n

/-- The bytes delivered by a sequence of elements. -/
def received (es : List Elem) : List Byte :=
  es.flatMap Elem.bytes

@[simp] theorem received_nil : received [] = [] := rfl

@[simp] theorem received_cons (e : Elem) (es : List Elem) :
    received (e :: es) = e.bytes ++ received es := rfl

/-- No element delivers more than one word. -/
theorem Elem.bytes_length_le (e : Elem) : e.bytes.length ≤ 8 := by
  -- The data of an element is one word, and taking from it keeps at most that.
  have word : e.data8.toList.length = 8 := e.data8.length_toList
  unfold Elem.bytes
  split
  · rw [List.length_take, word]
    exact Nat.min_le_right _ _
  · exact Nat.zero_le 8

/-- Reading the front of a packed buffer reads the packed bytes. -/
theorem front_pack (bs : List Byte) {n : Nat} (within : n ≤ bs.length) (fits : bs.length ≤ 72) :
    front (pack bs) n = bs.take n := by
  -- Position by position.
  apply List.ext_getElem
  · simp [front]; omega
  · intro i inFront inTake
    have small : i < n := by simpa [front] using inFront
    simp only [front, List.getElem_map, List.getElem_range, List.getElem_take]
    have inside : i < bs.length := by omega
    rw [byteAt_pack _ (by omega)]
    simp [inside]

/-- The header length is read from the first two packed bytes. -/
theorem headerLength_pack (bs : List Byte) :
    headerLength (pack bs) = u16LE (bs.getD 0 0#8) (bs.getD 1 0#8) := by
  -- The two bytes are read off the list.
  simp [headerLength]

/-- An element appends its bytes to a packed buffer. -/
theorem receive_pack (bs : List Byte) (e : Elem) (keep : e.Contiguous)
    (fits : (bs ++ e.bytes).length ≤ 72) :
    receive (pack bs) bs.length e = (pack (bs ++ e.bytes), (bs ++ e.bytes).length) := by
  -- A valid element is appended with its contiguous keep, any other is skipped.
  obtain ⟨n, small, keep⟩ := keep
  unfold receive
  split
  · rename_i valid
    have count : numOfTrue e.keep = n := by rw [keep]; exact numOfTrue_lowKeep small
    have bytes : e.bytes = e.data8.toList.take n := by simp [Elem.bytes, valid, count]
    have length : (bs ++ e.bytes).length = bs.length + n := by
      simp [bytes, Nat.min_eq_left small]
    rw [length] at fits ⊢
    rw [keep, addDataToBuffer_pack bs e.data8 small fits, bytes]
  · rename_i invalid
    simp [Elem.bytes, invalid]

/-- An element that is not valid leaves the buffer alone, whatever its keep. -/
theorem receive_invalid (buf : Buf) (L : Nat) {e : Elem} (invalid : e.valid = false) :
    receive buf L e = (buf, L) := by
  -- The append is skipped.
  simp [receive, invalid]

/-- The parser's buffer holds exactly these bytes. -/
structure Parser.Holding (p : Parser) (bs : List Byte) : Prop where
  buf : p.buf = pack bs
  L : p.L = bs.length

/-- A fresh parser holds nothing. -/
theorem Parser.fresh_holding : Parser.fresh.Holding [] :=
  ⟨by decide, rfl⟩

/-- The buffer after the append of an element holds exactly these bytes. -/
def Parser.Receives (p : Parser) (e : Elem) (bs : List Byte) : Prop :=
  receive p.buf p.L e = (pack bs, bs.length)

/-- A valid element with a contiguous keep is appended to what the parser holds. -/
theorem Parser.Holding.receives {p : Parser} {bs : List Byte} (holding : p.Holding bs) {e : Elem}
    (keep : e.Contiguous) (fits : (bs ++ e.bytes).length ≤ 72) : p.Receives e (bs ++ e.bytes) := by
  -- The append is made on what is held.
  rw [Parser.Receives, holding.buf, holding.L]
  exact receive_pack bs e keep fits

/-- An element that is not valid appends nothing. -/
theorem Parser.Holding.receives_invalid {p : Parser} {bs : List Byte} (holding : p.Holding bs)
    {e : Elem} (invalid : e.valid = false) : p.Receives e bs := by
  -- Nothing is appended to what is held.
  rw [Parser.Receives, receive_invalid _ _ invalid, holding.buf, holding.L]

/-- The consumption of an element is what its step passes to `compressBuffer`. -/
theorem Parser.stepElem_consumption (p : Parser) (e : Elem) :
    ((p.stepElem e).1.buf, (p.stepElem e).1.L) =
      match p.consumption e with
      | none => receive p.buf p.L e
      | some c => compressBuffer (receive p.buf p.L e).1 (receive p.buf p.L e).2 c.bytes.length := by
  -- Both functions branch on the same state and the same lengths.
  unfold Parser.stepElem Parser.consumption
  cases p.state with
  | hdr => simp only; split <;> simp [Consumption.bytes, front]
  | msg =>
    simp only
    split
    · rfl
    · split <;> simp [Consumption.bytes, front]

/-- The header length register changes at header consumptions only, to the length they report. -/
theorem Parser.stepElem_hdrLen (p : Parser) (e : Elem) :
    (p.stepElem e).1.hdrLen =
      match p.consumption e with
      | some (.header n _) => n
      | _ => p.hdrLen := by
  -- Only the branch of a complete header writes the register.
  unfold Parser.stepElem Parser.consumption
  cases p.state with
  | hdr => simp only; split <;> rfl
  | msg =>
    simp only
    split
    · rfl
    · split <;> rfl

/-- The length field recorded by the last header taken out, or an older one if there is none. -/
def recordedLength (older : Nat) (cs : List Consumption) : Nat :=
  cs.foldl (fun n c => match c with | .header len _ => len | .message _ => n) older

/-- Along a run the header length register keeps what the last header recorded. -/
theorem Parser.feed_hdrLen (p : Parser) (es : List Elem) :
    (p.feed es).hdrLen = recordedLength p.hdrLen (p.consumptions es) := by
  -- Induction on the elements, each of which takes out one item at most.
  induction es generalizing p with
  | nil => rfl
  | cons e es ih =>
    have register := p.stepElem_hdrLen e
    rw [show p.feed (e :: es) = (p.stepElem e).1.feed es from rfl, ih, register,
      Parser.consumptions]
    cases p.consumption e with
    | none => rfl
    | some c => cases c <;> rfl

section Steps

variable {p : Parser} {e : Elem} {bs : List Byte}

/-- Waiting for a header only stores the bytes. -/
theorem Parser.stepElem_header_wait (reads : p.Receives e bs) (state : p.state = .hdr)
    (short : bs.length < 8) :
    (p.stepElem e).1 = { p with buf := pack bs, L := bs.length } ∧ p.consumption e = none := by
  -- The branch of an incomplete header stores the bytes.
  rw [Parser.Receives] at reads
  simp [Parser.stepElem, Parser.consumption, reads, state, Nat.not_le.mpr short]

/-- A complete header is taken out, and its length field is stored. -/
theorem Parser.stepElem_header (reads : p.Receives e bs) (state : p.state = .hdr)
    (enough : 8 ≤ bs.length) (room : bs.length ≤ 16) :
    (p.stepElem e).1 =
        { p with buf := pack (bs.drop 8), L := (bs.drop 8).length, total := 8, state := .msg,
                 hdrLen := u16LE (bs.getD 0 0#8) (bs.getD 1 0#8) } ∧
      p.consumption e =
        some (.header (u16LE (bs.getD 0 0#8) (bs.getD 1 0#8)) (bs.take 8)) := by
  rw [Parser.Receives] at reads
  have compressed := compressBuffer_pack_drop bs (by omega) enough (by omega)
  simp [Parser.stepElem, Parser.consumption, reads, state, enough, compressed, headerLength_pack,
    front_pack bs enough (by omega)]

/-- With nothing buffered the message state does nothing at all. -/
theorem Parser.stepElem_msg_empty (reads : p.Receives e []) (state : p.state = .msg) :
    (p.stepElem e).1 = { p with buf := pack [], L := 0 } ∧ p.consumption e = none := by
  -- The early return stores the bytes and writes no record.
  rw [Parser.Receives] at reads
  simp [Parser.stepElem, Parser.consumption, reads, state]

/-- An incomplete message is kept, and the state falls back to the header on eof. -/
theorem Parser.stepElem_msg_wait {b : Byte} {rest : List Byte} (reads : p.Receives e (b :: rest))
    (state : p.state = .msg) (short : (b :: rest).length < b.toNat) :
    (p.stepElem e).1 =
        { p with buf := pack (b :: rest), L := (b :: rest).length,
                 state := if e.eof then .hdr else .msg } ∧
      p.consumption e = none := by
  rw [Parser.Receives] at reads
  have head : byteAt (pack (b :: rest)) 0 = b := by simp
  have waits : ¬ b.toNat ≤ rest.length + 1 := by simpa using short
  simp [Parser.stepElem, Parser.consumption, reads, state, head, waits]

/-- A complete message is taken out, and the state follows the byte count and the eof. -/
theorem Parser.stepElem_msg {b : Byte} {rest : List Byte} (reads : p.Receives e (b :: rest))
    (state : p.state = .msg) (enough : b.toNat ≤ (b :: rest).length)
    (fits : (b :: rest).length ≤ 72) (room : (b :: rest).length ≤ b.toNat + 8) :
    (p.stepElem e).1 =
        { p with buf := pack ((b :: rest).drop b.toNat), L := ((b :: rest).drop b.toNat).length,
                 total := p.total + b.toNat,
                 state := if p.hdrLen ≤ p.total + b.toNat ∨ e.eof = true then .hdr else .msg } ∧
      p.consumption e = some (.message ((b :: rest).take b.toNat)) := by
  -- The length byte is complete, so the front is taken and at most a word is left behind.
  rw [Parser.Receives] at reads
  have head : byteAt (pack (b :: rest)) 0 = b := by simp
  have compressed := compressBuffer_pack_drop (b :: rest) fits enough (by omega)
  have taken := front_pack (b :: rest) enough fits
  have reached : b.toNat ≤ rest.length + 1 := by simpa using enough
  simp only [List.length_cons] at reads compressed
  simp [Parser.stepElem, Parser.consumption, reads, state, head, reached, compressed, taken]

end Steps

end MarketData
