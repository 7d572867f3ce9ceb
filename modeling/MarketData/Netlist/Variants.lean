import MarketData.Netlist.Parser

/-! The parser variants of the end-of-frame check: where an eof clears the buffer length. -/

namespace MarketData

/-- The variant parser `P`: which eof clears it has, its registers, and what it reports. -/
structure P where
  /-- Clear when the header is still incomplete on eof. -/
  hdrClear : Bool
  /-- Clear when the message is still incomplete on eof. -/
  msgLtClear : Bool
  buf : Buf
  L : Nat
  state : ParserState
  total : Nat
  hdrLen : Nat
  /-- Frame number and length field of each header. -/
  hdrs : List (Nat × Nat)
  /-- Frame number, length and type of each message. -/
  msgs : List (Nat × Nat × Byte)

/-- `P(hdr_clear, msg_lt_clear)`. -/
def P.fresh (hdrClear msgLtClear : Bool) : P :=
  { hdrClear, msgLtClear, buf := Vector.replicate 9 0#64, L := 0, state := .hdr, total := 0,
    hdrLen := 0, hdrs := [], msgs := [] }

/-- `P.step`: one element, tagged with its frame number. -/
def P.step (p : P) (e : Elem) : P :=
  let (buf, L) := receive p.buf p.L e
  match p.state with
  | .hdr =>
    if 8 ≤ L then
      let (buf', L') := compressBuffer buf L 8
      { p with buf := buf', L := L', hdrLen := headerLength buf,
               hdrs := p.hdrs ++ [(e.frameNo, headerLength buf)], total := 8, state := .msg }
    else if e.eof && p.hdrClear then { p with buf := buf, L := 0 }
    else { p with buf := buf, L := L }
  | .msg =>
    if L = 0 then { p with buf := buf, L := L }
    else
      let ln := (byteAt buf 0).toNat
      let ty := byteAt buf 1
      if ln ≤ L then
        let (buf', L') := compressBuffer buf L ln
        let done := decide (p.hdrLen ≤ p.total + ln)
        let msgs := p.msgs ++ [(e.frameNo, ln, ty)]
        -- A message that completes the frame, or arrives on its last element, clears the length.
        if done || e.eof then
          { p with buf := buf', L := 0, total := p.total + ln, state := .hdr, msgs := msgs }
        else { p with buf := buf', L := L', total := p.total + ln, msgs := msgs }
      else if e.eof then
        { p with buf := buf, L := if p.msgLtClear then 0 else L, state := .hdr }
      else { p with buf := buf, L := L }

/-- The variant after a sequence of elements. -/
def P.feed (p : P) (es : List Elem) : P :=
  es.foldl P.step p

@[simp] theorem P.feed_nil (p : P) : p.feed [] = p := rfl

@[simp] theorem P.feed_cons (p : P) (e : Elem) (es : List Elem) :
    p.feed (e :: es) = (p.step e).feed es := rfl

theorem P.feed_append (p : P) (es later : List Elem) :
    p.feed (es ++ later) = (p.feed es).feed later := by
  -- A fold over both parts.
  simp [P.feed]

end MarketData
