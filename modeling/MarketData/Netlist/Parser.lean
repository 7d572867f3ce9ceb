import MarketData.Netlist.Buffer
import MarketData.Pitch.Format

/-! The software model of the LabVIEW parser: its two step functions and the pcap replay. -/

namespace MarketData

/-- The parser's states, `HDR` and `MSG`. -/
inductive ParserState where
  | hdr
  | msg
  deriving DecidableEq, Repr

/-- One entry of `Parser.out`. -/
structure OutEntry where
  frameNo : Nat
  /-- Offset of the word in its frame. -/
  off : Nat
  len : Nat
  type : Byte
  first8 : List Byte
  deriving DecidableEq, Repr

/-- One entry of `Parser.trace`. -/
structure TraceEntry where
  frameNo : Nat
  off : Nat
  hdrLen : Nat
  L : Nat
  deriving DecidableEq, Repr

/-- The registers of the model parser and the two lists it reports. -/
structure Parser where
  buf : Buf
  L : Nat
  state : ParserState
  total : Nat
  hdrLen : Nat
  out : List OutEntry
  trace : List TraceEntry

/-- `Parser()`: empty buffer, header state. -/
def Parser.fresh : Parser :=
  { buf := Vector.replicate 9 0#64, L := 0, state := .hdr, total := 0, hdrLen := 0,
    out := [], trace := [] }

/-- One element of the FIFO in front of the parser. -/
structure Elem where
  frameNo : Nat
  data8 : Vector Byte 8
  keep : BitVec 8
  valid : Bool
  eof : Bool

/-- The DEBUG record of one element. -/
inductive DebugRecord where
  /-- A parsed header: its length field and buffer word 0. -/
  | hdr (len : Nat) (w0 : Word)
  /-- `0xAAAA`, waiting for header data. -/
  | waiting
  /-- The input word, written in every Read.Msg cycle with data. -/
  | msg (inword : Word)
  deriving DecidableEq, Repr

/-- The buffer and length after the input word, which is appended only when valid. -/
def receive (buf : Buf) (L : Nat) (e : Elem) : Buf × Nat :=
  if e.valid then addDataToBuffer buf L e.data8 e.keep else (buf, L)

/-- `hdr_len` as read from the first two buffer bytes. -/
def headerLength (buf : Buf) : Nat :=
  u16LE (byteAt buf 0) (byteAt buf 1)

/-- `Parser.step_elem`: one FIFO element, and the DEBUG record written for it. -/
def Parser.stepElem (p : Parser) (e : Elem) : Parser × Option DebugRecord :=
  -- The input word is shown in the record as it stands on the wire, appended or not.
  let inword := fromBytesBig e.data8
  let (buf, L) := receive p.buf p.L e
  match p.state with
  | .hdr =>
    -- Read.Hdr: eight bytes are a unit header, which is taken out at once.
    if 8 ≤ L then
      let (buf', L') := compressBuffer buf L 8
      ({ p with buf := buf', L := L', hdrLen := headerLength buf, total := 8, state := .msg },
        some (.hdr (headerLength buf) (buf[0])))
    else ({ p with buf := buf, L := L }, some .waiting)
  | .msg =>
    -- Read.Msg: with an empty buffer no case of the diagram runs, and an eof is not seen.
    if L = 0 then ({ p with buf := buf, L := L }, none)
    else
      let ln := (byteAt buf 0).toNat
      if ln ≤ L then
        let (buf', L') := compressBuffer buf L ln
        -- The byte count of the unit or the eof leads back to the next header.
        let done := decide (p.hdrLen ≤ p.total + ln)
        ({ p with buf := buf', L := L', total := p.total + ln,
                  state := if done || e.eof then .hdr else .msg }, some (.msg inword))
      -- An eof ends the unit here too, but the bytes of the open message stay in the buffer.
      else
        ({ p with buf := buf, L := L, state := if e.eof then .hdr else .msg },
          some (.msg inword))

/-- `Parser.step`: one chunk of a payload, with the word's offset in its frame. -/
def Parser.step (p : Parser) (frameNo off : Nat) (data8 : Vector Byte 8) (keep : BitVec 8)
    (eof : Bool) : Parser :=
  -- Unlike `step_elem` this one appends every chunk.
  let (buf, L) := addDataToBuffer p.buf p.L data8 keep
  match p.state with
  | .hdr =>
    -- Each header leaves an entry in the trace.
    if 8 ≤ L then
      let (buf', L') := compressBuffer buf L 8
      { p with buf := buf', L := L', hdrLen := headerLength buf, total := 8, state := .msg,
               trace := p.trace ++ [⟨frameNo, off, headerLength buf, L⟩] }
    else { p with buf := buf, L := L }
  | .msg =>
    if L = 0 then { p with buf := buf, L := L }
    else
      let ln := (byteAt buf 0).toNat
      let ty := byteAt buf 1
      -- A length byte of zero is never ready here, while `step_elem` takes it.
      if ln ≤ L ∧ 0 < ln then
        let first8 := (List.range 8).map fun i => byteAt buf i
        let (buf', L') := compressBuffer buf L ln
        let done := decide (p.hdrLen ≤ p.total + ln)
        { p with buf := buf', L := L', total := p.total + ln,
                 state := if done || eof then .hdr else .msg,
                 out := p.out ++ [⟨frameNo, off, ln, ty, first8⟩] }
      else { p with buf := buf, L := L, state := if eof then .hdr else .msg }

/-- What an element makes the parser take out of its buffer. -/
inductive Consumption where
  /-- A unit header, with the length field it sets `hdr_len` to. -/
  | header (hdrLen : Nat) (bytes : List Byte)
  /-- One message. -/
  | message (bytes : List Byte)
  deriving DecidableEq, Repr

/-- The bytes taken out of the buffer. -/
def Consumption.bytes : Consumption → List Byte
  | .header _ bytes => bytes
  | .message bytes => bytes

/-- The first `n` bytes of a buffer. -/
def front (buf : Buf) (n : Nat) : List Byte :=
  (List.range n).map fun i => byteAt buf i

/-- The consumption `stepElem` makes on an element, if it reaches `compress_buffer` at all. -/
def Parser.consumption (p : Parser) (e : Elem) : Option Consumption :=
  -- The conditions are those under which `step_elem` calls `compress_buffer`.
  let (buf, L) := receive p.buf p.L e
  match p.state with
  | .hdr => if 8 ≤ L then some (.header (headerLength buf) (front buf 8)) else none
  | .msg =>
    if L = 0 then none
    else
      let ln := (byteAt buf 0).toNat
      if ln ≤ L then some (.message (front buf ln)) else none

/-- The parser after a sequence of elements. -/
def Parser.feed (p : Parser) (es : List Elem) : Parser :=
  es.foldl (fun p e => (p.stepElem e).1) p

/-- The consumptions made along a sequence of elements, in order. -/
def Parser.consumptions : Parser → List Elem → List Consumption
  | _, [] => []
  | p, e :: es => (p.consumption e).toList ++ Parser.consumptions (p.stepElem e).1 es

/-- The splitting loop of `pcap_msgs`: offset, length and type of each message from `o` on.

`none` stands for the `IndexError` of a type byte past the payload, and for a loop that a zero
length byte keeps at one offset until the fuel is gone. -/
def splitMsgs (p : List Byte) : Nat → Nat → Option (List (Nat × Byte × Byte))
  | 0, o => if o < p.length then none else some []
  | fuel + 1, o =>
    if o < p.length then
      match p[o]?, p[o + 1]? with
      | some len, some ty => (splitMsgs p fuel (o + len.toNat)).map ((o, len, ty) :: ·)
      | _, _ => none
    else some []

/-- The messages `pcap_msgs` reads from one payload, past the eight-byte header. -/
def pcapMsgs (p : List Byte) : Option (List (Nat × Byte × Byte)) :=
  splitMsgs p p.length 8

/-- `chunk.ljust(8, b"\0")`. -/
def ljust8 (chunk : List Byte) : Vector Byte 8 :=
  Vector.ofFn fun i => chunk.getD i.val 0#8

/-- The inner loop of `main`: one payload in eight-byte chunks, eof on the last. -/
def Parser.replayFrame (p : Parser) (fno : Nat) (payload : List Byte) : Parser :=
  ((List.range ((payload.length + 7) / 8)).map (8 * ·)).foldl (fun p off =>
    let chunk := (payload.drop off).take 8
    -- The last chunk is filled up with zero bytes, which its keep does not enable.
    p.step fno off (ljust8 chunk) ((1#8 <<< chunk.length) - 1#8)
      (decide (payload.length ≤ off + 8))) p

/-- The replay loop of `main` over all frames, numbered from zero. -/
def replay (payloads : List (List Byte)) : Parser :=
  payloads.zipIdx.foldl (fun p frame => p.replayFrame frame.2 frame.1) Parser.fresh

end MarketData
