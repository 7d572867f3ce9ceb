import MarketData.Lib.Numerals

/-! The pollers of a capture FIFO, one register access at a time. -/

namespace MarketData.Server

/-- A word on its way into the FIFO; the last word of a frame brings the byte length with it. -/
structure RxBeat where
  word : BitVec 32
  last : Option (BitVec 32)

/-- The receive side of the FIFO core behind the width converter, and what will still arrive. -/
structure RxFifo where
  coming : List RxBeat
  words : List (BitVec 32)
  lens : List (BitVec 32)

/-- The next word arrives. -/
def RxFifo.arrive (f : RxFifo) : RxFifo :=
  match f.coming with
  | [] => f
  | b :: coming =>
    -- The length of a frame can be read from its last word on.
    { coming, words := f.words ++ [b.word], lens := f.lens ++ b.last.toList }

/-- `FIFO_RDFO`: the words that are present. -/
def RxFifo.rdfo (f : RxFifo) : Nat :=
  f.words.length

/-- Reading `FIFO_RLR` pops the length of a complete frame and gives zero when there is none. -/
def RxFifo.rlr (f : RxFifo) : BitVec 32 × RxFifo :=
  (f.lens.headD 0, { f with lens := f.lens.tail })

/-- Reading `FIFO_AXI4_RDFD` pops a word; of an empty FIFO nothing is known about the data. -/
def RxFifo.rdfd (f : RxFifo) (junk : BitVec 32) : BitVec 32 × RxFifo :=
  (f.words.headD junk, { f with words := f.words.tail })

/-- `FIFO_RDFR`: the resynchronising reset drops what is present. -/
def RxFifo.reset (f : RxFifo) : RxFifo :=
  { f with words := [], lens := [] }

/-- Where a poller stands in its loop. -/
inductive At where
  /-- Before it reads the occupancy. -/
  | head
  /-- Before it reads the length. -/
  | occupied
  /-- Among the data reads, with the words built so far and the first half of the next one. -/
  | reading (len : Nat) (isPartial : Bool) (words : List (BitVec 64)) (lo : Option (BitVec 32))

/-- What the pollers differ in: their frame counter and what they emit for a frame. -/
structure Emitter (count out : Type) where
  zero : count
  next : count → count
  emit : count → List (BitVec 64) → Nat → Bool → out

/-- A FIFO, its poller and what the poller has emitted. -/
structure Polled (count out : Type) where
  fifo : RxFifo
  stage : At
  frame : count
  emitted : List out
  resets : Nat

/-- A step: a word arrives, or the poller makes its next register access. -/
inductive PollAction where
  | arrive
  | poll (junk : BitVec 32)
  deriving DecidableEq

section Loop

variable {count out : Type}

/-- The 64-bit words that are read for a frame of so many bytes. -/
def nwords (len : Nat) : Nat :=
  (len + 7) / 8

/-- Two data reads rebuild one beat of the stream. -/
def join (lo hi : BitVec 32) : BitVec 64 :=
  lo.setWidth 64 ||| hi.setWidth 64 <<< 32

/-- The next register access in the loop of `fifo_poller`. -/
def Emitter.poll (e : Emitter count out) (s : Polled count out) (junk : BitVec 32) :
    Polled count out :=
  match s.stage with
  -- An empty FIFO is polled again.
  | .head => if s.fifo.rdfo = 0 then s else { s with stage := .occupied }
  | .occupied =>
    let (rlr, fifo) := s.fifo.rlr
    -- Words are present, but no complete frame.
    if rlr = 0 then { s with fifo, stage := .head }
    else
      -- The top bit says that the frame is not complete yet, the other bits are its length.
      let len := (rlr &&& 0x7FFFFFFF#32).toNat
      let isPartial := rlr.msb
      -- No frame exceeds the FIFO, so such a length means that sync was lost.
      if len = 0 ∨ 4096 < len then
        { s with fifo := fifo.reset, stage := .head, resets := s.resets + 1 }
      else { s with fifo, stage := .reading len isPartial [] none }
  | .reading len isPartial words none =>
    let (lo, fifo) := s.fifo.rdfd junk
    { s with fifo, stage := .reading len isPartial words (some lo) }
  -- Both halves are there, and the frame is emitted with its last word.
  | .reading len isPartial words (some lo) =>
    let (hi, fifo) := s.fifo.rdfd junk
    let words := words ++ [join lo hi]
    if words.length < nwords len then { s with fifo, stage := .reading len isPartial words none }
    else
      let frame := e.next s.frame
      { s with
        fifo, stage := .head, frame, emitted := s.emitted ++ [e.emit frame words len isPartial] }

/-- One step. -/
def Emitter.step (e : Emitter count out) (s : Polled count out) : PollAction → Polled count out
  | .arrive => { s with fifo := s.fifo.arrive }
  | .poll junk => e.poll s junk

/-- The state after a sequence of steps. -/
def Emitter.run (e : Emitter count out) (s : Polled count out) (acts : List PollAction) :
    Polled count out :=
  acts.foldl e.step s

/-- A poller behind its initial reset, with these words to come. -/
def Emitter.start (e : Emitter count out) (coming : List RxBeat) : Polled count out :=
  -- The loop begins behind the reset of both sides of the FIFO.
  ⟨⟨coming, [], []⟩, .head, e.zero, [], 0⟩

end Loop

/-- What the line of a frame holds, its time stamp apart. -/
structure FrameLine (count : Type) where
  fifo : String
  frame : count
  len : Nat
  isPartial : Bool
  data : List Char
  deriving DecidableEq

/-- A frame as it is printed: for every eight bytes their offset and their digits. -/
structure FrameDump where
  tag : String
  frame : BitVec 32
  len : Nat
  isPartial : Bool
  rows : List (Nat × List Char)
  deriving DecidableEq

/-- `hexd`: the digits of the hexadecimal output. -/
def hexd : List Char :=
  ['0', '1', '2', '3', '4', '5', '6', '7', '8', '9', 'a', 'b', 'c', 'd', 'e', 'f']

/-- The two digits of a byte. -/
def hexByte (b : Byte) : List Char :=
  [hexd.getD (b >>> 4).toNat '0', hexd.getD (b &&& 0xf#8).toNat '0']

/-- The digits are those of every other printer of bytes. -/
theorem hexByte_eq (b : Byte) : hexByte b = byteDigits b := by
  -- Both halves are below sixteen.
  have digit : ∀ m : Fin 16, hexd.getD m.val '0' = m.val.digitChar := by decide
  obtain ⟨high, low⟩ := byte_halves b
  have upper : (b >>> 4).toNat = b.toNat / 16 := by
    rw [BitVec.toNat_ushiftRight, Nat.shiftRight_eq_div_pow]
  have lower : (b &&& 0xf#8).toNat = b.toNat % 16 := by
    rw [BitVec.toNat_and]
    exact Nat.and_two_pow_sub_one_eq_mod b.toNat 4
  rw [hexByte, byteDigits, upper, lower, digit ⟨_, high⟩, digit ⟨_, low⟩]

/-- `json_frame`: the line of a frame, its bytes read out of the words one by one. -/
def jsonFrame (tag : String) (frame : BitVec 32) (words : List (BitVec 64)) (len : Nat)
    (isPartial : Bool) : FrameLine (BitVec 32) :=
  { fifo := tag, frame, len, isPartial,
    data := (List.range len).flatMap fun i => hexByte (byteLEAt 8 words i) }

/-- `print_frame`: the dump of a frame, eight bytes a row. -/
def printFrame (tag : String) (frame : BitVec 32) (words : List (BitVec 64)) (len : Nat)
    (isPartial : Bool) : FrameDump :=
  { tag, frame, len, isPartial,
    rows := (List.range ((len + 7) / 8)).map fun r =>
      (8 * r, (List.range (min (len - 8 * r) 8)).flatMap fun i =>
        hexByte (byteLE (words.getD r 0) i)) }

/-- `fifo_poller` with a broker: a name and a line are published for every frame. -/
def fifoPoller (name tag : String) : Emitter (BitVec 32) (String × FrameLine (BitVec 32)) where
  zero := 0
  next frame := frame + 1
  emit frame words len isPartial := (name, jsonFrame tag frame words len isPartial)

/-- `fifo_poller` without a broker: every frame is printed. -/
def fifoPollerPrint (tag : String) : Emitter (BitVec 32) FrameDump where
  zero := 0
  next frame := frame + 1
  emit := printFrame tag

/-- The `fifo_poller` of `fifo_server.py`; the packed words are one byte string. -/
def fifoPollerPy (name tag : String) : Emitter Nat (String × FrameLine Nat) where
  zero := 0
  next frame := frame + 1
  emit frame words len isPartial :=
    let raw := words.flatMap (bytesLE 8)
    -- The digits are those of the bytes up to the length, the fill bytes of the last word apart.
    (name, { fifo := tag, frame, len, isPartial, data := (raw.take len).flatMap hexByte })

end MarketData.Server
