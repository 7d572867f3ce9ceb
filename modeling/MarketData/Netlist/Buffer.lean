import MarketData.Lib.WordBytes

/-! The buffer path of the parser model: append an input word, drop a consumed front. -/

namespace MarketData

/-- The unsigned 64-bit word the LabVIEW buffer is made of. -/
abbrev Word := BitVec 64

/-- The parser buffer `[U64] x 9` (`NB` is 9), byte 0 in the top of word 0. -/
abbrev Buf := Vector Word 9

/-- `rotr(x, bits)`: rotation of a 64-bit word to the right. -/
def rotr (x : Word) (bits : Nat) : Word :=
  let bits := bits % 64
  (x >>> bits) ||| (x <<< (64 - bits))

/-- `bin(keep).count("1")` on an eight-bit keep. -/
def numOfTrue (keep : BitVec 8) : Nat :=
  (List.range 8).countP fun i => keep.getLsbD i

/-- `int.from_bytes(data8, "big")`: byte 0 in the top of the word. -/
def fromBytesBig (data8 : Vector Byte 8) : Word :=
  wordOfBytes data8.toList

/-- `zero_out_and_convert`: the word with bytes beyond the keep count zeroed, and that count. -/
def zeroOutAndConvert (data8 : Vector Byte 8) (keep : BitVec 8) : Word × Nat :=
  let n := numOfTrue keep
  let u := fromBytesBig data8
  if n = 8 then (u, n)
  else
    let mask := ((1#64 <<< (8 * n)) - 1#64) <<< (8 * (8 - n))
    (u &&& mask, n)

/-- `add_data_to_buffer`, data valid assumed true. -/
def addDataToBuffer (buf : Buf) (L : Nat) (data8 : Vector Byte 8) (keep : BitVec 8) :
    Buf × Nat :=
  let (u, n) := zeroOutAndConvert data8 keep
  let idx := L / 8
  let r := L % 8
  if r = 0 then
    if n = 0 then (buf, L)
    -- Replace Array Subset: an index out of range changes nothing.
    else (buf.setIfInBounds idx u, (L + n) % 256)
  else
    let rot := rotr u (8 * r)
    let mask := (1#64 <<< (8 * (8 - r))) - 1#64
    -- The old word takes the new bytes, and the rotated tail starts the next word.
    let buf := buf.setIfInBounds idx ((buf[idx]?.getD 0#64) ||| (rot &&& mask))
    let buf := buf.setIfInBounds (idx + 1) (rot &&& ~~~mask)
    (buf, (L + n) % 256)

/-- `compress_buffer`: drop `start` bytes, keep the rest at word 0. -/
def compressBuffer (buf : Buf) (L start : Nat) : Buf × Nat :=
  let diff := (((L : Int) - start) % 256).toNat
  let s := start % 8
  let widx := start / 8
  let b := L % 8
  let out : Buf := Vector.replicate 9 0#64
  if s = 0 then
    if diff = 0 then (out, diff)
    else
      let w := buf[widx]?.getD 0#64
      -- U8 arithmetic as in LabVIEW: the shift wraps once more than eight bytes are left.
      let sh := ((((8 : Int) - diff) % 256).toNat * 8) % 256
      let m := (1#64 <<< (8 * min diff 8)) - 1#64
      (out.setIfInBounds 0 (w &&& (if sh < 64 then m <<< sh else 0#64)), diff)
  else
    let w0 := buf[widx]?.getD 0#64
    let w1 := buf[widx + 1]?.getD 0#64
    let mLow := (1#64 <<< (8 * (8 - s))) - 1#64
    let part0 := (w0 &&& mLow) <<< (8 * s)
    let mTop := ((1#64 <<< (8 * b)) - 1#64) <<< (8 * (8 - b))
    let part1 := (w1 &&& mTop) >>> (8 * (8 - s))
    (out.setIfInBounds 0 (part0 ||| part1), diff)

/-- `byte_at`: buffer byte `i`, which every caller takes below the buffer's 72 bytes. -/
def byteAt (buf : Buf) (i : Nat) : Byte :=
  ((buf[i / 8]?.getD 0#64) >>> (8 * (7 - i % 8))).setWidth 8

end MarketData
