import Mathlib.Algebra.GroupWithZero.Nat
import MarketData.Netlist.Buffer

/-! The NI receive filters in front of the parser, one clock cycle at a time. -/

namespace MarketData

/-- One cycle of a stream interface between two filters. -/
structure Bus where
  data : Vector Byte 8
  valid : Bool
  be : Vector Bool 8
  eog : Bool
  eob : Bool
  deriving DecidableEq

/-- End of frame, good and bad. -/
abbrev Eof := Bool × Bool

/-- `MAC_ADDR`. -/
def macAddr : Vector Byte 6 :=
  #v[0x00, 0x0a, 0x35, 0x18, 0x3c, 0x1f]

/-- `IP_ADDR`. -/
def ipAddr : Vector Byte 4 :=
  #v[10, 0, 1, 14]

/-- `UDP_PORT`. -/
def udpPort : Nat := 8000

/-- Positions in a word of eight, its end among them, are written as numerals. -/
instance neZero_nine : NeZero 9 :=
  ⟨by decide⟩

/-- Eight elements of two words, from position `s` on. -/
def window {α : Type} (s : Fin 9) (old new : Vector α 8) : Vector α 8 :=
  -- Position `s` counts from the front of the old word.
  Vector.ofFn fun i => (old ++ new).get ⟨s.val + i.val, by omega⟩

/-- `Delete From Array(index 0)` and `Build Array(rest, x)`. -/
def rotate {α : Type} {n : Nat} (schedule : Vector α (n + 1)) (x : α) : Vector α (n + 1) :=
  Vector.ofFn fun i => if h : i.val + 1 < n + 1 then schedule.get ⟨i.val + 1, h⟩ else x

/-- The address matches byte by byte, or is broadcast there. -/
def addressMatches {n : Nat} (addr : Vector Byte n) (data : Vector Byte 8) (fits : n ≤ 8) : Bool :=
  -- Each byte is compared alone, so a byte of the address and a broadcast one may be mixed.
  (List.finRange n).all fun i =>
    decide (data.get ⟨i.val, by omega⟩ = addr.get i) ||
      decide (data.get ⟨i.val, by omega⟩ = 0xFF#8)

/-- What the MAC filter does with a word. -/
structure MacRoles where
  dest : Bool
  src : Bool
  eth : Bool
  pd : Bool
  deriving DecidableEq

/-- The roles, or none of them. -/
def MacRoles.gate (g : Bool) (r : MacRoles) : MacRoles :=
  ⟨g && r.dest, g && r.src, g && r.eth, g && r.pd⟩

/-- `MacFilter.SCHED`. -/
def macSched : Vector MacRoles 3 :=
  #v[⟨true, false, false, false⟩, ⟨false, true, true, false⟩, ⟨false, false, false, true⟩]

/-- What is left of the schedule behind the first word of a frame. -/
@[simp] def macSecond : Vector MacRoles 2 :=
  #v[macSched[1], macSched[2]]

/-- What is left of it from the second word on. -/
@[simp] def macPayload : Vector MacRoles 2 :=
  #v[macSched[2], macSched[2]]

/-- States of the MAC filter. -/
inductive MacState where
  | idle
  | waitForLast
  | purge
  deriving DecidableEq

/-- Registers of the MAC filter, named by their feedback nodes. -/
structure MacFilter where
  /-- FSM state. -/
  fb0 : MacState
  fb1 : Bool
  /-- Roles for this cycle. -/
  fb2 : MacRoles
  fb5 : Vector Bool 8
  /-- Data valid out. -/
  fb7 : Bool
  fb8 : Eof
  fb9 : Eof
  fb10 : Eof
  fb19 : Vector Bool 8
  fb20 : Vector Byte 8
  fb21 : Vector Byte 8
  fb22 : Vector Bool 8
  /-- The roles still to be scheduled. -/
  fb23 : Vector MacRoles 2
  fb24 : Vector Byte 8

/-- `MacFilter()`. -/
def MacFilter.fresh : MacFilter where
  fb0 := .idle
  fb1 := false
  fb2 := ⟨false, false, false, false⟩
  fb5 := Vector.replicate 8 false
  fb7 := false
  fb8 := (false, false)
  fb9 := (false, false)
  fb10 := (false, false)
  fb19 := Vector.replicate 8 false
  fb20 := Vector.replicate 8 0
  fb21 := Vector.replicate 8 0
  fb22 := Vector.replicate 8 false
  fb23 := #v[macSched[0], macSched[1]]
  fb24 := Vector.replicate 8 0

/-- `MacFilter.step`: the output comes from the registers, the word enters the history. -/
def MacFilter.step (m : MacFilter) (i : Bus) : MacFilter × Bus :=
  -- What the frame contributes in this cycle, and what the registers show.
  let or4970 := i.eog || i.eob
  let and5266 := i.be.map fun b => b && i.valid
  let out1 := window 6 m.fb21 m.fb20
  let out4 := window 6 m.fb22 m.fb19
  let and5255 := m.fb5.map fun e => e && m.fb7
  let (nxt, rolesNext, schedNext, o1, eofNext) :=
    match m.fb0 with
    -- The first word of a frame decides whether it is for the station.
    | .idle =>
      let and3369 := i.valid && addressMatches macAddr i.data (by decide)
      (if i.valid then MacState.waitForLast else .idle, macSched[0].gate and3369,
        #v[macSched[1], macSched[2]], and3369, (i.eog && and3369, i.eob && and3369))
    -- The flag says whether the frame was; a last word that is longer than six bytes needs a flush.
    | .waitForLast =>
      let and3684 := i.valid && m.fb1
      let case6426 := and5266[6] || and5266[7]
      -- The end of the frame is put out with this word if nothing is to be flushed.
      let c4066 := !case6426 && m.fb1
      (if !m.fb1 then (if or4970 then .idle else .waitForLast)
        else if !or4970 then .waitForLast else if case6426 then .purge else .idle,
        m.fb23[0].gate and3684, rotate m.fb23 macSched[2], m.fb1 && !or4970,
        (i.eog && c4066, i.eob && c4066))
    -- One flush word, with the end of frame of the word before.
    | .purge => (.idle, macSched[2], m.fb23, false, m.fb10)
  -- The history moves on valid words only, the other registers in every cycle.
  ({ fb0 := nxt
     fb1 := o1
     fb2 := rolesNext
     fb5 := out4
     fb7 := m.fb2.pd
     fb8 := eofNext
     fb9 := m.fb8
     fb10 := (i.eog, i.eob)
     fb19 := if i.valid then and5266 else m.fb19
     fb20 := if i.valid then i.data else m.fb20
     fb21 := if i.valid then m.fb20 else m.fb21
     fb22 := if i.valid then m.fb19 else m.fb22
     fb23 := schedNext
     fb24 := out1 },
    { data := m.fb24, valid := m.fb7, be := and5255, eog := m.fb9.1, eob := m.fb9.2 })

/-- States of the subframe finder. -/
inductive SubframeState where
  | idle
  | smallPacket
  | normalWaitForLast
  | smallWaitForLast
  deriving DecidableEq

/-- Registers of the subframe finder. -/
structure FindSubframe where
  fb0 : SubframeState
  fb1 : Bool
  fb5 : Vector Bool 8
  fb6 : Vector Byte 8
  prevEof : Eof

/-- `FindSubframe()`. -/
def FindSubframe.fresh : FindSubframe where
  fb0 := .idle
  fb1 := false
  fb5 := Vector.replicate 8 false
  fb6 := Vector.replicate 8 0
  prevEof := (false, false)

/-- `FindSubframe.step`; `none` is the `NotImplementedError` of the small-packet path. -/
def FindSubframe.step (f : FindSubframe) (i : Bus) : Option (FindSubframe × Bus) :=
  -- Everything is delayed by one cycle, whatever the state.
  let and3713 := (i.eog || i.eob) && i.valid
  let out : Bus :=
    { data := f.fb6, valid := f.fb1, be := f.fb5, eog := f.prevEof.1, eob := f.prevEof.2 }
  let commit (nxt : SubframeState) : FindSubframe :=
    { fb0 := nxt, fb1 := i.valid, fb5 := i.be, fb6 := i.data, prevEof := (i.eog, i.eob) }
  match f.fb0 with
  | .idle =>
    -- The first word of a packet says version 4, and whether the total length is below 46.
    let c861 := decide (i.data[0] = 0x45#8) && i.valid
    let c946 := decide (i.data[2] = 0#8) && decide (i.data[3] < 46#8)
    some (commit (if and3713 then .idle
      else if c861 then (if c946 then .smallPacket else .normalWaitForLast) else .idle), out)
  | .normalWaitForLast =>
    some (commit (if and3713 then .idle else .normalWaitForLast), out)
  | .smallPacket | .smallWaitForLast => none

/-- What the IPv4 filter does with a word. -/
structure Ipv4Roles where
  dip : Bool
  h2 : Bool
  h1 : Bool
  pd : Bool
  adv : Bool
  deriving DecidableEq

/-- The roles, or none of them. -/
def Ipv4Roles.gate (g : Bool) (r : Ipv4Roles) : Ipv4Roles :=
  ⟨g && r.dip, g && r.h2, g && r.h1, g && r.pd, g && r.adv⟩

/-- `Ipv4Filter.SCHED`. -/
def ipv4Sched : Vector Ipv4Roles 4 :=
  #v[⟨false, false, true, false, true⟩, ⟨false, true, false, false, true⟩,
    ⟨true, false, false, false, true⟩, ⟨false, false, false, true, false⟩]

/-- The roles of the first header word. -/
@[simp] def ipv4First : Ipv4Roles :=
  ipv4Sched[0]

/-- What is left of the schedule behind the first header word. -/
@[simp] def ipv4Second : Vector Ipv4Roles 3 :=
  #v[ipv4Sched[1], ipv4Sched[2], ipv4Sched[3]]

/-- What is left of it behind the second header word. -/
@[simp] def ipv4Third : Vector Ipv4Roles 3 :=
  #v[ipv4Sched[2], ipv4Sched[3], ipv4Sched[3]]

/-- What is left of it from the third header word on. -/
@[simp] def ipv4Payload : Vector Ipv4Roles 3 :=
  #v[ipv4Sched[3], ipv4Sched[3], ipv4Sched[3]]

/-- States of the IPv4 filter. -/
inductive Ipv4State where
  | waitForFirst
  | waitForSecond
  | waitForThird
  | waitForLast
  | purge
  deriving DecidableEq

/-- Registers of the IPv4 filter, named by their feedback nodes. -/
structure Ipv4Filter where
  /-- FSM state. -/
  fb0 : Ipv4State
  fb1 : Bool
  /-- Roles for this cycle. -/
  fb2 : Ipv4Roles
  /-- Latched destination address. -/
  fb3 : Vector Byte 4
  /-- Latched second header word. -/
  fb4 : Vector Byte 8
  /-- Latched first header word. -/
  fb5 : Vector Byte 8
  /-- Data valid out. -/
  fb6 : Bool
  fb7 : Eof
  fb8 : Eof
  fb9 : Eof
  fb18 : Vector Byte 8
  fb19 : Vector Byte 8
  fb20 : Vector Bool 8
  fb21 : Vector Bool 8
  /-- The roles still to be scheduled. -/
  fb22 : Vector Ipv4Roles 3
  fb23 : Vector Byte 8
  fb24 : Vector Bool 8

/-- `Ipv4Filter()`. -/
def Ipv4Filter.fresh : Ipv4Filter where
  fb0 := .waitForFirst
  fb1 := false
  fb2 := ⟨false, false, false, false, false⟩
  fb3 := Vector.replicate 4 0
  fb4 := Vector.replicate 8 0
  fb5 := Vector.replicate 8 0
  fb6 := false
  fb7 := (false, false)
  fb8 := (false, false)
  fb9 := (false, false)
  fb18 := Vector.replicate 8 0
  fb19 := Vector.replicate 8 0
  fb20 := Vector.replicate 8 false
  fb21 := Vector.replicate 8 false
  fb22 := #v[ipv4Sched[0], ipv4Sched[1], ipv4Sched[2]]
  fb23 := Vector.replicate 8 0
  fb24 := Vector.replicate 8 false

/-- The IPv4 header fields passed on beside the data. -/
structure Ipv4Header where
  totalLen : Nat
  ident : Nat
  flags : Nat
  frag : Nat
  proto : Byte
  dstIp : Vector Byte 4
  deriving DecidableEq

/-- `Ipv4Filter.header`: the fields in the latched header words. -/
def Ipv4Filter.header (f : Ipv4Filter) : Ipv4Header :=
  let w0 := f.fb5
  let w1 := f.fb4
  { totalLen := (w0[2].toNat <<< 8) ||| w0[3].toNat
    ident := (w0[4].toNat <<< 8) ||| w0[5].toNat
    flags := (w0[6].toNat >>> 5) &&& 7
    frag := ((w0[6].toNat &&& 0x1F) <<< 8) ||| w0[7].toNat
    proto := w1[1]
    dstIp := f.fb3 }

/-- `Ipv4Filter.step`: the output comes from the registers, the word enters the history. -/
def Ipv4Filter.step (f : Ipv4Filter) (i : Bus) : Ipv4Filter × Bus × Ipv4Header :=
  -- The last four lanes of a word go out with the next one.
  let or6746 := i.eog || i.eob
  let lanes9712 := i.be[4] || i.be[5] || i.be[6] || i.be[7]
  let (nxt, roles, sched, o1, eofO) :=
    match f.fb0 with
    -- Only a word that starts with version 4 and a header of five words is a first header word.
    | .waitForFirst =>
      let eq := decide (i.data[0] = 0x45#8)
      let s4976 := if i.valid then (if eq then Ipv4State.waitForSecond else .waitForLast)
        else .waitForFirst
      (if or6746 then Ipv4State.waitForFirst else s4976, ipv4Sched[0].gate (i.valid && eq),
        #v[ipv4Sched[1], ipv4Sched[2], ipv4Sched[3]], false, (false, false))
    -- A gap uses up its place in the schedule, since the schedule is rotated in every cycle.
    | .waitForSecond =>
      let and5031 := i.valid && f.fb22[0].adv
      (if or6746 then .waitForFirst else if and5031 then .waitForThird else .waitForSecond,
        f.fb22[0].gate i.valid, rotate f.fb22 ipv4Sched[3], false, (false, false))
    -- The third header word has the destination address in its first lanes.
    | .waitForThird =>
      let and10255 := i.valid && f.fb22[0].adv
      let and5334 := and10255 && addressMatches ipAddr i.data (by decide)
      (if or6746 then .waitForThird else if and10255 then .waitForLast else .waitForThird,
        f.fb22[0].gate and5334, rotate f.fb22 ipv4Sched[3], and5334,
        (i.eog && and5334, i.eob && and5334))
    -- The flag says whether the packet is for the station; what is left behind its end needs a
    -- flush.
    | .waitForLast =>
      let and5666 := i.valid && f.fb1
      let c5955 := !lanes9712 && f.fb1
      (if !f.fb1 then (if or6746 then .waitForFirst else .waitForLast)
        else if !or6746 then .waitForLast else if lanes9712 then .purge else .waitForFirst,
        f.fb22[0].gate and5666, rotate f.fb22 ipv4Sched[3], f.fb1,
        (i.eog && c5955, i.eob && c5955))
    -- One flush word, with the end of frame of the word before.
    | .purge =>
      (.waitForFirst, ipv4Sched[3], #v[ipv4Sched[1], ipv4Sched[2], ipv4Sched[3]], false, f.fb9)
  ({ fb0 := nxt
     fb1 := o1
     fb2 := roles
     -- The header registers latch while the matching role is active in this cycle.
     fb3 := if f.fb2.dip then Vector.ofFn fun k => (f.fb18).get ⟨k.val, by omega⟩ else f.fb3
     fb4 := if f.fb2.h2 then f.fb18 else f.fb4
     fb5 := if f.fb2.h1 then f.fb18 else f.fb5
     fb6 := f.fb2.pd
     fb7 := eofO
     fb8 := f.fb7
     fb9 := (i.eog, i.eob)
     fb18 := i.data
     fb19 := f.fb18
     fb20 := i.be
     fb21 := f.fb20
     fb22 := sched
     fb23 := window 4 f.fb19 f.fb18
     fb24 := window 4 f.fb21 f.fb20 },
    { data := f.fb23, valid := f.fb6, be := f.fb24, eog := f.fb8.1, eob := f.fb8.2 }, f.header)

/-- Registers of the UDP receive state machine. -/
structure UdpRx where
  /-- The current packet was accepted. -/
  fb0 : Bool
  /-- A packet is active. -/
  fb2 : Bool
  /-- The identification of the word before. -/
  fb3 : Nat
  /-- Fragments are expected. -/
  fb4 : Bool

/-- `UdpRx()`. -/
def UdpRx.fresh : UdpRx :=
  ⟨false, false, 0, false⟩

/-- The destination port in the word that holds the UDP header. -/
@[simp] def destinationPort (data : Vector Byte 8) : Nat :=
  (data[2].toNat <<< 8) ||| data[3].toNat

/-- `UdpRx.step`: the first word of a packet is its UDP header and is not passed on. -/
def UdpRx.step (u : UdpRx) (i : Bus) (hdr : Ipv4Header) : UdpRx × Bus :=
  let dport := (i.data[2].toNat <<< 8) ||| i.data[3].toNat
  -- The first fragment of a datagram for the port is accepted by its header.
  let c282 := decide (dport = udpPort) && decide (hdr.proto = 17#8) && decide (hdr.frag = 0)
  -- A later fragment is accepted by its identification, if fragments are expected.
  let or3306 := c282 || (u.fb4 && decide (hdr.ident = u.fb3))
  let moreFrag := decide ((hdr.flags >>> 0) &&& 1 ≠ 0)
  let eofAny := i.eog || i.eob
  let (o0, o2, o3, o5) :=
    -- The first word of a packet: it is the UDP header only if the packet was accepted by it.
    if !u.fb2 then
      let c1291 := i.valid && !eofAny
      let c317 := i.valid && or3306
      if c317 then (c317, c1291, !c282, moreFrag) else (c317, c1291, false, u.fb4)
    else
      -- A further word is passed on if the packet was accepted, and its end closes the packet.
      let and886 := i.valid && eofAny
      (u.fb0, if and886 then false else u.fb2, u.fb0 && i.valid, u.fb4)
  ({ fb0 := o0, fb2 := o2, fb3 := hdr.ident, fb4 := o5 },
    { data := i.data, valid := o3, be := i.be, eog := i.eog && o0, eob := i.eob && o0 })

/-- The four stages in a row. -/
structure RxPath where
  mac : MacFilter
  sub : FindSubframe
  ip4 : Ipv4Filter
  udp : UdpRx

/-- The stages as constructed. -/
def RxPath.fresh : RxPath :=
  ⟨.fresh, .fresh, .fresh, .fresh⟩

/-- One cycle of the four stages, each fed with the output of the one before. -/
def RxPath.step (c : RxPath) (i : Bus) : Option (RxPath × Bus) :=
  -- All stages are clocked at once; each sees what the one before puts out in this cycle.
  let (mac, o) := c.mac.step i
  match c.sub.step o with
  | none => none
  | some (sub, o) =>
    let (ip4, o, hdr) := c.ip4.step o
    let (udp, o) := c.udp.step o hdr
    some (⟨mac, sub, ip4, udp⟩, o)

end MarketData
