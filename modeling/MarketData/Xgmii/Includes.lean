import MarketData.Lib.LittleEndian

/-! `xgmii_includes.vh`: the characters of the interface, and the checksum in parallel equations. -/

namespace MarketData.Xgmii

/-- Start of a frame. -/
def S : Byte :=
  0xFB#8

/-- End of a frame. -/
def T : Byte :=
  0xFD#8

/-- An error. -/
def E : Byte :=
  0xFE#8

/-- Idle. -/
def I : Byte :=
  0x07#8

/-- `PREAMBLE_LANE0_D`. -/
def preambleLane0D : BitVec 64 :=
  0xD5555555555555#56 ++ S

/-- `PREAMBLE_LANE0_C`. -/
def preambleLane0C : BitVec 8 :=
  0x01#8

/-- `PREAMBLE_LANE4_D`. -/
def preambleLane4D : BitVec 64 :=
  0x555555#24 ++ S ++ I.replicate 4

/-- `PREAMBLE_LANE4_C`. -/
def preambleLane4C : BitVec 8 :=
  0x1F#8

/-- `PREAMBLE_LANE4_END_D`. -/
def preambleLane4EndD : BitVec 32 :=
  0xD5555555#32

/-- `PREAMBLE_LANE4_END_C`. -/
def preambleLane4EndC : BitVec 8 :=
  0#8

/-- `QW_IDLE_D`. -/
def qwIdleD : BitVec 64 :=
  I.replicate 8

/-- `QW_IDLE_C`. -/
def qwIdleC : BitVec 8 :=
  0xFF#8

/-- `XGMII_ERROR_L0_D`. -/
def xgmiiErrorL0D : Byte :=
  E

/-- `XGMII_ERROR_L0_C`. -/
def xgmiiErrorL0C : BitVec 8 :=
  0x01#8

/-- `XGMII_ERROR_L4_D`. -/
def xgmiiErrorL4D : Byte :=
  E

/-- `XGMII_ERROR_L4_C`. -/
def xgmiiErrorL4C : BitVec 8 :=
  0x10#8

/-- `CRC802_3_PRESET`. -/
def crcPreset : BitVec 32 :=
  0xFFFFFFFF#32

/-- `sof_lane0`. -/
def sofLane0 (d : BitVec 64) (c : BitVec 8) : Bool :=
  decide (d.extractLsb' 0 8 = S) && c.getLsbD 0

/-- `sof_lane4`. -/
def sofLane4 (d : BitVec 64) (c : BitVec 8) : Bool :=
  decide (d.extractLsb' 32 8 = S) && c.getLsbD 4

/-- `crc_rev`: `o[i] = crc[31-i]`. -/
def crcRev (crc : BitVec 32) : BitVec 32 :=
  crc.reverse

/-- `is_tchar`. -/
def isTchar (b : Byte) : Bool :=
  decide (b = T)

/-- The exclusive or of all bits. -/
def parity {w : Nat} (x : BitVec w) : Bool :=
  (List.range w).foldr (fun i p => x.getLsbD i ^^ p) false

/-- The word with a given bit in each place. -/
def ofBits : (n : Nat) → (Nat → Bool) → BitVec n
  | 0, _ => 0#0
  | n + 1, bit => BitVec.cons (bit n) (ofBits n bit)

/-- One equation `o[i] = …`: `c[j]` is a term if bit `j` of `c` is set, and so is `d[j]` with `d`. -/
structure Terms (w : Nat) where
  c : BitVec 32
  d : BitVec w
  deriving DecidableEq

/-- The exclusive or of the terms. -/
def Terms.value {w : Nat} (c : BitVec 32) (d : BitVec w) (terms : Terms w) : Bool :=
  parity (terms.c &&& c) ^^ parity (terms.d &&& d)

/-- All equations of a checksum function at once. -/
def parallel {w : Nat} (rows : List (Terms w)) (c : BitVec 32) (d : BitVec w) : BitVec 32 :=
  ofBits 32 fun i => (rows.getD i ⟨0, 0⟩).value c d

/-- The equations of `crc8B`, from `o[0]` to `o[31]`. -/
def crc8BTerms : List (Terms 64) :=
  [⟨0xB4E5B025, 0x826880EFA40DA72D⟩, ⟨0xDD2ED06E, 0xC35CC098760B74BB⟩,
    ⟨0x0EB810F9, 0xE3C6E0A39F081D70⟩, ⟨0x1D7021F3, 0x71E37051CF840EB8⟩,
    ⟨0x8E05F3C2, 0xBA9938C743CFA071⟩, ⟨0xA8EE57A0, 0xDF241C8C05EA7715⟩,
    ⟨0x51DCAF40, 0x6F920E4602F53B8A⟩, ⟨0x175CEEA5, 0xB5A187CCA5773AE8⟩,
    ⟨0x9A5C6D6F, 0xD8B84309F6B63A59⟩, ⟨0x34B8DADF, 0x6C5C2184FB5B1D2C⟩,
    ⟨0xDD94059B, 0xB446902DD9A029BB⟩, ⟨0x0FCDBB12, 0xD84BC8F948DDB3F0⟩,
    ⟨0xAB7EC600, 0xEE4D649300637ED5⟩, ⟨0x56FD8C01, 0x7726B2498031BF6A⟩,
    ⟨0xADFB1803, 0x3B935924C018DFB5⟩, ⟨0x5BF63006, 0x1DC9AC92600C6FDA⟩,
    ⟨0x0309D029, 0x8C8C56A6940B90C0⟩, ⟨0x0613A052, 0x46462B534A05C860⟩,
    ⟨0x0C2740A5, 0x232315A9A502E430⟩, ⟨0x184E814B, 0x11918AD4D2817218⟩,
    ⟨0x309D0296, 0x08C8C56A6940B90C⟩, ⟨0x613A052C, 0x046462B534A05C86⟩,
    ⟨0x7691BA7C, 0x805AB1B53E5D896E⟩, ⟨0x59C6C4DC, 0xC245D8353B23639A⟩,
    ⟨0xB38D89B9, 0x6122EC1A9D91B1CD⟩, ⟨0x671B1372, 0x3091760D4EC8D8E6⟩,
    ⟨0x7AD396C0, 0x9A203BE90369CB5E⟩, ⟨0xF5A72D81, 0x4D101DF481B4E5AF⟩,
    ⟨0xEB4E5B02, 0x26880EFA40DA72D7⟩, ⟨0xD69CB604, 0x1344077D206D396B⟩,
    ⟨0xAD396C09, 0x09A203BE90369CB5⟩, ⟨0x5A72D812, 0x04D101DF481B4E5A⟩]

/-- `crc8B`. -/
def crc8B (c : BitVec 32) (d : BitVec 64) : BitVec 32 :=
  parallel crc8BTerms c d

/-- The equations of `crc7B`, from `o[0]` to `o[31]`. -/
def crc7BTerms : List (Terms 56) :=
  [⟨0xE5B025F7, 0x826880EFA40DA7⟩, ⟨0x2ED06E19, 0xC35CC098760B74⟩, ⟨0xB810F9C5, 0xE3C6E0A39F081D⟩,
    ⟨0x7021F38A, 0x71E37051CF840E⟩, ⟨0x05F3C2E3, 0xBA9938C743CFA0⟩, ⟨0xEE57A031, 0xDF241C8C05EA77⟩,
    ⟨0xDCAF4062, 0x6F920E4602F53B⟩, ⟨0x5CEEA533, 0xB5A187CCA5773A⟩, ⟨0x5C6D6F90, 0xD8B84309F6B63A⟩,
    ⟨0xB8DADF21, 0x6C5C2184FB5B1D⟩, ⟨0x94059BB4, 0xB446902DD9A029⟩, ⟨0xCDBB129F, 0xD84BC8F948DDB3⟩,
    ⟨0x7EC600C9, 0xEE4D649300637E⟩, ⟨0xFD8C0192, 0x7726B2498031BF⟩, ⟨0xFB180324, 0x3B935924C018DF⟩,
    ⟨0xF6300649, 0x1DC9AC92600C6F⟩, ⟨0x09D02965, 0x8C8C56A6940B90⟩, ⟨0x13A052CA, 0x46462B534A05C8⟩,
    ⟨0x2740A595, 0x232315A9A502E4⟩, ⟨0x4E814B2B, 0x11918AD4D28172⟩, ⟨0x9D029656, 0x08C8C56A6940B9⟩,
    ⟨0x3A052CAD, 0x046462B534A05C⟩, ⟨0x91BA7CAD, 0x805AB1B53E5D89⟩, ⟨0xC6C4DCAC, 0xC245D8353B2363⟩,
    ⟨0x8D89B958, 0x6122EC1A9D91B1⟩, ⟨0x1B1372B0, 0x3091760D4EC8D8⟩, ⟨0xD396C097, 0x9A203BE90369CB⟩,
    ⟨0xA72D812F, 0x4D101DF481B4E5⟩, ⟨0x4E5B025F, 0x26880EFA40DA72⟩, ⟨0x9CB604BE, 0x1344077D206D39⟩,
    ⟨0x396C097D, 0x09A203BE90369C⟩, ⟨0x72D812FB, 0x04D101DF481B4E⟩]

/-- `crc7B`. -/
def crc7B (c : BitVec 32) (d : BitVec 56) : BitVec 32 :=
  parallel crc7BTerms c d

/-- The equations of `crc6B`, from `o[0]` to `o[31]`. -/
def crc6BTerms : List (Terms 48) :=
  [⟨0xB025F701, 0x826880EFA40D⟩, ⟨0xD06E1903, 0xC35CC098760B⟩, ⟨0x10F9C507, 0xE3C6E0A39F08⟩,
    ⟨0x21F38A0E, 0x71E37051CF84⟩, ⟨0xF3C2E31C, 0xBA9938C743CF⟩, ⟨0x57A03138, 0xDF241C8C05EA⟩,
    ⟨0xAF406270, 0x6F920E4602F5⟩, ⟨0xEEA533E1, 0xB5A187CCA577⟩, ⟨0x6D6F90C2, 0xD8B84309F6B6⟩,
    ⟨0xDADF2184, 0x6C5C2184FB5B⟩, ⟨0x059BB409, 0xB446902DD9A0⟩, ⟨0xBB129F13, 0xD84BC8F948DD⟩,
    ⟨0xC600C926, 0xEE4D64930063⟩, ⟨0x8C01924D, 0x7726B2498031⟩, ⟨0x1803249A, 0x3B935924C018⟩,
    ⟨0x30064935, 0x1DC9AC92600C⟩, ⟨0xD029656A, 0x8C8C56A6940B⟩, ⟨0xA052CAD4, 0x46462B534A05⟩,
    ⟨0x40A595A8, 0x232315A9A502⟩, ⟨0x814B2B51, 0x11918AD4D281⟩, ⟨0x029656A3, 0x08C8C56A6940⟩,
    ⟨0x052CAD46, 0x046462B534A0⟩, ⟨0xBA7CAD8D, 0x805AB1B53E5D⟩, ⟨0xC4DCAC1B, 0xC245D8353B23⟩,
    ⟨0x89B95837, 0x6122EC1A9D91⟩, ⟨0x1372B06E, 0x3091760D4EC8⟩, ⟨0x96C097DC, 0x9A203BE90369⟩,
    ⟨0x2D812FB8, 0x4D101DF481B4⟩, ⟨0x5B025F70, 0x26880EFA40DA⟩, ⟨0xB604BEE0, 0x1344077D206D⟩,
    ⟨0x6C097DC0, 0x09A203BE9036⟩, ⟨0xD812FB80, 0x04D101DF481B⟩]

/-- `crc6B`. -/
def crc6B (c : BitVec 32) (d : BitVec 48) : BitVec 32 :=
  parallel crc6BTerms c d

/-- The equations of `crc5B`, from `o[0]` to `o[31]`. -/
def crc5BTerms : List (Terms 40) :=
  [⟨0x25F70116, 0x826880EFA4⟩, ⟨0x6E19033A, 0xC35CC09876⟩, ⟨0xF9C50763, 0xE3C6E0A39F⟩,
    ⟨0xF38A0EC7, 0x71E37051CF⟩, ⟨0xC2E31C99, 0xBA9938C743⟩, ⟨0xA0313824, 0xDF241C8C05⟩,
    ⟨0x40627049, 0x6F920E4602⟩, ⟨0xA533E185, 0xB5A187CCA5⟩, ⟨0x6F90C21D, 0xD8B84309F6⟩,
    ⟨0xDF21843A, 0x6C5C2184FB⟩, ⟨0x9BB40962, 0xB446902DD9⟩, ⟨0x129F13D2, 0xD84BC8F948⟩,
    ⟨0x00C926B2, 0xEE4D649300⟩, ⟨0x01924D64, 0x7726B24980⟩, ⟨0x03249AC9, 0x3B935924C0⟩,
    ⟨0x06493593, 0x1DC9AC9260⟩, ⟨0x29656A31, 0x8C8C56A694⟩, ⟨0x52CAD462, 0x46462B534A⟩,
    ⟨0xA595A8C4, 0x232315A9A5⟩, ⟨0x4B2B5189, 0x11918AD4D2⟩, ⟨0x9656A313, 0x08C8C56A69⟩,
    ⟨0x2CAD4626, 0x046462B534⟩, ⟨0x7CAD8D5A, 0x805AB1B53E⟩, ⟨0xDCAC1BA2, 0xC245D8353B⟩,
    ⟨0xB9583744, 0x6122EC1A9D⟩, ⟨0x72B06E89, 0x3091760D4E⟩, ⟨0xC097DC04, 0x9A203BE903⟩,
    ⟨0x812FB808, 0x4D101DF481⟩, ⟨0x025F7011, 0x26880EFA40⟩, ⟨0x04BEE022, 0x1344077D20⟩,
    ⟨0x097DC045, 0x09A203BE90⟩, ⟨0x12FB808B, 0x04D101DF48⟩]

/-- `crc5B`. -/
def crc5B (c : BitVec 32) (d : BitVec 40) : BitVec 32 :=
  parallel crc5BTerms c d

/-- The equations of `crc4B`, from `o[0]` to `o[31]`. -/
def crc4BTerms : List (Terms 32) :=
  [⟨0xF7011641, 0x826880EF⟩, ⟨0x19033AC3, 0xC35CC098⟩, ⟨0xC50763C7, 0xE3C6E0A3⟩, ⟨0x8A0EC78E, 0x71E37051⟩,
    ⟨0xE31C995D, 0xBA9938C7⟩, ⟨0x313824FB, 0xDF241C8C⟩, ⟨0x627049F6, 0x6F920E46⟩, ⟨0x33E185AD, 0xB5A187CC⟩,
    ⟨0x90C21D1B, 0xD8B84309⟩, ⟨0x21843A36, 0x6C5C2184⟩, ⟨0xB409622D, 0xB446902D⟩, ⟨0x9F13D21B, 0xD84BC8F9⟩,
    ⟨0xC926B277, 0xEE4D6493⟩, ⟨0x924D64EE, 0x7726B249⟩, ⟨0x249AC9DC, 0x3B935924⟩, ⟨0x493593B8, 0x1DC9AC92⟩,
    ⟨0x656A3131, 0x8C8C56A6⟩, ⟨0xCAD46262, 0x46462B53⟩, ⟨0x95A8C4C4, 0x232315A9⟩, ⟨0x2B518988, 0x11918AD4⟩,
    ⟨0x56A31310, 0x08C8C56A⟩, ⟨0xAD462620, 0x046462B5⟩, ⟨0xAD8D5A01, 0x805AB1B5⟩, ⟨0xAC1BA243, 0xC245D835⟩,
    ⟨0x58374486, 0x6122EC1A⟩, ⟨0xB06E890C, 0x3091760D⟩, ⟨0x97DC0459, 0x9A203BE9⟩, ⟨0x2FB808B2, 0x4D101DF4⟩,
    ⟨0x5F701164, 0x26880EFA⟩, ⟨0xBEE022C8, 0x1344077D⟩, ⟨0x7DC04590, 0x09A203BE⟩, ⟨0xFB808B20, 0x04D101DF⟩]

/-- `crc4B`. -/
def crc4B (c : BitVec 32) (d : BitVec 32) : BitVec 32 :=
  parallel crc4BTerms c d

/-- The equations of `crc3B`, from `o[0]` to `o[31]`. -/
def crc3BTerms : List (Terms 24) :=
  [⟨0x01164100, 0x826880⟩, ⟨0x033AC300, 0xC35CC0⟩, ⟨0x0763C700, 0xE3C6E0⟩, ⟨0x0EC78E00, 0x71E370⟩,
    ⟨0x1C995D00, 0xBA9938⟩, ⟨0x3824FB00, 0xDF241C⟩, ⟨0x7049F600, 0x6F920E⟩, ⟨0xE185AD00, 0xB5A187⟩,
    ⟨0xC21D1B00, 0xD8B843⟩, ⟨0x843A3600, 0x6C5C21⟩, ⟨0x09622D00, 0xB44690⟩, ⟨0x13D21B00, 0xD84BC8⟩,
    ⟨0x26B27700, 0xEE4D64⟩, ⟨0x4D64EE00, 0x7726B2⟩, ⟨0x9AC9DC00, 0x3B9359⟩, ⟨0x3593B800, 0x1DC9AC⟩,
    ⟨0x6A313100, 0x8C8C56⟩, ⟨0xD4626200, 0x46462B⟩, ⟨0xA8C4C400, 0x232315⟩, ⟨0x51898800, 0x11918A⟩,
    ⟨0xA3131000, 0x08C8C5⟩, ⟨0x46262000, 0x046462⟩, ⟨0x8D5A0100, 0x805AB1⟩, ⟨0x1BA24300, 0xC245D8⟩,
    ⟨0x37448601, 0x6122EC⟩, ⟨0x6E890C02, 0x309176⟩, ⟨0xDC045904, 0x9A203B⟩, ⟨0xB808B208, 0x4D101D⟩,
    ⟨0x70116410, 0x26880E⟩, ⟨0xE022C820, 0x134407⟩, ⟨0xC0459040, 0x09A203⟩, ⟨0x808B2080, 0x04D101⟩]

/-- `crc3B`. -/
def crc3B (c : BitVec 32) (d : BitVec 24) : BitVec 32 :=
  parallel crc3BTerms c d

/-- The equations of `crc2B`, from `o[0]` to `o[31]`. -/
def crc2BTerms : List (Terms 16) :=
  [⟨0x16410000, 0x8268⟩, ⟨0x3AC30000, 0xC35C⟩, ⟨0x63C70000, 0xE3C6⟩, ⟨0xC78E0000, 0x71E3⟩,
    ⟨0x995D0000, 0xBA99⟩, ⟨0x24FB0000, 0xDF24⟩, ⟨0x49F60000, 0x6F92⟩, ⟨0x85AD0000, 0xB5A1⟩,
    ⟨0x1D1B0000, 0xD8B8⟩, ⟨0x3A360000, 0x6C5C⟩, ⟨0x622D0000, 0xB446⟩, ⟨0xD21B0000, 0xD84B⟩,
    ⟨0xB2770000, 0xEE4D⟩, ⟨0x64EE0000, 0x7726⟩, ⟨0xC9DC0000, 0x3B93⟩, ⟨0x93B80000, 0x1DC9⟩,
    ⟨0x31310001, 0x8C8C⟩, ⟨0x62620002, 0x4646⟩, ⟨0xC4C40004, 0x2323⟩, ⟨0x89880008, 0x1191⟩,
    ⟨0x13100010, 0x08C8⟩, ⟨0x26200020, 0x0464⟩, ⟨0x5A010040, 0x805A⟩, ⟨0xA2430080, 0xC245⟩,
    ⟨0x44860100, 0x6122⟩, ⟨0x890C0200, 0x3091⟩, ⟨0x04590400, 0x9A20⟩, ⟨0x08B20800, 0x4D10⟩,
    ⟨0x11641000, 0x2688⟩, ⟨0x22C82000, 0x1344⟩, ⟨0x45904000, 0x09A2⟩, ⟨0x8B208000, 0x04D1⟩]

/-- `crc2B`. -/
def crc2B (c : BitVec 32) (d : BitVec 16) : BitVec 32 :=
  parallel crc2BTerms c d

/-- The equations of `crc1B`, from `o[0]` to `o[31]`. -/
def crc1BTerms : List (Terms 8) :=
  [⟨0x41000000, 0x82⟩, ⟨0xC3000000, 0xC3⟩, ⟨0xC7000000, 0xE3⟩, ⟨0x8E000000, 0x71⟩, ⟨0x5D000000, 0xBA⟩,
    ⟨0xFB000000, 0xDF⟩, ⟨0xF6000000, 0x6F⟩, ⟨0xAD000000, 0xB5⟩, ⟨0x1B000001, 0xD8⟩, ⟨0x36000002, 0x6C⟩,
    ⟨0x2D000004, 0xB4⟩, ⟨0x1B000008, 0xD8⟩, ⟨0x77000010, 0xEE⟩, ⟨0xEE000020, 0x77⟩, ⟨0xDC000040, 0x3B⟩,
    ⟨0xB8000080, 0x1D⟩, ⟨0x31000100, 0x8C⟩, ⟨0x62000200, 0x46⟩, ⟨0xC4000400, 0x23⟩, ⟨0x88000800, 0x11⟩,
    ⟨0x10001000, 0x08⟩, ⟨0x20002000, 0x04⟩, ⟨0x01004000, 0x80⟩, ⟨0x43008000, 0xC2⟩, ⟨0x86010000, 0x61⟩,
    ⟨0x0C020000, 0x30⟩, ⟨0x59040000, 0x9A⟩, ⟨0xB2080000, 0x4D⟩, ⟨0x64100000, 0x26⟩, ⟨0xC8200000, 0x13⟩,
    ⟨0x90400000, 0x09⟩, ⟨0x20800000, 0x04⟩]

/-- `crc1B`. -/
def crc1B (c : BitVec 32) (d : BitVec 8) : BitVec 32 :=
  parallel crc1BTerms c d

end MarketData.Xgmii
