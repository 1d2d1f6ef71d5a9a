import NorFlash.Opcode
import NorFlash.Word

/-!
# Address — flat offsets, their wire components and erase units

Callers see all chips as one space of 64-bit offsets. The top byte of an
offset names the slave, bits 24 to 31 the 16 MiB sector of that chip, and
the low three bytes travel in a command header. Bits 32 to 55 are unused.
-/

namespace NorFlash

/-- Bytes of one 16 MiB sector. -/
def sectorSize : Nat := 0x1000000

/-- Bytes of the smallest erase unit. -/
def pageSize : Nat := 4096

/-- Bytes of a program page; no program command may cross one. -/
def programPageSize : Nat := 256

/-! ## Wire components -/

/-- An offset taken apart into the bytes that go over the wire. -/
structure Address where
  slave : UInt8
  sector : UInt8
  high : UInt8
  middle : UInt8
  low : UInt8
  deriving DecidableEq, Repr

namespace Address

/-- Distance of the same place on two neighbouring slaves. -/
def slaveWeight : Nat := 0x100000000000000

/-- Weight of the most significant address byte. -/
def highWeight : Nat := 0x10000

/-- Weight of the middle address byte. -/
def middleWeight : Nat := 0x100

/-- Take an offset apart. -/
def ofOffset (offset : UInt64) : Address where
  slave := UInt8.ofNat (offset.toNat / slaveWeight)
  sector := UInt8.ofNat (offset.toNat / sectorSize)
  high := UInt8.ofNat (offset.toNat / highWeight)
  middle := UInt8.ofNat (offset.toNat / middleWeight)
  low := UInt8.ofNat offset.toNat

/-- Put the offset together again; the unused bits are clear. -/
def toOffset (a : Address) : UInt64 :=
  UInt64.ofNat (a.slave.toNat * slaveWeight + a.sector.toNat * sectorSize +
    a.high.toNat * highWeight + a.middle.toNat * middleWeight + a.low.toNat)

/-- The same place on another slave. -/
def withSlave (a : Address) (slave : UInt8) : Address :=
  { a with slave }

/-- Offset within the chip. -/
def chipOffset (a : Address) : UInt64 :=
  (a.withSlave 0).toOffset

/-- The address bytes of a command header, most significant first. -/
def bytes (a : Address) : List UInt8 :=
  [a.high, a.middle, a.low]

end Address

/-- Offset within its chip. -/
def chipOffset (offset : UInt64) : UInt64 :=
  (Address.ofOffset offset).chipOffset

/-! ## Pages -/

/-- Position inside the 4 KiB page. -/
def pageIndex (offset : UInt64) : Nat :=
  offset.toNat % pageSize

/-- Start of the 4 KiB page. -/
def pageStart (offset : UInt64) : UInt64 :=
  offset - offset % 4096

/-- Start of the following 4 KiB page, unless it lies beyond 64 bits. -/
def nextPage? (offset : UInt64) : Option UInt64 :=
  let next := (pageStart offset).toNat + pageSize
  if next < wordLimit then some (UInt64.ofNat next) else none

/-- A region that one erase command clears. -/
inductive EraseUnit where
  /-- 4 KiB -/
  | page
  /-- 32 KiB -/
  | large
  /-- 64 KiB -/
  | huge
  deriving DecidableEq, Repr

namespace EraseUnit

/-- All units, the largest first. -/
def largestFirst : List EraseUnit := [huge, large, page]

/-- Bytes of the unit. -/
def bytes : EraseUnit → Nat
  | page => 4096
  | large => 32768
  | huge => 65536

/-- The unit of exactly this many bytes. -/
def ofBytes? (n : Nat) : Option EraseUnit :=
  if n = 4096 then some page
  else if n = 32768 then some large
  else if n = 65536 then some huge
  else none

/-- The command that erases the unit. -/
def opcode : EraseUnit → UInt8
  | page => Opcode.erase4K
  | large => Opcode.erase32K
  | huge => Opcode.erase64K

/-- A unit of this size starts at `offset`. -/
def isAligned (u : EraseUnit) (offset : UInt64) : Bool :=
  offset.toNat % u.bytes == 0

/-- The largest unit that starts at `offset` and that `len` bytes cover. -/
def forSpan? (offset : UInt64) (len : Nat) : Option EraseUnit :=
  largestFirst.find? fun u => u.isAligned offset && decide (u.bytes ≤ len)

end EraseUnit

end NorFlash
