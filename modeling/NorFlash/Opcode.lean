/-!
# Opcode — flash commands

The commands the driver issues. The opcode of a program command depends on
the vendor.
-/

namespace NorFlash.Opcode

/-- Set the write enable latch; precedes every program, erase and
extended-address write. -/
def writeEnable : UInt8 := 0x06

/-- Read the status register; the second byte of the response holds it. -/
def readStatus : UInt8 := 0x05

/-- Read the ID: vendor in the second byte, capacity code in the fourth. -/
def readId : UInt8 := 0x9f

/-- Write the extended-address register, which selects a 16 MiB sector. -/
def writeSector : UInt8 := 0xc5

/-- Quad output read. -/
def quadRead : UInt8 := 0x6b

/-- Program a page over one line. -/
def pageProgram : UInt8 := 0x02

/-- Program a page over four lines. -/
def quadProgram : UInt8 := 0x32

/-- Erase 4 KiB. -/
def erase4K : UInt8 := 0x20

/-- Erase 32 KiB. -/
def erase32K : UInt8 := 0x52

/-- Erase 64 KiB. -/
def erase64K : UInt8 := 0xd8

/-- Bytes of an addressed command ahead of its data: the opcode and three
address bytes. -/
def headerLen : Nat := 4

/-- Status register bit: a program or erase is in progress. -/
def busyBit : UInt8 := 0x01

/-- Status register bit: the write enable latch is set. -/
def latchBit : UInt8 := 0x02

end NorFlash.Opcode
