import NorFlash.Address

/-!
# Vendor — the flash vendors the driver knows

The ID read names the vendor by its manufacturer byte and the capacity by a
code whose meaning depends on the vendor.
-/

namespace NorFlash

/-- A supported vendor. -/
inductive Vendor where
  | micron
  | macronix
  deriving DecidableEq, Repr

namespace Vendor

/-- Every supported vendor. -/
def all : List Vendor := [micron, macronix]

/-- Manufacturer byte of the ID. -/
def id : Vendor → UInt8
  | micron => 0x20
  | macronix => 0xc2

/-- Name shown to users. -/
def name : Vendor → String
  | micron => "micron"
  | macronix => "macronix"

/-- The vendor with this manufacturer byte. -/
def ofId? (id : UInt8) : Option Vendor :=
  all.find? (·.id == id)

/-- The vendor of this name, ASCII letters in either case. -/
def ofName? (name : String) : Option Vendor :=
  all.find? fun v => v.name.toList == name.toList.map Char.toLower

/-- Number of 16 MiB sectors that a capacity code stands for, zero for a
code the vendor does not use. -/
def sectors (v : Vendor) (code : UInt8) : Nat :=
  match v with
  | micron =>
    if code = 0x17 ∨ code = 0x18 then 1
    else if code = 0x19 then 2
    else if code = 0x20 then 4
    else if code = 0x21 then 8
    else if code = 0x22 then 16
    else 0
  | macronix =>
    if code < 0x38 ∨ 0x3c < code then 0
    else 1 <<< (code - 0x38).toNat

/-- Bytes of one chip with this capacity code. -/
def capacity? (v : Vendor) (code : UInt8) : Option Nat :=
  match v.sectors code with
  | 0 => none
  | n => some (n * sectorSize)

/-- The command that programs data. -/
def programOpcode : Vendor → UInt8
  | micron => Opcode.quadProgram
  | macronix => Opcode.pageProgram

end Vendor

end NorFlash
