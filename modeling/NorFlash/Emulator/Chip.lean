import NorFlash.Emulator.PageStore
import NorFlash.Vendor

/-!
# Chip — an emulated NOR flash chip

A chip carries out one command at a time. Program, erase and sector commands
need the write enable latch and clear it; program and erase keep the chip
busy for a number of status reads, during which it takes no other command.
-/

namespace NorFlash

/-- What an emulated controller and its chips are like. -/
structure EmulatorConfig where
  vendorId : UInt8 := 0x20
  deviceType : UInt8 := 0xba
  capacityCode : UInt8 := 0x18
  /-- Bytes that fit each FIFO. -/
  fifoDepth : Nat := 256
  /-- Status reads for which a program or erase keeps the chip busy. -/
  busyPolls : UInt32 := 2
  deriving DecidableEq, Repr

namespace EmulatorConfig

/-- A Macronix part with this capacity code. -/
def macronix (capacityCode : UInt8) : EmulatorConfig :=
  { vendorId := 0xc2, deviceType := 0x20, capacityCode }

/-- The vendor the ID names. -/
def vendor? (c : EmulatorConfig) : Option Vendor := Vendor.ofId? c.vendorId

/-- Bytes of each chip; one 16 MiB sector if the ID means nothing. -/
def capacity (c : EmulatorConfig) : Nat :=
  (c.vendor?.bind (·.capacity? c.capacityCode)).getD sectorSize

/-- The program command the chips take. -/
def programOpcode? (c : EmulatorConfig) : Option UInt8 :=
  c.vendor?.map (·.programOpcode)

end EmulatorConfig

/-- An emulated chip. -/
structure Chip where
  contents : PageStore
  writeEnabled : Bool := false
  /-- The extended-address register: the selected 16 MiB sector. -/
  sector : UInt8 := 0
  /-- Status reads until the chip is ready. -/
  busy : UInt32 := 0

namespace Chip

/-- Dummy bytes ahead of read data. -/
def readDummyLen : Nat := 4

/-- What a command did, apart from the response. -/
inductive Effect where
  /-- Nothing that is recorded. -/
  | plain
  /-- Dropped, because the chip was busy. -/
  | whileBusy
  /-- Dropped, because the write enable latch was clear. -/
  | rejected
  /-- Not a command of this chip, or too short for one. -/
  | unsupported
  /-- Programmed this many bytes. -/
  | programmed (len : Nat)
  /-- Erased a region. -/
  | erased (base size : Nat)
  deriving DecidableEq, Repr

/-- The chip after a command, its response and what the command did. -/
structure Reaction where
  chip : Chip
  response : Bytes
  effect : Effect := .plain

/-- The address of a command header in the selected sector. -/
def address (c : Chip) (high middle low : UInt8) : Nat :=
  c.sector.toNat * sectorSize + high.toNat * Address.highWeight +
    middle.toNat * Address.middleWeight + low.toNat

/-- Program data from an address on, wrapping inside its 256-byte page. -/
def programRange (s : PageStore) (address : Nat) : Bytes → PageStore
  | [] => s
  | b :: rest =>
    let next := address / programPageSize * programPageSize +
      (address + 1) % programPageSize
    programRange (s.program address b) next rest

/-- The erase unit of an opcode. -/
def eraseUnit? (opcode : UInt8) : Option EraseUnit :=
  [EraseUnit.page, EraseUnit.large, EraseUnit.huge].find? (·.opcode == opcode)

/-- The response to a status read of `len` bytes. -/
def statusResponse (c : Chip) (len : Nat) : Bytes :=
  let busy := if 0 < c.busy then Opcode.busyBit else 0
  let latch := if c.writeEnabled then Opcode.latchBit else 0
  match len with
  | 0 => []
  | n + 1 => 0 :: Bytes.filled n (busy ||| latch)

/-- The response to an ID read of `len` bytes. -/
def idResponse (config : EmulatorConfig) (len : Nat) : Bytes :=
  ([0, config.vendorId, config.deviceType, config.capacityCode] ++
    Bytes.filled (len - 4) 0).take len

/-- Carry out a command that needs the write enable latch: with the latch set
`act` happens and the latch is cleared, otherwise the command is dropped. -/
def latched (c : Chip) (len : Nat) (act : Chip → Reaction) : Reaction :=
  if c.writeEnabled then act { c with writeEnabled := false }
  else { chip := c, response := Bytes.filled len 0, effect := .rejected }

/-- Carry out an addressed command of a chip that is not busy. -/
def reactAddressed (config : EmulatorConfig) (c : Chip) (opcode : UInt8) (len : Nat)
    (high middle low : UInt8) (data : Bytes) : Reaction :=
  let zeros := Bytes.filled len 0
  if opcode = Opcode.quadRead ∧ readDummyLen < data.length then
    { chip := c
      response := Bytes.filled (Opcode.headerLen + readDummyLen) 0 ++
        c.contents.readRange (c.address high middle low) (data.length - readDummyLen) }
  else if config.programOpcode? = some opcode ∧ data ≠ [] then
    c.latched len fun ⟨contents, writeEnabled, sector, busy⟩ =>
      let address := address ⟨contents, writeEnabled, sector, busy⟩ high middle low
      { chip := ⟨programRange contents address data, writeEnabled, sector, config.busyPolls⟩
        response := zeros
        effect := .programmed data.length }
  else
    match eraseUnit? opcode with
    | some unit =>
      c.latched len fun ⟨contents, writeEnabled, sector, busy⟩ =>
        let address := address ⟨contents, writeEnabled, sector, busy⟩ high middle low
        let base := address - address % unit.bytes
        { chip := ⟨contents.erase base unit.bytes, writeEnabled, sector, config.busyPolls⟩
          response := zeros
          effect := .erased base unit.bytes }
    | none => { chip := c, response := zeros, effect := .unsupported }

/-- Carry out a command. The response is as long as the command. -/
def react (config : EmulatorConfig) (c : Chip) (command : Bytes) : Reaction :=
  let len := command.length
  let zeros := Bytes.filled len 0
  match command with
  | [] => { chip := c, response := [] }
  | opcode :: operands =>
    if opcode = Opcode.readStatus then
      { chip := { c with busy := if 0 < c.busy then c.busy - 1 else c.busy }
        response := c.statusResponse len }
    else if 0 < c.busy then
      { chip := c, response := zeros, effect := .whileBusy }
    else if opcode = Opcode.writeEnable then
      { chip := { c with writeEnabled := true }, response := zeros }
    else if opcode = Opcode.readId then
      { chip := c, response := idResponse config len }
    else
      match operands with
      | [] => { chip := c, response := zeros, effect := .unsupported }
      | first :: rest =>
        if opcode = Opcode.writeSector then
          c.latched len fun c => { chip := { c with sector := first }, response := zeros }
        else
          match rest with
          | middle :: low :: data => reactAddressed config c opcode len first middle low data
          | _ => { chip := c, response := zeros, effect := .unsupported }

end Chip

end NorFlash
