import NorFlash.Bus

/-!
# Controller — an attached controller and its addressed commands

Attaching initialises the controller, measures the FIFO depth, waits for the
flash and identifies it. An attached controller caches the sector that the
active slave has selected, and builds commands in a scratch buffer as long as
the FIFO is deep.
-/

namespace NorFlash

/-- Cached sector of a slave whose selected sector is not known. -/
def sectorNone : UInt8 := 0xff

/-- An attached controller. -/
structure Controller where
  bus : Bus
  /-- Where addressed commands are built and their responses arrive. -/
  scratch : Bytes
  /-- The sector last selected on the active slave. -/
  sector : UInt8
  vendor : Vendor
  /-- Bytes of each chip. -/
  capacity : Nat
  tuning : Tuning

/-- An operation of an attached controller that may fail. What it changed
before it failed stays changed. -/
abbrev Drive := ExceptT Error (StateT Controller Proc)

namespace Controller

/-- Initialise a controller and identify its flash. -/
def attach (tuning : Tuning) : Attempt Controller := do
  if tuning.softResetOnAttach then
    Proc.log .softResetPulsed
    Bus.softReset
  Bus.initControl
  let fresh : Bus := { budget := tuning.pollBudget }
  let bus ← fresh.after (Bus.discoverFifoDepth tuning.fifoFiller)
  let overhead ← Proc.count (Opcode.headerLen + tuning.readDummyLen)
  if bus.fifoDepth ≤ overhead then
    Proc.log (.noRoomForData bus.fifoDepth overhead)
    throw .fifoProbeFailed
  else
    bus.waitUntilReady
    let (vendor, capacity) ← bus.identify
    Proc.log (.attached vendor capacity bus.fifoDepth)
    return {
      bus
      scratch := Bytes.filled bus.fifoDepth 0
      sector := sectorNone
      vendor
      capacity
      tuning }

/-- Address the commands that follow to a slave. The chips have separate
sector registers, so the cached sector is forgotten on a switch. -/
def setActiveSlave (slave : UInt8) : Drive Unit := do
  if slave.toNat < maxSlaves then
    let c ← get
    if c.bus.slave = slave then
      pure ()
    else
      Proc.log (.slaveSwitched slave)
      set { c with bus := { c.bus with slave }, sector := sectorNone }
  else
    throw (.slaveOutOfRange slave)

/-- Wait until the active slave is ready. -/
def waitUntilReady : Drive Unit := do
  (← get).bus.waitUntilReady

/-- Set the write enable latch of the active slave. -/
def enableWrite : Drive Unit := do
  (← get).bus.enableWrite

/-- Select a sector on the active slave, unless it is selected. -/
def selectSector (sector : UInt8) : Drive Unit := do
  if (← get).sector = sector then
    pure ()
  else
    enableWrite
    (← get).bus.send [Opcode.writeSector, sector]
    Proc.log (.sectorSelected sector)
    modify ({ · with sector })

/-- Switch to the slave and sector of an address and put the header of a
command at the front of the scratch buffer. -/
def buildHeader (opcode : UInt8) (a : Address) : Drive Unit := do
  setActiveSlave a.slave
  selectSector a.sector
  let c ← get
  let scratch ← Proc.overwrite 0 (opcode :: a.bytes) c.scratch
  set { c with scratch }

/-- Run the first `n` bytes of the scratch buffer as one transaction. Bytes
that arrive take their place. -/
def runScratch (n : Nat) (wanted : Bool) : Drive Unit := do
  let c ← get
  let (command, rest) ← Proc.split n c.scratch
  let arrival ← c.bus.transaction command wanted
  set { c with scratch := arrival.into command ++ rest }
  match arrival.outcome with
  | .ok () => pure ()
  | .error e => throw e

end Controller

end NorFlash
