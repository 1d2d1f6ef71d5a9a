/-!
# Register — the controller's register block

Six 32-bit registers of the block are used; every other offset is padding.
Control and status words are plain 32-bit words with named bits.
-/

namespace NorFlash

/-- A register of the controller block. -/
inductive Register where
  | reset
  | control
  | status
  | tx
  | rx
  | slaveSelect
  deriving DecidableEq, Repr

namespace Register

/-- Every register, by rising offset. -/
def all : List Register := [reset, control, status, tx, rx, slaveSelect]

/-- Byte offset of the register from the start of the block. -/
def offset : Register → UInt64
  | reset => 0x40
  | control => 0x60
  | status => 0x64
  | tx => 0x68
  | rx => 0x6c
  | slaveSelect => 0x70

/-- The name that register logs use. -/
def name : Register → String
  | reset => "qspi_reset"
  | control => "qspi_ctrl"
  | status => "qspi_status"
  | tx => "qspi_tx"
  | rx => "qspi_rx"
  | slaveSelect => "qspi_slave"

/-- The register at a byte offset. -/
def ofOffset? (offset : UInt64) : Option Register :=
  all.find? (·.offset == offset)

theorem ofOffset?_offset (r : Register) : ofOffset? r.offset = some r := by
  cases r <;> rfl

end Register

/-- Flash chips behind one controller. -/
def maxSlaves : Nat := 2

/-- Slave-select word with every chip deselected; a chip is selected by
clearing its bit. -/
def slaveSelectNone : UInt32 := 0b11

/-- The word that makes the reset register pulse a soft reset. -/
def softResetKey : UInt32 := 0xa

/-- Bytes in the register block. -/
def registerBlockSize : Nat := 0x80

/-- All bits of `mask` are set in `word`. -/
def hasAll (word mask : UInt32) : Bool := word &&& mask == mask

/-- Some bit of `mask` is set in `word`. -/
def hasAny (word mask : UInt32) : Bool := word &&& mask != 0

/-! ## Control bits -/

namespace Control

def enabled : UInt32 := 0x2
def masterMode : UInt32 := 0x4
def txFifoReset : UInt32 := 0x20
def rxFifoReset : UInt32 := 0x40
def manualSlaveSelect : UInt32 := 0x80
def transInhibit : UInt32 := 0x100

/-- Both FIFO reset bits; they clear themselves. -/
def fifoResets : UInt32 := txFifoReset ||| rxFifoReset

/-- The control word a controller is initialised with. -/
def initState : UInt32 :=
  transInhibit ||| manualSlaveSelect ||| fifoResets ||| enabled ||| masterMode

end Control

/-! ## Status bits -/

namespace Status

def rxEmpty : UInt32 := 0x1
def rxFull : UInt32 := 0x2
def txEmpty : UInt32 := 0x4
def txFull : UInt32 := 0x8
def modeError : UInt32 := 0x10
def clockError : UInt32 := 0x40
def slaveModeError : UInt32 := 0x80
def bitOrderError : UInt32 := 0x100
def loopbackError : UInt32 := 0x200
def commandError : UInt32 := 0x400

/-- Every error bit; the slave-mode bit `0x20` is information only. -/
def errors : UInt32 :=
  commandError ||| loopbackError ||| bitOrderError ||| slaveModeError |||
    clockError ||| modeError

/-- The bits that tell how full the FIFOs are. -/
def fifoMask : UInt32 := txFull ||| rxFull ||| txEmpty ||| rxEmpty

/-- The FIFO bits when both FIFOs are empty. -/
def fifosEmpty : UInt32 := txEmpty ||| rxEmpty

/-- Some error bit is set. -/
def hasError (status : UInt32) : Bool := hasAny status errors

/-- The FIFO bits of a status word. -/
def fifoBits (status : UInt32) : UInt32 := status &&& fifoMask

/-- Both FIFOs report empty and neither reports full. -/
def isIdle (status : UInt32) : Bool := fifoBits status == fifosEmpty

end Status

end NorFlash
