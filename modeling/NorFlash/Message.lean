import NorFlash.Error
import NorFlash.Register
import NorFlash.Vendor

/-!
# Message — what is logged

One constructor per log line, with its severity and its wording.
-/

namespace NorFlash

open Numeral (hexWord hexByte)

/-- Severity of a log line. -/
inductive Level where
  | error
  | warn
  | info
  | debug
  | trace
  deriving DecidableEq, Repr

namespace Level

/-- Rank of a severity; the gravest is lowest. -/
def rank : Level → Nat
  | error => 1
  | warn => 2
  | info => 3
  | debug => 4
  | trace => 5

/-- Name of a severity. -/
def name : Level → String
  | error => "ERROR"
  | warn => "WARN"
  | info => "INFO"
  | debug => "DEBUG"
  | trace => "TRACE"

end Level

/-- A log line. -/
inductive Message where
  | registerRead (register : Register) (value : UInt32)
  | registerWrite (register : Register) (value : UInt32)
  | statusError (status : UInt32)
  | fifoResetFailed (status : UInt32)
  | noSelectLine (slave : UInt8)
  | burstFailed (status : UInt32)
  | burstTimedOut (status : UInt32)
  | rxNotDrained
  | drainFailureIgnored (error : Error)
  | fifoNeverFull (pushed : Nat)
  | fifoProbeError (status : UInt32)
  | fifoDepth (depth : Nat)
  | statusReadFailed (error : Error)
  | deviceNotReady
  | vendorUnknown (id : UInt8)
  | capacityUnknown (vendor : Vendor) (code : UInt8)
  | idRead (vendor type code : UInt8)
  | sectorSelected (sector : UInt8)
  | softResetPulsed
  | noRoomForData (depth overhead : Nat)
  | attached (vendor : Vendor) (capacity depth : Nat)
  | slaveSwitched (slave : UInt8)
  | eraseSizeInvalid (size : Nat)
  | eraseMisaligned (offset : UInt64) (size : Nat)
  | erasing (offset : UInt64) (size : Nat)
  | reading (offset : UInt64) (len : Nat)
  | writing (offset : UInt64) (len : Nat)
  | writeFailed (offset : UInt64) (error : Error)
  | burstStalled (opcode : UInt8)
  | burstDropped (opcode : UInt8)
  | commandWhileBusy (opcode : UInt8)
  | commandUnsupported (opcode : UInt8)
  | imageLoaded (len : Nat)
  | flashOpened (vendor : Vendor) (capacity depth : Nat)
  | inputTruncated (written : Nat)
  | tuningLoaded (path : String)
  deriving DecidableEq, Repr

namespace Message

/-- Severity of a log line. -/
def level : Message → Level
  | registerRead .. | registerWrite .. => .trace
  | drainFailureIgnored _ | fifoDepth _ | statusReadFailed _ | idRead ..
  | sectorSelected _ | softResetPulsed | slaveSwitched _ | erasing .. | reading ..
  | writing .. | burstStalled _ | burstDropped _ => .debug
  | attached .. | imageLoaded _ | flashOpened .. | tuningLoaded _ => .info
  | commandWhileBusy _ | commandUnsupported _ | inputTruncated _ => .warn
  | statusError _ | fifoResetFailed _ | noSelectLine _ | burstFailed _ | burstTimedOut _
  | rxNotDrained | fifoNeverFull _ | fifoProbeError _ | deviceNotReady | vendorUnknown _
  | capacityUnknown .. | noRoomForData .. | eraseSizeInvalid _ | eraseMisaligned ..
  | writeFailed .. => .error

/-- Wording of a log line. -/
def text : Message → String
  | registerRead register value =>
    "REG_RD(" ++ register.name ++ ")=" ++ hexWord value.toNat
  | registerWrite register value =>
    "REG_WR(" ++ register.name ++ "," ++ hexWord value.toNat ++ ")"
  | statusError status => "QSPI error status: " ++ hexWord status.toNat
  | fifoResetFailed status => "failed to reset FIFO, status: " ++ hexWord status.toNat
  | noSelectLine slave => "no chip select line for slave " ++ toString slave.toNat
  | burstFailed status => "QSPI write failed, status: " ++ hexWord status.toNat
  | burstTimedOut status => "QSPI write timeout, status: " ++ hexWord status.toNat
  | rxNotDrained => "failed to drain RX fifo"
  | drainFailureIgnored error => "ignoring RX drain failure: " ++ error.message
  | fifoNeverFull pushed =>
    "TX FIFO never reported full after " ++ toString pushed ++ " bytes"
  | fifoProbeError status => "FIFO probe failed, status: " ++ hexWord status.toNat
  | fifoDepth depth => "QSPI FIFO depth is: " ++ toString depth
  | statusReadFailed error => "status read failed: " ++ error.message
  | deviceNotReady => "flash device is not ready"
  | vendorUnknown id => "unknown flash vendor: " ++ hexByte id
  | capacityUnknown vendor code =>
    "unknown " ++ vendor.name ++ " flash memory size code: " ++ hexByte code
  | idRead vendor type code =>
    "flash ID: vendor " ++ hexByte vendor ++ ", type " ++ hexByte type ++
      ", size code " ++ hexByte code
  | sectorSelected sector => "selected sector " ++ toString sector.toNat
  | softResetPulsed => "pulsing QSPI soft reset"
  | noRoomForData depth overhead =>
    "FIFO depth " ++ toString depth ++ " leaves no room for read data after " ++
      toString overhead ++ " header bytes"
  | attached vendor capacity depth =>
    "QSPI flash: " ++ vendor.name ++ " (" ++ toString capacity ++ " bytes), FIFO depth " ++
      toString depth
  | slaveSwitched slave => "switching to slave " ++ toString slave.toNat
  | eraseSizeInvalid size => "invalid erase size " ++ hexWord size
  | eraseMisaligned offset size =>
    "erase offset " ++ hexWord offset.toNat ++ " is not " ++ hexWord size ++ " aligned"
  | erasing offset size =>
    "erasing " ++ hexWord size ++ " bytes at " ++ hexWord offset.toNat
  | reading offset len => "read " ++ hexWord len ++ " bytes at " ++ hexWord offset.toNat
  | writing offset len => "write " ++ hexWord len ++ " bytes at " ++ hexWord offset.toNat
  | writeFailed offset error =>
    "write failed at " ++ hexWord offset.toNat ++ ": " ++ error.message
  | burstStalled opcode => "dummy: stalling burst " ++ hexByte opcode
  | burstDropped opcode => "dummy: failing burst " ++ hexByte opcode
  | commandWhileBusy opcode => "dummy: opcode " ++ hexByte opcode ++ " sent while busy"
  | commandUnsupported opcode => "dummy: unsupported command " ++ hexByte opcode
  | imageLoaded len => "loaded " ++ toString len ++ " bytes into the emulated flash"
  | flashOpened vendor capacity depth =>
    "attached " ++ vendor.name ++ " flash, " ++ toString capacity ++ " bytes, FIFO depth " ++
      toString depth
  | inputTruncated written =>
    "input truncated to " ++ toString written ++ " bytes at the end of the flash"
  | tuningLoaded path => "loaded tuning from " ++ path

/-- A log line as it is shown: its severity, a blank and its wording. -/
def line (m : Message) : String :=
  m.level.name ++ " " ++ m.text

end Message

end NorFlash
