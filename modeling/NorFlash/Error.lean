import NorFlash.Numeral

/-!
# Error — what can go wrong, and how it is worded

`Error` lists the causes; every layer of the driver reports one of them.
`IoError` is what byte-stream users see, and `PartialWrite` a write that
stopped early.
-/

namespace NorFlash

open Numeral (hex hexWord hexByte)

/-- The condition that a bounded wait was for. -/
inductive Awaited where
  | deviceReady
  | fifoReset
  | txDrain
  deriving DecidableEq, Repr

/-- The wording of an awaited condition. -/
def Awaited.text : Awaited → String
  | .deviceReady => "flash device ready"
  | .fifoReset => "FIFO reset"
  | .txDrain => "TX FIFO drain"

/-- The cause of a failed driver operation. -/
inductive Error where
  /-- A condition did not come true within the poll budget. -/
  | timeout (awaited : Awaited)
  /-- The status register showed an error bit. -/
  | protocol (status : UInt32)
  /-- The RX FIFO was empty before all expected bytes had been pulled. -/
  | rxUnderflow (expected received : Nat)
  /-- The RX FIFO held more than the expected bytes. -/
  | rxOverflow
  /-- A transaction does not fit the FIFO. -/
  | transferTooLarge (len fifoDepth : Nat)
  /-- A receive buffer is shorter than the bytes to pull. -/
  | bufferTooSmall (needed available : Nat)
  /-- No chip-select line for this slave. -/
  | slaveOutOfRange (slave : UInt8)
  /-- Probing found no usable FIFO. -/
  | fifoProbeFailed
  /-- The range leaves the flash. -/
  | addressOutOfBounds
  /-- No erase unit has this many bytes. -/
  | invalidEraseSize (size : Nat)
  /-- The offset does not start an erase unit. -/
  | invalidAlignment
  /-- A single-burst read would cross a 4 KiB page. -/
  | crossesPageBoundary
  /-- A write of nothing, or beyond the end. -/
  | noSpace
  /-- The manufacturer byte is unknown. -/
  | unknownVendor (id : UInt8)
  /-- The vendor does not use this capacity code. -/
  | unknownCapacity (code : UInt8)
  /-- A buffer could not be allocated. -/
  | allocationFailed
  /-- A session is open already. -/
  | busy
  deriving DecidableEq, Repr

/-- The wording of an error. -/
def Error.message : Error → String
  | .timeout awaited => "timed out waiting for " ++ awaited.text
  | .protocol status => "QSPI controller error, status: " ++ hexWord status.toNat
  | .rxUnderflow expected received =>
    "RX FIFO ran dry after " ++ toString received ++ " of " ++ toString expected ++ " bytes"
  | .rxOverflow => "failed to drain RX FIFO"
  | .transferTooLarge len fifoDepth =>
    "transaction of " ++ toString len ++ " bytes exceeds FIFO depth " ++ toString fifoDepth
  | .bufferTooSmall needed available =>
    "receive buffer holds " ++ toString available ++ " of " ++ toString needed ++ " bytes"
  | .slaveOutOfRange slave => "slave index " ++ toString slave.toNat ++ " out of range"
  | .fifoProbeFailed => "failed to probe QSPI FIFO depth"
  | .addressOutOfBounds => "address out of bounds"
  | .invalidEraseSize size => "invalid erase size " ++ hexWord size
  | .invalidAlignment => "invalid alignment"
  | .crossesPageBoundary => "read crosses page boundary"
  | .noSpace => "out of boundary"
  | .unknownVendor id => "unknown flash vendor: " ++ hexByte id
  | .unknownCapacity code => "unknown flash memory size code: " ++ hexByte code
  | .allocationFailed => "buffer allocation failed"
  | .busy => "flash device is busy"

/-! ## Errors of byte-stream users -/

/-- The classes of error that a byte-stream user can tell apart. -/
inductive IoKind where
  | timedOut
  | invalidInput
  | outOfMemory
  | other
  deriving DecidableEq, Repr

/-- The class an error belongs to. -/
def Error.kind : Error → IoKind
  | .timeout _ => .timedOut
  | .addressOutOfBounds | .noSpace | .invalidEraseSize _ | .invalidAlignment
  | .crossesPageBoundary | .bufferTooSmall .. | .slaveOutOfRange _ => .invalidInput
  | .allocationFailed => .outOfMemory
  | _ => .other

/-- What a byte-stream operation failed with. -/
inductive IoError where
  /-- The driver failed. -/
  | driver (error : Error)
  /-- The end of the flash is no origin for a seek. -/
  | seekFromEnd
  /-- The target of a seek is no position. -/
  | seekOutOfRange
  /-- Bytes were left over although nothing was accepted any more. -/
  | writeZero
  deriving DecidableEq, Repr

namespace IoError

/-- The class of the error. -/
def kind : IoError → IoKind
  | driver error => error.kind
  | seekFromEnd | seekOutOfRange => .invalidInput
  | writeZero => .other

/-- The wording of the error. -/
def message : IoError → String
  | driver error => error.message
  | seekFromEnd => "seeking relative to the end is not supported"
  | seekOutOfRange => "invalid seek to a negative position"
  | writeZero => "failed to write whole buffer"

end IoError

/-- A write that stopped early: the first `written` bytes of its data are in
the flash, then `error` happened. -/
structure PartialWrite where
  written : Nat
  error : Error
  deriving DecidableEq, Repr

/-- The wording of a partial write. -/
def PartialWrite.message (p : PartialWrite) : String :=
  "write failed after " ++ toString p.written ++ " bytes: " ++ p.error.message

/-- A byte-stream user sees the cause only. -/
def PartialWrite.toIoError (p : PartialWrite) : IoError :=
  .driver p.error

end NorFlash
