import NorFlash.Controller.Transfer

/-!
# Page — erasing, and programming whole pages

Flash can only be programmed where it is erased, and only erased in units. A
range that covers an aligned unit is erased and rewritten outright. Any other
range is merged into its 4 KiB page: the bytes around it are read first and
programmed again together with the new ones.
-/

namespace NorFlash.Controller

/-- Erase the unit that starts at `offset`. -/
def eraseUnit (offset : UInt64) (unit : EraseUnit) : Drive Unit := do
  if unit.isAligned offset then
    let a := Address.ofOffset offset
    setActiveSlave a.slave
    waitUntilReady
    buildHeader unit.opcode a
    enableWrite
    runScratch Opcode.headerLen false
    Proc.log (.erasing offset unit.bytes)
    waitUntilReady
  else
    Proc.log (.eraseMisaligned offset unit.bytes)
    throw .invalidAlignment

/-- Erase the unit of `size` bytes that starts at `offset`. -/
def erase (offset : UInt64) (size : Nat) : Drive Unit := do
  match EraseUnit.ofBytes? size with
  | some unit => eraseUnit offset unit
  | none =>
    Proc.log (.eraseSizeInvalid size)
    throw (.invalidEraseSize size)

/-- Erase and program the largest unit that starts at `offset` and that the
data covers. Answers its length, or nothing if there is no such unit. -/
def rewriteUnit (offset : UInt64) (data : Bytes) : Drive (Option Nat) := do
  match EraseUnit.forSpan? offset data.length with
  | none => return none
  | some unit =>
    eraseUnit offset unit
    let (front, _) ← Proc.split unit.bytes data
    bulkWrite offset front
    return some unit.bytes

/-- An operation that puts a page together in a 4 KiB buffer of its own. -/
abbrev Merge := ExceptT Error (StateT Bytes (StateT Controller Proc))

/-- Read into the page buffer from position `start` to `stop`. -/
def readInto (offset : UInt64) (start stop : Nat) : Merge Unit := do
  let len ← Proc.slice start stop pageSize
  let arrival ← bulkRead offset len
  set (← Proc.overwrite start arrival.bytes (← get))
  match arrival.outcome with
  | .ok () => pure ()
  | .error e => throw e

/-- Program the data that falls into the 4 KiB page at `offset`, keeping the
rest of that page. Answers how many bytes were taken. -/
def mergePage (offset : UInt64) (data : Bytes) : Merge Nat := do
  if data.isEmpty then
    return 0
  else
    let base := pageStart offset
    let front := pageIndex offset
    let len := min data.length (← Proc.minus pageSize front)
    let back ← Proc.count (front + len)
    if 0 < front then
      readInto base 0 front
    if back < pageSize then
      readInto (← Proc.advance base back) back pageSize
    let (here, _) ← Proc.split len data
    set (← Proc.overwrite front here (← get))
    eraseUnit base .page
    bulkWrite base (← get)
    return len

/-- Program as much of the data as one page operation takes: a whole unit if
one fits, else a part of one page. Answers how many bytes were taken. -/
def programPage (offset : UInt64) (data : Bytes) : Merge Nat := do
  match ← rewriteUnit offset data with
  | some n => return n
  | none => mergePage offset data

end NorFlash.Controller
