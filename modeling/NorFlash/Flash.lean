import NorFlash.Controller.Page

/-!
# Flash — one flat address space

A flash is an attached controller seen as a randomly readable and writable
range of bytes per chip. Reads and writes are cut off at the end of the chip.
One session at a time may be open on it.
-/

namespace NorFlash

/-- An attached flash. -/
structure Flash where
  controller : Controller
  sessionOpen : Bool := false

/-- An operation on a flash. -/
abbrev FlashProc := StateT Flash Proc

namespace Flash

/-- Bytes of each chip. -/
def capacity (f : Flash) : Nat := f.controller.capacity

/-- Vendor of the chips. -/
def vendor (f : Flash) : Vendor := f.controller.vendor

/-- Depth of the controller's FIFOs. -/
def fifoDepth (f : Flash) : Nat := f.controller.bus.fifoDepth

/-- Attach to a controller. -/
def attach (tuning : Tuning) : Attempt Flash := do
  return { controller := ← Controller.attach tuning }

/-- Bytes from `offset` to the end of its chip; none from beyond. -/
def remaining (f : Flash) (offset : UInt64) : Nat :=
  f.capacity - (chipOffset offset).toNat

/-- Run an operation of the controller. -/
def onController {α : Type} (x : StateT Controller Proc α) : FlashProc α := fun f => do
  let (a, controller) ← x f.controller
  return (a, { f with controller })

/-- Address the slave of an offset and wait until it is ready. -/
def prepare (offset : UInt64) : Drive Unit := do
  Controller.setActiveSlave (Address.ofOffset offset).slave
  Controller.waitUntilReady

/-! ## Reading -/

/-- Read `left` more bytes page by page; `done` bytes from `offset` on are in
`got`, the newest first. Each page brings a byte, so `fuel` of `left` is
enough. -/
def readPages (offset : UInt64) :
    (fuel left done : Nat) → (got : Bytes) → StateT Controller Proc Arrival
  | _, 0, _, got => pure ⟨got.reverse, .ok ()⟩
  | 0, _ + 1, _, _ => (Proc.trap : Proc Arrival)
  | fuel + 1, left + 1, done, got => do
    let position ← Proc.advance offset done
    let pageLeft ← Proc.minus pageSize (pageIndex position)
    let stop ← Proc.count (done + min (left + 1) pageLeft)
    let here ← Proc.slice done stop (done + (left + 1))
    let arrival ← Controller.bulkRead position here
    let got := arrival.bytes.reverseAux got
    match arrival.outcome with
    | .error e => return ⟨got.reverse, .error e⟩
    | .ok () => readPages offset fuel (left + 1 - here) stop got

/-- Read up to `len` bytes. Fewer arrive at the end of the chip, and none from
beyond it. -/
def read (offset : UInt64) (len : Nat) : FlashProc Arrival := do
  let len := min len ((← get).remaining offset)
  if len = 0 then
    return ⟨[], .ok ()⟩
  else
    Proc.log (.reading offset len)
    onController do
      match ← (prepare offset).run with
      | .error e => return .refused e
      | .ok () => readPages offset len len 0 []

/-- Read exactly `len` bytes, or fail if the chip ends before. -/
def readAt (offset : UInt64) (len : Nat) : FlashProc Arrival := do
  if (← get).remaining offset < len then
    return .refused .addressOutOfBounds
  else
    read offset len

/-! ## Writing and erasing -/

/-- Program the rest of the data page by page, `done` bytes from `offset` on;
`page` is the buffer that pages are merged in. Each step takes a byte, so
`fuel` of the length is enough. -/
def writePages (offset : UInt64) :
    (fuel done : Nat) → (data page : Bytes) →
      StateT Controller Proc (Except PartialWrite Nat)
  | _, done, [], _ => pure (.ok done)
  | 0, _, _ :: _, _ => (Proc.trap : Proc (Except PartialWrite Nat))
  | fuel + 1, done, byte :: more, page => do
    let position ← Proc.advance offset done
    let (result, page) ← (Controller.programPage position (byte :: more)).run.run page
    match result with
    | .error e =>
      Proc.log (.writeFailed position e)
      return .error ⟨done, e⟩
    | .ok n =>
      let (_, rest) ← Proc.split n (byte :: more)
      writePages offset fuel (← Proc.count (done + n)) rest page

/-- Program data, cut off at the end of the chip; answers how many bytes. No
data, or an offset beyond the end, is refused. -/
def write (offset : UInt64) (data : Bytes) : FlashProc (Except PartialWrite Nat) := do
  let data := data.take ((← get).remaining offset)
  if data.isEmpty then
    return .error ⟨0, .noSpace⟩
  else
    Proc.log (.writing offset data.length)
    onController do
      match ← (prepare offset).run with
      | .error e => return .error ⟨0, e⟩
      | .ok () => writePages offset data.length 0 data (Bytes.filled pageSize 0)

/-- Erase the unit of `size` bytes that starts at `offset`. -/
def erase (offset : UInt64) (size : Nat) : FlashProc (Except Error Unit) := do
  if (← get).remaining offset < size then
    return .error .addressOutOfBounds
  else
    onController (Controller.erase offset size).run

end Flash

/-! ## Attributes -/

/-- A property of a flash that users may ask for by name. -/
inductive Attribute where
  | flashType
  | size
  deriving DecidableEq, Repr

namespace Attribute

/-- Every attribute. -/
def all : List Attribute := [flashType, size]

/-- Name of the attribute. -/
def name : Attribute → String
  | flashType => "flash_type"
  | size => "size"

/-- The attribute of this name. -/
def ofName? (name : String) : Option Attribute :=
  all.find? (·.name == name)

/-- The attribute of a flash, as a line of text. -/
def render (f : Flash) : Attribute → String
  | flashType => "spi\n"
  | size => toString f.capacity ++ "\n"

end Attribute

end NorFlash
