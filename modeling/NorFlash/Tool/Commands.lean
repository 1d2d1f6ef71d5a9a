import NorFlash.Text.Quoted
import NorFlash.Tool.Desk

/-!
# Commands — information, reading, writing, erasing

Reads and writes go through a session in pieces of 64 KiB. Written data can be
read back and compared.
-/

namespace NorFlash.Command

/-- Bytes that one call on a session moves. -/
def pieceSize : Nat := 65536

/-- A number of bytes as it is shown to users. -/
def formatSize (n : Nat) : String :=
  let bytes := toString n ++ " bytes"
  if 1048576 ≤ n ∧ n % 1048576 = 0 then
    bytes ++ " (" ++ toString (n / 1048576) ++ " MiB)"
  else if 1024 ≤ n ∧ n % 1024 = 0 then
    bytes ++ " (" ++ toString (n / 1024) ++ " KiB)"
  else
    bytes

/-! ## Information -/

/-- Show what was found while attaching. -/
def info : Command Unit := do
  let f := (← get).flash
  print ("Vendor:     " ++ f.vendor.name ++ "\n")
  print ("Capacity:   " ++ formatSize f.capacity ++ "\n")
  print ("FIFO depth: " ++ toString f.fifoDepth ++ " bytes\n")
  for a in Attribute.all do
    print (Text.padRight 11 (a.name ++ ":") ++ " " ++ a.render f)

/-- The list of backends as it is shown to users. -/
def backendList : String :=
  "Available backends:\n" ++ String.join (Backend.all.map fun (name, description) =>
    "  " ++ Text.padRight 10 name ++ " - " ++ description ++ "\n")

/-- Show the backends. -/
def listBackends : Command Unit :=
  print backendList

/-! ## Reading -/

/-- Bytes from `offset` to the end of its chip; there must be some. -/
def remainingFrom (offset : UInt64) : Command Nat := do
  let f := (← get).flash
  if f.remaining offset = 0 then
    throw (.outOfRange offset f.capacity)
  else
    return f.remaining offset

/-- Read `left` more bytes piece by piece; `got` holds those read so far, the
newest first. Each piece brings a byte, so `fuel` of `left` is enough. -/
def readPieces : (fuel left : Nat) → (got : Bytes) → Session.Call (Except ToolError Bytes)
  | _, 0, got => pure (.ok got.reverse)
  | 0, _ + 1, _ => (Proc.trap : Proc (Except ToolError Bytes))
  | fuel + 1, left + 1, got => do
    let arrival ← Session.read (min (left + 1) pieceSize)
    match arrival.outcome with
    | .error e => return .error (.session (.driver e))
    | .ok () =>
      if arrival.bytes.isEmpty then
        return .ok got.reverse
      else
        readPieces fuel (left + 1 - arrival.bytes.length) (arrival.bytes.reverseAux got)

/-- Read a range, up to the end of the chip unless a length is given. -/
def readRange (offset : UInt64) (length : Option Nat) : Command Bytes := do
  let remaining ← remainingFrom offset
  let total := min (length.getD remaining) remaining
  withSession offset (readPieces total total [])

/-- Read a range into a file. -/
def read (output : String) (offset : UInt64) (length : Option Nat) : Command Unit := do
  let data ← readRange offset length
  writeFile output data
  print ("Wrote " ++ formatSize data.length ++ " to " ++ Text.Quoted.encode output ++ "\n")

/-! ## Writing -/

/-- Write data piece by piece. Each piece takes a byte, so `fuel` of the length
is enough. -/
def writePieces : (fuel : Nat) → Bytes → Session.Call (Except ToolError Unit)
  | _, [] => pure (.ok ())
  | 0, _ :: _ => (Proc.trap : Proc (Except ToolError Unit))
  | fuel + 1, byte :: more => do
    match ← Session.writeAll ((byte :: more).take pieceSize) with
    | .error e => return .error (.session e)
    | .ok () => writePieces fuel ((byte :: more).drop pieceSize)

/-- Write data, cut off at the end of the chip; answers how many bytes. -/
def writeRange (offset : UInt64) (data : Bytes) : Command Nat := do
  let remaining ← remainingFrom offset
  let data := data.take remaining
  withSession offset (writePieces data.length data)
  return data.length

/-- Compare the flash from `offset` on with the rest of the expected bytes, which
begins with piece number `i`. Each piece takes a byte, so `fuel` of the length is
enough. -/
def verifyPieces (offset : UInt64) : (fuel i : Nat) → Bytes → Command Unit
  | _, _, [] => pure ()
  | 0, _, _ :: _ => (Proc.trap : Proc Unit)
  | fuel + 1, i, byte :: more => do
    let piece := (byte :: more).take pieceSize
    let position ← Proc.advance offset (← Proc.count (i * pieceSize))
    let len ← Proc.slice 0 piece.length pieceSize
    let arrival ← onFlash (Flash.readAt position len)
    match arrival.outcome with
    | .error e => throw (.driver e)
    | .ok () =>
      match Bytes.mismatch? arrival.bytes piece with
      | some j => throw (.verifyFailed (← Proc.advance position j))
      | none => verifyPieces offset fuel (i + 1) ((byte :: more).drop pieceSize)

/-- Compare the flash from `offset` on with expected bytes. -/
def verify (offset : UInt64) (expected : Bytes) : Command Unit :=
  verifyPieces offset expected.length 0 expected

/-- Write a file, and compare if asked to. -/
def write (input : String) (offset : UInt64) (verified : Bool) : Command Unit := do
  let data ← readFile input
  print ("Read " ++ formatSize data.length ++ " from " ++ Text.Quoted.encode input ++ "\n")
  let written ← writeRange offset data
  if written < data.length then
    Proc.log (.inputTruncated written)
  if verified then
    verify offset (data.take written)
    print "Verification passed\n"

/-! ## Erasing -/

/-- Erase the unit of `size` bytes that starts at `offset`. -/
def erase (offset : UInt64) (size : Nat) : Command Unit := do
  match EraseUnit.ofBytes? size with
  | none => throw (.driver (.invalidEraseSize size))
  | some unit =>
    print ("Erasing " ++ Numeral.hexWord unit.bytes ++ " bytes at " ++
      Numeral.hexWord offset.toNat ++ "...\n")
    match ← onFlash (Flash.erase offset unit.bytes) with
    | .error e => throw (.driver e)
    | .ok () => print "Erase complete\n"

end NorFlash.Command
