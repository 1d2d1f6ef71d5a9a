import NorFlash.Flash

/-!
# Session — an exclusive cursor on a flash

A session reads and writes at its position and advances it by the bytes that
went through. Positions are signed 64-bit file offsets. A write that stopped
early reports what it wrote; its cause comes up with the next call.
-/

namespace NorFlash

/-- An open session. -/
structure Session where
  position : UInt64 := 0
  deriving DecidableEq, Repr

/-- Where a seek counts from. -/
inductive SeekFrom where
  | start (offset : UInt64)
  | current (delta : Int64)
  | fromEnd (delta : Int64)
  deriving DecidableEq, Repr

namespace Session

/-- Open the session, unless one is open. -/
def openOn : FlashProc (Except Error Session) := do
  let f ← get
  if f.sessionOpen then
    return .error .busy
  else
    set { f with sessionOpen := true }
    return .ok {}

/-- Close the session. -/
def close : FlashProc Unit :=
  modify ({ · with sessionOpen := false })

/-- A call on an open session. -/
abbrev Call := StateT Session FlashProc

/-- Move the position on. -/
def advance (n : Nat) : Call Unit := do
  let s ← get
  set { s with position := ← Proc.advance s.position n }

/-- Read up to `len` bytes at the position. A read that failed still shows the
bytes that arrived. -/
def read (len : Nat) : Call Arrival := do
  let arrival ← Flash.read (← get).position len
  match arrival.outcome with
  | .error _ => return arrival
  | .ok () =>
    advance arrival.bytes.length
    return arrival

/-- Write data at the position; answers how many bytes were accepted. -/
def write (data : Bytes) : Call (Except IoError Nat) := do
  match ← Flash.write (← get).position data with
  | .ok n =>
    advance n
    return .ok n
  | .error stopped =>
    if stopped.written = 0 then
      return .error stopped.toIoError
    else
      advance stopped.written
      return .ok stopped.written

/-- Write all of the data, calling again for what was not accepted. Each call
accepts a byte, so `fuel` of the length is enough. -/
def writeAllOn : (fuel : Nat) → Bytes → Call (Except IoError Unit)
  | _, [] => pure (.ok ())
  | 0, _ :: _ => (Proc.trap : Proc (Except IoError Unit))
  | fuel + 1, byte :: more => do
    match ← write (byte :: more) with
    | .error e => return .error e
    | .ok 0 => return .error .writeZero
    | .ok n =>
      let (_, rest) ← Proc.split n (byte :: more)
      writeAllOn fuel rest

/-- Write all of the data. -/
def writeAll (data : Bytes) : Call (Except IoError Unit) :=
  writeAllOn data.length data

/-- The largest position. -/
def maxPosition : Int := signedLimit - 1

/-- The position a seek aims at, if it is a word. -/
def target (s : Session) : SeekFrom → Except IoError (Option UInt64)
  | .start offset => .ok (some offset)
  | .current delta => .ok (addSigned? s.position delta)
  | .fromEnd _ => .error .seekFromEnd

/-- Move the position, which must stay a signed one. -/
def seek (s : Session) (whence : SeekFrom) : Except IoError Session := do
  match (← s.target whence).filter fun p => (p.toNat : Int) ≤ maxPosition with
  | some position => return { position }
  | none => throw .seekOutOfRange

end Session

end NorFlash
