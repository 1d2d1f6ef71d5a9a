import NorFlash.Controller

/-!
# Transfer — moving data burst by burst

One burst carries at most one FIFO of bytes. A read burst stays inside one
4 KiB page; a program burst stays inside one 256-byte program page and below
the tuned limit. `bulkRead` and `bulkWrite` repeat bursts until the whole
range is done.
-/

namespace NorFlash.Controller

/-- Read up to `len` bytes in one burst. Answers at least one byte, unless
`len` is zero. -/
def readChunk (offset : UInt64) (len : Nat) : Drive Bytes := do
  if len = 0 then
    return []
  else
    let stop ← Proc.count (pageIndex offset + len)
    if pageSize < stop then
      throw .crossesPageBoundary
    else
      buildHeader Opcode.quadRead (Address.ofOffset offset)
      let c ← get
      let dataStart ← Proc.count (Opcode.headerLen + c.tuning.readDummyLen)
      let room := c.scratch.length
      let payload := min len (room - dataStart)
      if payload = 0 then
        let least ← Proc.count (dataStart + 1)
        throw (.transferTooLarge least room)
      else
        let total ← Proc.count (dataStart + payload)
        let blank ← Proc.slice Opcode.headerLen total room
        let scratch ← Proc.overwrite Opcode.headerLen (Bytes.filled blank 0) c.scratch
        set { c with scratch }
        runScratch total true
        let (response, _) ← Proc.split total (← get).scratch
        let (_, data) ← Proc.split dataStart response
        let here ← Proc.slice 0 payload len
        Proc.equal here data.length
        return data

/-- Program bytes from the front of `data` in one burst, at an erased place.
Answers how many, at least one unless there is no data. -/
def writeChunk (offset : UInt64) (data : Bytes) : Drive Nat := do
  if data.isEmpty then
    return 0
  else
    buildHeader (← get).vendor.programOpcode (Address.ofOffset offset)
    let c ← get
    let room := c.scratch.length
    let pageLeft ← Proc.minus programPageSize (offset.toNat % programPageSize)
    let n := min data.length (min (min (room - Opcode.headerLen) c.tuning.writeMaxLen) pageLeft)
    if n = 0 then
      let least ← Proc.count (Opcode.headerLen + 1)
      throw (.transferTooLarge least room)
    else
      let total ← Proc.count (Opcode.headerLen + n)
      let (payload, _) ← Proc.split n data
      let scratch ← Proc.overwrite Opcode.headerLen payload c.scratch
      set { c with scratch }
      enableWrite
      runScratch total false
      waitUntilReady
      return n

/-- How many of `left` more bytes lie in the page of a position, where `done` bytes
of the buffer are filled. -/
def pagePart (position : UInt64) (left done : Nat) : Proc Nat := do
  let pageLeft ← Proc.minus pageSize (pageIndex position)
  let pageStop ← Proc.count (done + pageLeft)
  Proc.slice done (min (done + left) pageStop) (done + left)

/-- Read `left` more bytes; `done` bytes from `offset` on are in `got`, the
newest first. Each burst brings a byte, so `fuel` of `left` is enough. -/
def readOn (offset : UInt64) :
    (fuel left done : Nat) → (got : Bytes) → StateT Controller Proc Arrival
  | _, 0, _, got => pure ⟨got.reverse, .ok ()⟩
  | 0, _ + 1, _, _ => (Proc.trap : Proc Arrival)
  | fuel + 1, left + 1, done, got => do
    let position ← Proc.advance offset done
    let here ← pagePart position (left + 1) done
    match ← (readChunk position here).run with
    | .error e => return ⟨got.reverse, .error e⟩
    | .ok bytes =>
      let filled ← Proc.count (done + bytes.length)
      readOn offset fuel (left + 1 - bytes.length) filled (bytes.reverseAux got)

/-- Read `len` bytes. A failed read keeps the bytes of its completed
bursts. -/
def bulkRead (offset : UInt64) (len : Nat) : StateT Controller Proc Arrival := do
  let arrival ← readOn offset len len 0 []
  match arrival.outcome with
  | .error _ => return arrival
  | .ok () =>
    Proc.giveWay
    return arrival

/-- Program the rest of the data, `done` bytes from `offset` on. Each burst
takes a byte, so `fuel` of the length is enough. -/
def writeOn (offset : UInt64) : (fuel done : Nat) → Bytes → Drive Unit
  | _, _, [] => pure ()
  | 0, _, _ :: _ => (Proc.trap : Proc Unit)
  | fuel + 1, done, byte :: more => do
    let position ← Proc.advance offset done
    let n ← writeChunk position (byte :: more)
    let (_, rest) ← Proc.split n (byte :: more)
    writeOn offset fuel (← Proc.count (done + n)) rest

/-- Program all of the data. -/
def bulkWrite (offset : UInt64) (data : Bytes) : Drive Unit := do
  writeOn offset data.length 0 data
  Proc.giveWay

end NorFlash.Controller
