import NorFlash.RegisterBlock
import NorFlash.Tuning

/-!
# Bus — transactions over the byte FIFOs

A transaction resets both FIFOs, selects a slave, pushes the bytes of a
command into the TX FIFO, runs one burst, pulls as many bytes out of the RX
FIFO and deselects every slave. Each byte clocked out clocks one byte in, so
the RX FIFO is drained even when the response is not wanted.
-/

namespace NorFlash

/-- Bytes that arrived before a transfer ended, and how it ended. A transfer
that failed keeps the bytes that arrived ahead of the failure. -/
structure Arrival where
  bytes : Bytes
  outcome : Except Error Unit

namespace Arrival

/-- A transfer that failed before any byte arrived. -/
def refused (e : Error) : Arrival := ⟨[], .error e⟩

/-- A buffer after the bytes that arrived were stored at its front. -/
def into (a : Arrival) (buffer : Bytes) : Bytes :=
  a.bytes ++ buffer.drop a.bytes.length

end Arrival

/-- What the transaction engine knows: the wait budget, the measured FIFO
depth (zero before it is measured) and the slave of the next transaction. -/
structure Bus where
  budget : PollBudget
  fifoDepth : Nat := 0
  slave : UInt8 := 0
  deriving DecidableEq, Repr

/-- An operation of the transaction engine that may fail. What it changed before it
failed stays changed. -/
abbrev BusProc := ExceptT Error (StateT Bus Proc)

namespace Bus

/-- The engine that an operation leaves if it does not fail. -/
def after {α : Type} (b : Bus) (x : BusProc α) : Attempt Bus :=
  ExceptT.mk do
    let (r, b) ← x.run.run b
    return r.map fun _ => b

section Laws

variable {α β : Type} (b : Bus)

theorem after_bind_get (f : Bus → BusProc β) : b.after (get >>= f) = b.after (f b) := rfl

theorem after_bind_modify (g : Bus → Bus) (f : PUnit → BusProc β) :
    b.after (modify g >>= f) = (g b).after (f ⟨⟩) := rfl

theorem run_bind_get (f : Bus → BusProc β) :
    (get >>= f : BusProc β).run.run b = (f b).run.run b := rfl

/-- An attempt as a first step. -/
theorem run_bind_attempt (x : Attempt α) (f : α → BusProc β) :
    (liftM x >>= f : BusProc β).run.run b = x.run.bind fun r => (ExceptT.bindCont f r).run b :=
  Proc.bind_assoc x.run _ _

theorem after_bind_attempt (x : Attempt α) (f : α → BusProc β) :
    b.after (liftM x >>= f) = x >>= fun a => b.after (f a) := by
  refine ExceptT.ext ?_
  show ((liftM x >>= f : BusProc β).run.run b).bind _ = x.run.bind _
  rw [run_bind_attempt, Proc.bind_assoc]
  congr 1
  funext r
  cases r <;> rfl

theorem after_bind_lift (x : Proc α) (f : α → BusProc β) :
    b.after (liftM x >>= f) = liftM x >>= fun a => b.after (f a) := by
  have hlift : (liftM x : BusProc α) = liftM (liftM x : Attempt α) := by
    funext b
    show (x.bind _).bind _ = (x.bind _).bind _
    rw [Proc.bind_assoc, Proc.bind_assoc]
    rfl
  rw [hlift, after_bind_attempt]

end Laws

/-- Most bytes pushed while the FIFO depth is measured. -/
def probeLimit : Nat := 65536

/-- Pulse the soft reset of the controller. -/
def softReset : Proc Unit :=
  Proc.store .reset softResetKey

/-- Set the control word a controller starts with. -/
def initControl : Proc Unit :=
  Proc.setControl Control.initState

/-- Fail if the status shows an error. -/
def checkErrors : Attempt Unit := do
  let status ← Proc.status
  if Status.hasError status then
    Proc.log (.statusError status)
    throw (.protocol status)
  else
    pure ()

/-- Poll for a condition within the wait budget. The pauses are counted in 32
bits. -/
def await (b : Bus) (condition : Proc Bool) : Proc (Option Nat) :=
  b.budget.waitCounting Proc.tally condition Proc.pause

/-- Both FIFOs report empty. -/
def fifosIdle : Proc Bool := do
  return Status.isIdle (← Proc.status)

/-- Empty both FIFOs, unless they are empty already. -/
def resetFifos (b : Bus) : Attempt Unit := do
  if ← fifosIdle then
    pure ()
  else
    let control ← Proc.control
    Proc.setControl (control ||| Control.fifoResets)
    match ← b.await fifosIdle with
    | some _ => pure ()
    | none =>
      let status ← Proc.status
      Proc.log (.fifoResetFailed status)
      throw (.timeout .fifoReset)

/-! ## Slave select -/

/-- The slave-select word that selects one slave: its bit is clear. -/
def selectWord (slave : UInt8) : UInt32 :=
  ~~~((1 : UInt32) <<< slave.toUInt32)

/-- Deselect every slave. -/
def deselect : Proc Unit :=
  Proc.store .slaveSelect slaveSelectNone

/-- Select a slave, or none. A slave without a select line deselects all. -/
def activate : Option UInt8 → Proc Unit
  | none => deselect
  | some slave => do
    if slave.toNat < maxSlaves then
      let line ← Proc.bit slave
      Proc.store .slaveSelect (~~~line)
    else
      Proc.log (.noSelectLine slave)
      deselect

/-! ## Bursts -/

/-- Push bytes into the TX FIFO. -/
def push : Bytes → Proc Unit
  | [] => pure ()
  | byte :: rest => do
    Proc.sendByte byte
    push rest

/-- The TX FIFO is empty or an error shows. -/
def txSettled : Proc Bool := do
  return hasAny (← Proc.status) (Status.txEmpty ||| Status.errors)

/-- Push bytes while transfers are inhibited, then run them as one burst. -/
def transmit (b : Bus) (bytes : Bytes) : Attempt Unit := do
  if b.fifoDepth < bytes.length then
    throw (.transferTooLarge bytes.length b.fifoDepth)
  else
    let control ← Proc.control
    Proc.setControl (control ||| Control.transInhibit)
    push bytes
    Proc.setControl (control &&& ~~~Control.transInhibit)
    let settled ← b.await txSettled
    Proc.setControl (control ||| Control.transInhibit)
    match settled with
    | some _ => checkErrors
    | none =>
      let status ← Proc.status
      if Status.hasError status then
        Proc.log (.burstFailed status)
        throw (.protocol status)
      else
        Proc.log (.burstTimedOut status)
        throw (.timeout .txDrain)

/-- The RX FIFO reports empty. -/
def rxEmpty : Proc Bool := do
  return hasAll (← Proc.status) Status.rxEmpty

/-- Pull `left` more of `expected` bytes; `got` holds the `taken` ones pulled so
far, the newest first. If there is a buffer of some capacity, each byte needs a
place in it. The RX FIFO must be empty afterwards. -/
def pull (expected : Nat) (capacity : Option Nat) :
    (left taken : Nat) → (got : Bytes) → Proc Arrival
  | 0, _, got => do
    if ← rxEmpty then
      return ⟨got.reverse, ← checkErrors.run⟩
    else
      Proc.log .rxNotDrained
      return ⟨got.reverse, .error .rxOverflow⟩
  | left + 1, taken, got => do
    if ← rxEmpty then
      return ⟨got.reverse, .error (.rxUnderflow expected taken)⟩
    else
      let byte ← Proc.pullByte
      match capacity with
      | some size => Proc.place taken size
      | none => pure ()
      pull expected capacity left (taken + 1) (byte :: got)

/-- Pull exactly `len` bytes into a buffer of `capacity` bytes. -/
def receive (capacity len : Nat) : Proc Arrival :=
  if capacity < len then
    pure (.refused (.bufferTooSmall len capacity))
  else
    pull len (some capacity) len 0 []

/-- Pull exactly `len` bytes and drop them. -/
def drain (len : Nat) : Attempt Unit :=
  ExceptT.mk do return (← pull len none len 0 []).outcome

/-- Run one burst. The response counts only if it is wanted; otherwise it is
drained, whatever comes of that. -/
def transfer (b : Bus) (command : Bytes) (wanted : Bool) : Proc Arrival := do
  match ← (b.transmit command).run with
  | .error e => return .refused e
  | .ok () =>
    if wanted then
      receive command.length command.length
    else
      match ← (drain command.length).run with
      | .error e =>
        Proc.log (.drainFailureIgnored e)
        return ⟨[], .ok ()⟩
      | .ok () => return ⟨[], .ok ()⟩

/-- Run one transaction on the active slave and deselect every slave
afterwards. Bytes arrive only if they are wanted. -/
def transaction (b : Bus) (command : Bytes) (wanted : Bool) : Proc Arrival := do
  if b.fifoDepth < command.length then
    return .refused (.transferTooLarge command.length b.fifoDepth)
  else
    match ← b.resetFifos.run with
    | .error e => return .refused e
    | .ok () =>
      if b.slave.toNat < maxSlaves then
        activate (some b.slave)
        let arrival ← b.transfer command wanted
        activate none
        return arrival
      else
        return .refused (.slaveOutOfRange b.slave)

/-- Run a command whose response does not matter. -/
def send (b : Bus) (command : Bytes) : Attempt Unit :=
  ExceptT.mk do return (← b.transaction command false).outcome

/-- Run a command for its response, which is as long as the command. -/
def exchange (b : Bus) (command : Bytes) : Attempt Bytes := do
  let arrival ← b.transaction command true
  match arrival.outcome with
  | .error e => throw e
  | .ok () => return arrival.into command

/-! ## FIFO depth -/

/-- The TX FIFO is full or an error shows. -/
def txFull : Proc Bool := do
  return hasAny (← Proc.status) (Status.txFull ||| Status.errors)

/-- Push fillers until the TX FIFO is full, at most `left` more. Answers how
many were pushed, if it became full. -/
def fill (filler : UInt8) : (left pushed : Nat) → Proc (Option Nat)
  | 0, pushed => do
    return if ← txFull then some pushed else none
  | left + 1, pushed => do
    if ← txFull then
      return some pushed
    else
      Proc.sendByte filler
      fill filler left (← Proc.count (pushed + 1))

/-- Fill the TX FIFO while transfers are inhibited, and put the control word back.
Answers how many fillers it took. -/
def measureDepth (filler : UInt8) : Attempt Nat := do
  let control ← Proc.control
  Proc.setControl (control ||| Control.transInhibit)
  match ← fill filler probeLimit 0 with
  | none =>
    Proc.log (.fifoNeverFull probeLimit)
    Proc.setControl control
    throw .fifoProbeFailed
  | some depth =>
    let status ← Proc.status
    if Status.hasError status then
      Proc.log (.fifoProbeError status)
      Proc.setControl control
      throw .fifoProbeFailed
    else
      Proc.setControl control
      return depth

/-- Measure the depth of the TX FIFO, and keep it unless it is zero. -/
def discoverFifoDepth (filler : UInt8) : BusProc Nat := do
  (← get).resetFifos
  let depth ← measureDepth filler
  (← get).resetFifos
  if depth = 0 then
    throw .fifoProbeFailed
  else
    modify ({ · with fifoDepth := depth })
    Proc.log (.fifoDepth depth)
    return depth

/-- The bus that is left where its depth was measured. -/
theorem after_discoverFifoDepth (b : Bus) (filler : UInt8) :
    b.after (discoverFifoDepth filler) = (do
      b.resetFifos
      let depth ← measureDepth filler
      b.resetFifos
      if depth = 0 then
        throw .fifoProbeFailed
      else
        Proc.log (.fifoDepth depth)
        return { b with fifoDepth := depth } : Attempt Bus) := by
  rw [discoverFifoDepth, after_bind_get, after_bind_attempt]
  congr 1
  funext _
  rw [after_bind_attempt]
  congr 1
  funext depth
  rw [after_bind_get, after_bind_attempt]
  congr 1
  funext _
  split
  · rfl
  · rw [after_bind_modify, after_bind_lift]
    rfl

/-! ## Plain commands -/

/-- The chip is not busy; a status read that fails counts as busy. -/
def isReady (b : Bus) : Proc Bool := do
  match ← (b.exchange [Opcode.readStatus, 0]).run with
  | .ok response => return response.getD 1 0 &&& Opcode.busyBit == 0
  | .error e =>
    Proc.log (.statusReadFailed e)
    return false

/-- Poll until the chip is ready. -/
def waitUntilReady (b : Bus) : Attempt Unit := do
  match ← b.await b.isReady with
  | some _ => pure ()
  | none =>
    Proc.log .deviceNotReady
    throw (.timeout .deviceReady)

/-- Set the write enable latch. -/
def enableWrite (b : Bus) : Attempt Unit :=
  b.send [Opcode.writeEnable]

/-- The five bytes that answer the ID read. -/
def readId (b : Bus) : Attempt Bytes :=
  b.exchange [Opcode.readId, 0, 0, 0, 0]

/-- Vendor and capacity that the ID stands for. -/
def identify (b : Bus) : Attempt (Vendor × Nat) := do
  let id ← b.readId
  let vendorId := id.getD 1 0
  let code := id.getD 3 0
  match Vendor.ofId? vendorId with
  | none =>
    Proc.log (.vendorUnknown vendorId)
    throw (.unknownVendor vendorId)
  | some vendor =>
    match vendor.capacity? code with
    | none =>
      Proc.log (.capacityUnknown vendor code)
      throw (.unknownCapacity code)
    | some capacity =>
      Proc.log (.idRead vendorId (id.getD 2 0) code)
      return (vendor, capacity)

end Bus

end NorFlash
