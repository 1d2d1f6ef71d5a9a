import NorFlash.Emulator.Chip
import NorFlash.Emulator.Fifo
import NorFlash.RegisterBlock

/-!
# Emulator — an emulated controller with its chips

Bytes written to the TX register wait in the TX FIFO. Clearing the inhibit bit
runs them as one burst on the selected chip, whose response goes into the RX
FIFO. Statistics are collected, and a fault can be armed for a burst.
-/

namespace NorFlash

/-- A fault for one burst. -/
inductive Fault where
  /-- The burst never starts, so the TX FIFO stays full. -/
  | stall
  /-- The burst is dropped and these status bits are raised. -/
  | error (status : UInt32)
  /-- The response has a byte too many. -/
  | extraRx
  /-- The last byte of the response is lost. -/
  | shortRx
  /-- The response has a byte too many, and only a soft reset empties the RX
  FIFO again. -/
  | stuckFifo
  deriving DecidableEq, Repr

/-- An armed fault: it strikes a burst that starts with `opcode`, or any burst
if there is none, after `skip` such bursts went through. -/
structure ArmedFault where
  fault : Fault
  opcode : Option UInt8 := none
  skip : Nat := 0
  deriving DecidableEq, Repr

/-- An erase that was carried out. -/
structure EraseRecord where
  slave : Fin maxSlaves
  base : Nat
  size : Nat
  deriving DecidableEq, Repr

/-- What an emulator observed. -/
structure EmulatorStats where
  bursts : Nat := 0
  /-- Bytes of the longest burst. -/
  maxBurstLen : Nat := 0
  /-- Data bytes of the longest program command. -/
  maxProgramLen : Nat := 0
  /-- The erases, in order. -/
  erases : Array EraseRecord := #[]
  /-- Commands dropped by a busy chip. -/
  commandsWhileBusy : Nat := 0
  /-- Commands dropped for want of the write enable latch. -/
  rejectedCommands : Nat := 0
  softResets : Nat := 0
  delayedUs : Nat := 0
  deriving DecidableEq, Repr

/-- An emulated controller. -/
structure Emulator where
  config : EmulatorConfig
  chips : Vector Chip maxSlaves
  control : UInt32
  slaveSelect : UInt32
  tx : Fifo
  rx : Fifo
  /-- Raised error bits. -/
  errors : UInt32
  /-- FIFO resets do not empty the RX FIFO. -/
  rxStuck : Bool
  armed : Option ArmedFault
  stats : EmulatorStats

namespace Emulator

/-- Control word after a reset. -/
def controlAfterReset : UInt32 := 0x180

/-- An emulator with erased chips. -/
def ofConfig (config : EmulatorConfig) : Emulator where
  config
  chips := Vector.replicate maxSlaves { contents := { capacity := config.capacity } }
  control := controlAfterReset
  slaveSelect := 0xffffffff
  tx := .empty
  rx := .empty
  errors := 0
  rxStuck := false
  armed := none
  stats := {}

/-! ## Registers -/

/-- The status word. -/
def status (e : Emulator) : UInt32 :=
  e.errors |||
    (if e.rx.isEmpty then Status.rxEmpty else 0) |||
    (if e.config.fifoDepth ≤ e.rx.size then Status.rxFull else 0) |||
    (if e.tx.isEmpty then Status.txEmpty else 0) |||
    (if e.config.fifoDepth ≤ e.tx.size then Status.txFull else 0)

/-- The chip whose select bit alone is clear. -/
def selected? (e : Emulator) : Option (Fin maxSlaves) :=
  if e.slaveSelect &&& 0b11 = 0b10 then some ⟨0, by decide⟩
  else if e.slaveSelect &&& 0b11 = 0b01 then some ⟨1, by decide⟩
  else none

/-- Put the controller, but not the chips, into its initial state. -/
def softReset (e : Emulator) : Emulator :=
  { e with
    control := controlAfterReset
    slaveSelect := 0xffffffff
    tx := .empty
    rx := .empty
    errors := 0
    rxStuck := false
    stats := { e.stats with softResets := e.stats.softResets + 1 } }

/-! ## Bursts -/

/-- The fault that strikes a burst with this opcode, and what stays armed. -/
def strike (armed : Option ArmedFault) (opcode : UInt8) :
    Option Fault × Option ArmedFault :=
  match armed with
  | none => (none, none)
  | some plan =>
    if plan.opcode.all (· == opcode) then
      match plan.skip with
      | 0 => (some plan.fault, none)
      | n + 1 => (none, some { plan with skip := n })
    else
      (none, some plan)

/-- Statistics after a chip carried out a command. -/
def observe (stats : EmulatorStats) (slave : Fin maxSlaves) :
    Chip.Effect → EmulatorStats
  | .plain | .unsupported => stats
  | .whileBusy => { stats with commandsWhileBusy := stats.commandsWhileBusy + 1 }
  | .rejected => { stats with rejectedCommands := stats.rejectedCommands + 1 }
  | .programmed len => { stats with maxProgramLen := max stats.maxProgramLen len }
  | .erased base size => { stats with erases := stats.erases.push ⟨slave, base, size⟩ }

/-- Let the selected chip carry out a command; without one the line reads all
ones. -/
def execute (e : Emulator) (command : Bytes) : Bytes × Emulator :=
  match e.selected? with
  | none => (Bytes.filled command.length 0xff, e)
  | some slave =>
    let reaction := e.chips[slave].react e.config command
    (reaction.response,
      { e with
        chips := e.chips.set slave reaction.chip
        stats := observe e.stats slave reaction.effect })

/-- The RX FIFO after a response, bent by a fault. -/
def arrive (rx : Fifo) (response : Bytes) : Option Fault → Fifo
  | some .extraRx | some .stuckFifo => (rx.append response).push 0
  | some .shortRx => (rx.append response).dropLast
  | _ => rx.append response

/-- Run the bytes of the TX FIFO as one burst. -/
def runBurst (e : Emulator) : Emulator :=
  let burst := e.tx.toList
  let (fault, armed) := strike e.armed (burst.headD 0)
  match fault with
  | some .stall => { e with errors := 0, armed }
  | some (.error bits) => { e with errors := bits, armed, tx := .empty }
  | fault =>
    let stats := { e.stats with
      bursts := e.stats.bursts + 1
      maxBurstLen := max e.stats.maxBurstLen burst.length }
    let (response, e) := execute { e with errors := 0, armed, tx := .empty, stats } burst
    { e with
      rx := arrive e.rx response fault
      rxStuck := e.rxStuck || fault == some .stuckFifo }

/-- Take the FIFO resets of a control word. -/
def resetFifos (e : Emulator) (word : UInt32) : Emulator :=
  let tx := if hasAll word Control.txFifoReset then .empty else e.tx
  let rx := if hasAll word Control.rxFifoReset && !e.rxStuck then .empty else e.rx
  { e with tx, rx }

/-- A control word starts a burst: it lifts the inhibit bit of an enabled
master whose TX FIFO holds bytes. -/
def startsBurst (e : Emulator) (word : UInt32) : Bool :=
  hasAll e.control Control.transInhibit &&
    hasAll word (Control.enabled ||| Control.masterMode) &&
    !hasAll word Control.transInhibit && !e.tx.isEmpty

/-- Write the control register. -/
def writeControl (e : Emulator) (word : UInt32) : Emulator :=
  let e := e.resetFifos word
  let starts := e.startsBurst word
  let e := { e with control := word &&& ~~~Control.fifoResets }
  if starts then e.runBurst else e

/-! ## The register block -/

/-- Read a register. -/
def read (e : Emulator) : Register → UInt32 × Emulator
  | .control => (e.control, e)
  | .status => (e.status, e)
  | .rx =>
    match e.rx.pop? with
    | some (b, rx) => (b.toUInt32, { e with rx })
    | none => (0, e)
  | .slaveSelect => (e.slaveSelect, e)
  | .reset | .tx => (0, e)

/-- Write a register. -/
def write (e : Emulator) (value : UInt32) : Register → Emulator
  | .reset => if value = softResetKey then e.softReset else e
  | .control => e.writeControl value
  | .tx => if e.tx.size < e.config.fifoDepth then { e with tx := e.tx.push value.toUInt8 } else e
  | .slaveSelect => { e with slaveSelect := value }
  | .status | .rx => e

/-- Log lines of a chip about a command. -/
def chipRemarks (opcode : UInt8) : Chip.Effect → List Message
  | .whileBusy => [.commandWhileBusy opcode]
  | .unsupported => [.commandUnsupported opcode]
  | _ => []

/-- Log lines about the burst in the TX FIFO. -/
def burstRemarks (e : Emulator) : List Message :=
  let burst := e.tx.toList
  let opcode := burst.headD 0
  match (strike e.armed opcode).1 with
  | some .stall => [.burstStalled opcode]
  | some (.error _) => [.burstDropped opcode]
  | _ =>
    match e.selected? with
    | none => []
    | some slave => chipRemarks opcode (e.chips[slave].react e.config burst).effect

/-- Log lines about a write to the control register. -/
def controlRemarks (e : Emulator) (word : UInt32) : List Message :=
  let e := e.resetFifos word
  if e.startsBurst word then e.burstRemarks else []

/-- The emulator as a register block. -/
def block : RegisterBlock Emulator where
  read offset e :=
    match Register.ofOffset? offset with
    | some r => e.read r
    | none => (0, e)
  write offset value e :=
    match Register.ofOffset? offset with
    | some r => e.write value r
    | none => e
  delay us e :=
    { e with stats := { e.stats with delayedUs := e.stats.delayedUs + us.toNat } }
  remarks offset value e :=
    if offset = Register.control.offset then e.controlRemarks value else []

/-! ## Hands on the device -/

/-- A range of `len` bytes at `offset` of a chip whose end fits 64 bits. -/
def range? (slave : Nat) (offset : UInt64) (len : Nat) : Option (Fin maxSlaves × Nat) :=
  if h : slave < maxSlaves then
    if offset.toNat + (len - 1) < wordLimit then some (⟨slave, h⟩, offset.toNat) else none
  else none

/-- Set contents of a chip directly, as far as the offsets fit 64 bits. Answers
whether the chip exists and everything was set. -/
def load (e : Emulator) (slave : Nat) (offset : UInt64) (data : Bytes) : Emulator × Bool :=
  if h : slave < maxSlaves then
    let fitting := data.take (wordLimit - offset.toNat)
    let chip := e.chips[slave]
    let chip := { chip with contents := chip.contents.storeRange offset.toNat fitting }
    ({ e with chips := e.chips.set slave chip }, fitting.length == data.length)
  else
    (e, false)

/-- Contents of a chip, if the range exists. -/
def contents? (e : Emulator) (slave : Nat) (offset : UInt64) (len : Nat) : Option Bytes := do
  let (slave, address) ← range? slave offset len
  return e.chips[slave].contents.readRange address len

/-- Keep a chip busy for some status reads. -/
def setBusy? (e : Emulator) (slave : Nat) (polls : UInt32) : Option Emulator := do
  let (slave, _) ← range? slave 0 0
  return { e with chips := e.chips.set slave { e.chips[slave] with busy := polls } }

/-- Arm a fault; it takes the place of one that is armed. -/
def arm (e : Emulator) (fault : ArmedFault) : Emulator :=
  { e with armed := some fault }

end Emulator

end NorFlash
