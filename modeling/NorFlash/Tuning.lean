import NorFlash.PollBudget

/-!
# Tuning — adjustable timing and sizing of one controller

The defaults were found on real controllers. `Tuning.validate` says which
values are usable.
-/

namespace NorFlash

/-- Timing and sizing values of a controller. -/
structure Tuning where
  /-- Microseconds between two polls. -/
  pollIntervalUs : UInt32 := 5
  /-- Microseconds a wait may take in all. -/
  pollTimeoutUs : UInt32 := 1000000
  /-- Dummy bytes ahead of read data. -/
  readDummyLen : Nat := 4
  /-- Most data bytes of one program command. -/
  writeMaxLen : Nat := 128
  /-- The byte pushed while the FIFO depth is measured. -/
  fifoFiller : UInt8 := 1
  /-- Pulse a soft reset ahead of the initialisation. -/
  softResetOnAttach : Bool := false
  deriving DecidableEq, Repr

namespace Tuning

/-- The budget of every wait. -/
def pollBudget (t : Tuning) : PollBudget where
  intervalUs := t.pollIntervalUs
  timeoutUs := t.pollTimeoutUs

/-- Why a tuning is not usable. -/
inductive Defect where
  | zeroInterval
  | timeoutBelowInterval (interval : UInt32)
  | zeroWriteLimit
  | zeroFiller
  deriving DecidableEq, Repr

/-- The wording of a defect. -/
def Defect.message : Defect → String
  | .zeroInterval => "invalid tuning value 'poll_interval_us': must be non-zero"
  | .timeoutBelowInterval interval =>
    "invalid tuning value 'poll_timeout_us': must be at least poll_interval_us (" ++
      toString interval.toNat ++ ")"
  | .zeroWriteLimit => "invalid tuning value 'write_max_len': must be non-zero"
  | .zeroFiller =>
    "invalid tuning value 'fifo_filler': a zero filler byte makes the controller flag an error"

/-- The first defect of a tuning. -/
def defect? (t : Tuning) : Option Defect :=
  if t.pollIntervalUs = 0 then some .zeroInterval
  else if t.pollTimeoutUs < t.pollIntervalUs then
    some (.timeoutBelowInterval t.pollIntervalUs)
  else if t.writeMaxLen = 0 then some .zeroWriteLimit
  else if t.fifoFiller = 0 then some .zeroFiller
  else none

end Tuning

end NorFlash
