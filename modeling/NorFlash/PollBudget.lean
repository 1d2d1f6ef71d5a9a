/-!
# PollBudget — bounded polling

Every wait of the driver checks a condition, pauses for a fixed interval and
checks again, until the condition holds or the time is used up. The wait is
written over any monad, so the condition may itself be a whole transaction.
-/

namespace NorFlash

/-- Interval and total time of one wait, in microseconds. -/
structure PollBudget where
  intervalUs : UInt32
  timeoutUs : UInt32
  deriving DecidableEq, Repr

namespace PollBudget

/-- How many pauses the budget allows. A zero interval counts one pause per
microsecond. -/
def maxPolls (b : PollBudget) : Nat :=
  if b.intervalUs = 0 then b.timeoutUs.toNat else (b.timeoutUs / b.intervalUs).toNat

/-- Check `condition`, and pause before each further check, at most `left`
times. Each count of pauses goes to `tally`. Answers how many pauses were made
before the condition held. -/
def poll {m : Type → Type} [Monad m] (condition : m Bool) (pause : m Unit)
    (tally : Nat → m Unit) : (spent left : Nat) → m (Option Nat)
  | spent, 0 => do
    return if ← condition then some spent else none
  | spent, left + 1 => do
    if ← condition then
      return some spent
    else
      pause
      tally (spent + 1)
      poll condition pause tally (spent + 1) left

/-- Any count of pauses is fine. -/
def unlimited {m : Type → Type} [Monad m] (_ : Nat) : m Unit :=
  pure ()

/-- Wait for `condition` within the budget, pausing by `delay` and giving each count
of pauses to `tally`. -/
def waitCounting {m : Type → Type} [Monad m] (b : PollBudget) (tally : Nat → m Unit)
    (condition : m Bool) (delay : UInt32 → m Unit) : m (Option Nat) :=
  poll condition (delay b.intervalUs) tally 0 b.maxPolls

/-- Wait for `condition` within the budget, pausing by `delay`. -/
def wait {m : Type → Type} [Monad m] (b : PollBudget) (condition : m Bool)
    (delay : UInt32 → m Unit) : m (Option Nat) :=
  b.waitCounting unlimited condition delay

end PollBudget

end NorFlash
