import NorFlash.Proc

/-!
# RegisterBlock — blocks that procedures run against

A block answers reads and takes writes, delays and yields; its state may be
anything. `Proc.run` follows the path of a procedure on a block. A recorded
block counts and lists what happens to the block inside it; a scripted block
answers from fixed lists.
-/

namespace NorFlash

/-- A register block with states of type `σ`. Offsets count bytes from the
start of the block. -/
structure RegisterBlock (σ : Type) where
  /-- Read the word at an offset. -/
  read : UInt64 → σ → UInt32 × σ
  /-- Write the word at an offset. -/
  write : UInt64 → UInt32 → σ → σ
  /-- Let some microseconds pass. -/
  delay : UInt32 → σ → σ
  /-- Let others run. -/
  yield : σ → σ := id
  /-- Take note of a log line. -/
  note : Message → σ → σ := fun _ s => s
  /-- Log lines of the block itself about a write it is going to take. -/
  remarks : UInt64 → UInt32 → σ → List Message := fun _ _ _ => []

namespace Proc

variable {α β σ : Type}

/-- Run a procedure on a block. The value is missing if the procedure
trapped. -/
def run (b : RegisterBlock σ) : Proc α → σ → Option α × σ
  | done a, s => (some a, s)
  | trap, s => (none, s)
  | read r next, s =>
    let (v, s) := b.read r.offset s
    run b (next v) (b.note (.registerRead r v) s)
  | write r v next, s => run b (next ()) (b.write r.offset v (b.note (.registerWrite r v) s))
  | delay us next, s => run b (next ()) (b.delay us s)
  | yield next, s => run b (next ()) (b.yield s)
  | note m next, s => run b (next ()) (b.note m s)

theorem run_bind (b : RegisterBlock σ) (p : Proc α) (f : α → Proc β) (s : σ) :
    (p.bind f).run b s =
      match p.run b s with
      | (some a, t) => (f a).run b t
      | (none, t) => (none, t) := by
  induction p generalizing s with
  | done | trap => rfl
  | read r next ih => simp only [bind, run, ih]
  | write r v next ih => simp only [bind, run, ih]
  | delay us next ih => simp only [bind, run, ih]
  | yield next ih => simp only [bind, run, ih]
  | note m next ih => simp only [bind, run, ih]

end Proc

/-! ## Recorded blocks -/

/-- How often each kind of access happened. -/
structure Counts where
  reads : Nat := 0
  writes : Nat := 0
  delays : Nat := 0
  yields : Nat := 0
  deriving DecidableEq, Repr

/-- Something that happened to a block. -/
inductive Event where
  | read (offset : UInt64) (value : UInt32)
  | write (offset : UInt64) (value : UInt32)
  | delay (us : UInt32)
  | yield
  deriving DecidableEq, Repr

/-- A block's state with what happened to it; the newest event and log line
come first. -/
structure Recording (σ : Type) where
  inner : σ
  counts : Counts := {}
  events : List Event := []
  log : List Message := []

/-- What a recording keeps. -/
structure RecordingRule where
  /-- Keep the list of events. -/
  events : Bool := false
  /-- The least grave severity whose log lines are kept, if any. -/
  threshold : Option Level := none
  deriving DecidableEq, Repr

/-- A log line is grave enough to be kept. -/
def RecordingRule.admits (rule : RecordingRule) (m : Message) : Bool :=
  match rule.threshold with
  | some level => m.level.rank ≤ level.rank
  | none => false

namespace Recording

variable {σ : Type}

/-- Add an event, if events are kept. -/
def addEvent (rule : RecordingRule) (e : Event) (events : List Event) : List Event :=
  if rule.events then e :: events else events

/-- Add a log line, if it is admitted. -/
def addLine (rule : RecordingRule) (log : List Message) (m : Message) : List Message :=
  if rule.admits m then m :: log else log

/-- Forget what happened so far, but not the log. -/
def restart (r : Recording σ) : Recording σ :=
  { inner := r.inner, log := r.log }

end Recording

/-- The block `b`, recorded. -/
def RegisterBlock.recorded {σ : Type} (b : RegisterBlock σ) (rule : RecordingRule) :
    RegisterBlock (Recording σ) where
  read offset := fun ⟨inner, counts, events, log⟩ =>
    let (v, inner) := b.read offset inner
    (v, ⟨inner, { counts with reads := counts.reads + 1 },
      Recording.addEvent rule (.read offset v) events, log⟩)
  write offset v := fun ⟨inner, counts, events, log⟩ =>
    let log :=
      if rule.threshold.isSome then
        (b.remarks offset v inner).foldl (Recording.addLine rule) log
      else log
    ⟨b.write offset v inner, { counts with writes := counts.writes + 1 },
      Recording.addEvent rule (.write offset v) events, log⟩
  delay us := fun ⟨inner, counts, events, log⟩ =>
    ⟨b.delay us inner, { counts with delays := counts.delays + 1 },
      Recording.addEvent rule (.delay us) events, log⟩
  yield := fun ⟨inner, counts, events, log⟩ =>
    ⟨b.yield inner, { counts with yields := counts.yields + 1 },
      Recording.addEvent rule .yield events, log⟩
  note m := fun ⟨inner, counts, events, log⟩ =>
    ⟨b.note m inner, counts, events, Recording.addLine rule log m⟩
  remarks offset v := fun r => b.remarks offset v r.inner

/-! ## Scripted blocks -/

/-- Answers for each register. A list gives its values in order and keeps to
its last one; a register without a list reads as zero. A latched register
reads as the word written last. -/
structure Script where
  answers : List (Register × List UInt32) := []
  latched : List Register := []
  deriving DecidableEq, Repr

namespace Script

/-- The answers left for a register. -/
def answersOf (s : Script) (r : Register) : List UInt32 :=
  (s.answers.lookup r).getD []

/-- Replace the answers of a register. -/
def setAnswers (s : Script) (r : Register) (values : List UInt32) : Script :=
  { s with answers := (r, values) :: s.answers.filter (·.1 != r) }

/-- Answer a read. -/
def read (s : Script) (r : Register) : UInt32 × Script :=
  match s.answersOf r with
  | [] => (0, s)
  | [v] => (v, s)
  | v :: rest => (v, s.setAnswers r rest)

/-- Take a write. -/
def write (s : Script) (r : Register) (v : UInt32) : Script :=
  if s.latched.contains r then s.setAnswers r [v] else s

/-- The scripted block. -/
def block : RegisterBlock Script where
  read offset s :=
    match Register.ofOffset? offset with
    | some r => s.read r
    | none => (0, s)
  write offset v s :=
    match Register.ofOffset? offset with
    | some r => s.write r v
    | none => s
  delay _ s := s

end Script

end NorFlash
