import NorFlash.Bytes
import NorFlash.Message

/-!
# Proc — procedures against a register block

A procedure is a tree: each node is one register access, one delay, one yield
or one log line, and a read branches on the value that the block answers. A
procedure therefore says what the driver does on every block, whatever the
block answers, and running it on a particular block follows one path.

A procedure stops at `trap` when a bounds check fails: when a sum or a
difference leaves its word, a shift its width, or a slice or an index its
buffer.
-/

namespace NorFlash

/-- A procedure that ends in a value of type `α`. -/
inductive Proc (α : Type) : Type where
  /-- End with a value. -/
  | done (value : α)
  /-- Stop at a bounds check that failed. -/
  | trap
  /-- Read a register and go on with its value. -/
  | read (register : Register) (next : UInt32 → Proc α)
  /-- Write a register. -/
  | write (register : Register) (value : UInt32) (next : Unit → Proc α)
  /-- Let some microseconds pass. -/
  | delay (us : UInt32) (next : Unit → Proc α)
  /-- Give up the processor. -/
  | yield (next : Unit → Proc α)
  /-- Log a line. -/
  | note (message : Message) (next : Unit → Proc α)

namespace Proc

variable {α β γ : Type}

/-- Go on with `f` where `p` ends. -/
def bind (p : Proc α) (f : α → Proc β) : Proc β :=
  match p with
  | done a => f a
  | trap => trap
  | read r next => read r fun v => (next v).bind f
  | write r v next => write r v fun u => (next u).bind f
  | delay us next => delay us fun u => (next u).bind f
  | yield next => yield fun u => (next u).bind f
  | note m next => note m fun u => (next u).bind f

instance : Monad Proc where
  pure := done
  bind := bind

theorem pure_eq (a : α) : (pure a : Proc α) = done a := rfl

theorem bind_eq (p : Proc α) (f : α → Proc β) : p >>= f = p.bind f := rfl

@[simp] theorem done_bind (a : α) (f : α → Proc β) : (done a).bind f = f a := rfl

@[simp] theorem trap_bind (f : α → Proc β) : (trap : Proc α).bind f = trap := rfl

@[simp] theorem bind_done (p : Proc α) : p.bind done = p := by
  induction p with
  | done | trap => rfl
  | read r next ih => simp [bind, ih]
  | write r v next ih => simp [bind, ih]
  | delay us next ih => simp [bind, ih]
  | yield next ih => simp [bind, ih]
  | note m next ih => simp [bind, ih]

theorem bind_assoc (p : Proc α) (f : α → Proc β) (g : β → Proc γ) :
    (p.bind f).bind g = p.bind fun a => (f a).bind g := by
  induction p with
  | done | trap => rfl
  | read r next ih => simp [bind, ih]
  | write r v next ih => simp [bind, ih]
  | delay us next ih => simp [bind, ih]
  | yield next ih => simp [bind, ih]
  | note m next ih => simp [bind, ih]

instance : LawfulMonad Proc :=
  LawfulMonad.mk' Proc (fun p => bind_done p) (fun a f => done_bind a f)
    (fun p f g => bind_assoc p f g)

/-! ## Single steps -/

/-- The value of a register. -/
def fetch (r : Register) : Proc UInt32 := read r done

/-- Set a register. -/
def store (r : Register) (v : UInt32) : Proc Unit := write r v done

/-- Wait for some microseconds. -/
def pause (us : UInt32) : Proc Unit := delay us done

/-- Let others run. -/
def giveWay : Proc Unit := yield done

/-- Log a line. -/
def log (m : Message) : Proc Unit := note m done

/-- The status word. -/
def status : Proc UInt32 := fetch .status

/-- The control word. -/
def control : Proc UInt32 := fetch .control

/-- Set the control word. -/
def setControl (word : UInt32) : Proc Unit := store .control word

/-- Push a byte into the TX FIFO. -/
def sendByte (b : UInt8) : Proc Unit := store .tx b.toUInt32

/-- Pull a byte out of the RX FIFO. -/
def pullByte : Proc UInt8 := do
  return (← fetch .rx).toUInt8

/-! ## Bounds checks

Every sum, difference, shift, slice and index that could leave its range goes
through one of these. -/

/-- The value of a check, which must have one. -/
def checked : Option α → Proc α
  | some a => done a
  | none => trap

/-- A count that must fit a 64-bit word. -/
def count (n : Nat) : Proc Nat :=
  if n < wordLimit then done n else trap

/-- A count that must fit a 32-bit word. -/
def tally (n : Nat) : Proc Unit :=
  checked (if n < word32Limit then some () else none)

/-- The difference of two counts, which must not be negative. -/
def minus (a b : Nat) : Proc Nat :=
  checked (if b ≤ a then some (a - b) else none)

/-- The offset `n` bytes on, which must fit 64 bits. -/
def advance (offset : UInt64) (n : Nat) : Proc UInt64 :=
  if offset.toNat + n < wordLimit then done (UInt64.ofNat (offset.toNat + n)) else trap

/-- A 32-bit word with one bit set, which must be one of the word. -/
def bit (n : UInt8) : Proc UInt32 :=
  checked (if n.toNat < 32 then some ((1 : UInt32) <<< n.toUInt32) else none)

/-- A place in a buffer of `size` bytes, which must have it. -/
def place (n size : Nat) : Proc Unit :=
  checked (if n < size then some () else none)

/-- How long a slice is, which must lie in a buffer of `size` bytes. -/
def slice (start stop size : Nat) : Proc Nat :=
  checked (if start ≤ stop ∧ stop ≤ size then some (stop - start) else none)

/-- Two lengths, which must be the same. -/
def equal (a b : Nat) : Proc Unit :=
  checked (if a = b then some () else none)

/-- The first `n` bytes of a buffer and the rest. -/
def split (n : Nat) (bytes : Bytes) : Proc (Bytes × Bytes) :=
  checked (Bytes.split? n bytes)

/-- A buffer with the bytes from `start` on replaced. -/
def overwrite (start : Nat) (new bytes : Bytes) : Proc Bytes :=
  checked (Bytes.overwrite? start new bytes)

theorem count_eq {n : Nat} (h : n < wordLimit) : count n = done n := if_pos h

theorem tally_eq {n : Nat} (h : n < word32Limit) : tally n = done () := by
  rw [tally, if_pos h]
  rfl

theorem minus_eq {a b : Nat} (h : b ≤ a) : minus a b = done (a - b) := by
  rw [minus, if_pos h]
  rfl

theorem bit_eq {n : UInt8} (h : n.toNat < 32) : bit n = done ((1 : UInt32) <<< n.toUInt32) := by
  rw [bit, if_pos h]
  rfl

theorem place_eq {n size : Nat} (h : n < size) : place n size = done () := by
  rw [place, if_pos h]
  rfl

theorem slice_eq {start stop size : Nat} (hstart : start ≤ stop) (hstop : stop ≤ size) :
    slice start stop size = done (stop - start) := by
  rw [slice, if_pos ⟨hstart, hstop⟩]
  rfl

theorem split_eq {n : Nat} {bytes : Bytes} (h : n ≤ bytes.length) :
    split n bytes = done (bytes.take n, bytes.drop n) := by
  have hsplit : Bytes.split? n bytes = some (bytes.take n, bytes.drop n) :=
    Bytes.split?_eq_some_iff.mpr
      ⟨(List.take_append_drop n bytes).symm, List.length_take_of_le h⟩
  rw [split, hsplit]
  rfl

theorem equal_eq {a b : Nat} (h : a = b) : equal a b = done () := by
  rw [equal, if_pos h]
  rfl

end Proc

/-- A procedure that may fail with a cause. -/
abbrev Attempt := ExceptT Error Proc

/-- A failing computation without state is one with state that it leaves
alone. -/
instance (priority := low) liftBelowState {m : Type → Type} {ε σ : Type} [Monad m] :
    MonadLift (ExceptT ε m) (ExceptT ε (StateT σ m)) where
  monadLift x := ExceptT.mk (StateT.lift x.run)

end NorFlash
