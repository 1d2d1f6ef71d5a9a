import NorFlash.Proofs.ChipSteps

/-!
# FlatArray — the sparse store is an array of bytes

The specification is a plain array that counts addresses modulo its length: storing
overwrites a byte, programming masks it, erasing stores ones one byte after the other.
A store of pages that appear on demand and are dropped by an erase agrees with it, over
every sequence of operations and at every address, also past the end of the chip.
-/

namespace NorFlash

/-- An operation on the contents of a chip. -/
inductive StoreOp where
  | load (address : Nat) (data : Bytes)
  | program (address : Nat) (value : UInt8)
  | erase (base size : Nat)
  | read (address count : Nat)
  deriving DecidableEq, Repr

namespace StoreOp

/-- An erase takes whole 4 KiB pages. -/
def Aligned : StoreOp → Prop
  | .erase base size => base % pageSize = 0 ∧ size % pageSize = 0
  | _ => True

instance : DecidablePred Aligned
  | .erase base size => inferInstanceAs (Decidable (base % pageSize = 0 ∧ size % pageSize = 0))
  | .load .. | .program .. | .read .. => inferInstanceAs (Decidable True)

/-- The operation is about the byte at an address of a chip of this capacity. -/
def Touches (capacity : Nat) (op : StoreOp) (address : Nat) : Prop :=
  match op with
  | .load a data => ∃ k < data.length, (a + k) % capacity = address % capacity
  | .program a _ => a % capacity = address % capacity
  | .erase base size => ∃ k < size, (base + k) % capacity = address % capacity
  | .read _ _ => False

/-- Operations one after the other, with their answers. -/
def run {σ : Type} (perform : StoreOp → σ → Bytes × σ) : List StoreOp → σ → List Bytes × σ
  | [], s => ([], s)
  | op :: rest, s =>
    let (answer, s) := perform op s
    let (answers, s) := run perform rest s
    (answer :: answers, s)

@[simp] theorem run_nil {σ : Type} (perform : StoreOp → σ → Bytes × σ) (s : σ) :
    run perform [] s = ([], s) := rfl

@[simp] theorem run_cons {σ : Type} (perform : StoreOp → σ → Bytes × σ) (op : StoreOp)
    (rest : List StoreOp) (s : σ) :
    run perform (op :: rest) s =
      ((perform op s).1 :: (run perform rest (perform op s).2).1,
        (run perform rest (perform op s).2).2) := rfl

end StoreOp

/-- Perform an operation; a read answers its bytes. -/
def PageStore.perform : StoreOp → PageStore → Bytes × PageStore
  | .load address data, s => ([], s.storeRange address data)
  | .program address value, s => ([], s.program address value)
  | .erase base size, s => ([], s.erase base size)
  | .read address count, s => (s.readRange address count, s)

/-! ## The array -/

/-- The contents of a chip as a plain array. -/
structure FlatArray (capacity : Nat) where
  bytes : Vector UInt8 capacity
  capacity_pos : 0 < capacity

namespace FlatArray

variable {capacity : Nat}

/-- An array of ones. -/
def erased (h : 0 < capacity) : FlatArray capacity where
  bytes := Vector.replicate capacity 0xff
  capacity_pos := h

/-- Addresses count modulo the length. -/
def place (m : FlatArray capacity) (address : Nat) : Fin capacity :=
  ⟨address % capacity, Nat.mod_lt _ m.capacity_pos⟩

/-- The byte at an address. -/
def read (m : FlatArray capacity) (address : Nat) : UInt8 :=
  m.bytes[m.place address]

/-- Overwrite the byte at an address. -/
def store (m : FlatArray capacity) (address : Nat) (v : UInt8) : FlatArray capacity :=
  { m with bytes := m.bytes.set (m.place address) v }

/-- Overwrite the bytes at consecutive addresses. -/
def load (m : FlatArray capacity) (address : Nat) : Bytes → FlatArray capacity
  | [] => m
  | v :: rest => (m.store address v).load (address + 1) rest

/-- Perform an operation on the array; a read answers its bytes. -/
def perform : StoreOp → FlatArray capacity → Bytes × FlatArray capacity
  | .load address data, m => ([], m.load address data)
  | .program address value, m => ([], m.store address (m.read address &&& value))
  | .erase base size, m => ([], m.load base (Bytes.filled size 0xff))
  | .read address count, m => ((List.range count).map fun i => m.read (address + i), m)

variable {m : FlatArray capacity} {a b : Nat}

@[simp] theorem read_erased (h : 0 < capacity) (a : Nat) : (erased h).read a = 0xff := by
  simp [read, erased]

theorem read_store (m : FlatArray capacity) (a b : Nat) (v : UInt8) :
    (m.store a v).read b = if a % capacity = b % capacity then v else m.read b := by
  simp only [read, store, place, Fin.getElem_fin, Vector.getElem_set]

theorem read_congr (m : FlatArray capacity) (h : a % capacity = b % capacity) :
    m.read a = m.read b := by
  simp only [read, place, Fin.getElem_fin, h]

theorem read_load_filled (m : FlatArray capacity) (a b n : Nat) (v : UInt8) :
    (m.load a (Bytes.filled n v)).read b =
      if ∃ k < n, (a + k) % capacity = b % capacity then v else m.read b := by
  induction n generalizing m a with
  | zero => simp [Bytes.filled, load]
  | succ n ih =>
    -- byte `k + 1` of the run is byte `k` of what is left
    have hsplit : (∃ k < n + 1, (a + k) % capacity = b % capacity) ↔
        (∃ k < n, (a + 1 + k) % capacity = b % capacity) ∨ a % capacity = b % capacity := by
      constructor
      · rintro ⟨k, hk, h⟩
        cases k with
        | zero => exact .inr h
        | succ k => exact .inl ⟨k, by omega, by rwa [Nat.add_right_comm]⟩
      · rintro (⟨k, hk, h⟩ | h)
        · exact ⟨k + 1, by omega, by rwa [← Nat.add_assoc, Nat.add_right_comm]⟩
        · exact ⟨0, by omega, h⟩
    have hrest := ih (m.store a v) (a + 1)
    rw [Bytes.filled] at hrest
    rw [Bytes.filled, List.replicate_succ, load, hrest, read_store]
    simp only [hsplit]
    by_cases h : ∃ k < n, (a + 1 + k) % capacity = b % capacity <;> simp [h]

/-- Loading leaves every other byte alone. -/
theorem read_load_of_untouched {data : Bytes}
    (h : ¬ ∃ k < data.length, (a + k) % capacity = b % capacity) :
    (m.load a data).read b = m.read b := by
  induction data generalizing m a with
  | nil => rfl
  | cons v rest ih =>
    have hfirst : a % capacity ≠ b % capacity := fun heq => h ⟨0, by simp, heq⟩
    have hrest : ¬ ∃ k < rest.length, (a + 1 + k) % capacity = b % capacity := by
      rintro ⟨k, hk, heq⟩
      exact h ⟨k + 1, by simpa using hk, by rwa [← Nat.add_assoc, Nat.add_right_comm]⟩
    rw [load, ih hrest, read_store, if_neg hfirst]

/-- An operation changes only the bytes it is about. -/
theorem read_perform {op : StoreOp} (h : ¬ op.Touches capacity b) :
    (perform op m).2.read b = m.read b := by
  cases op with
  | load a data => exact read_load_of_untouched h
  | program a v =>
    show (m.store a _).read b = _
    rw [read_store]
    exact if_neg h
  | erase base size =>
    show (m.load base (Bytes.filled size 0xff)).read b = _
    rw [read_load_filled]
    exact if_neg h
  | read => rfl

end FlatArray

/-! ## Agreement -/

namespace PageStore

variable {capacity : Nat} {s : PageStore} {m : FlatArray capacity}

/-- The store reads as the array at every address. -/
structure Agrees (s : PageStore) (m : FlatArray capacity) : Prop where
  capacity_eq : s.capacity = capacity
  read : ∀ address, s.read address = m.read address

/-- A place inside a page is that far from the start of the page, modulo a capacity of
whole pages as well. -/
theorem mod_add_of_page {base r : Nat} (hpos : 0 < capacity) (hcapacity : pageSize ∣ capacity)
    (hbase : base % pageSize = 0) (hr : r < pageSize) :
    (base + r) % capacity = base % capacity + r := by
  have hpage : base % capacity % pageSize = 0 := by rw [Nat.mod_mod_of_dvd _ hcapacity, hbase]
  have hlt : base % capacity < capacity := Nat.mod_lt _ hpos
  have hfit : base % capacity + r < capacity := by
    obtain ⟨n, rfl⟩ := hcapacity
    simp only [pageSize] at *
    omega
  rw [← Nat.mod_add_mod, Nat.mod_eq_of_lt hfit]

/-- The pages that an erase drops hold the bytes of its region. -/
theorem erased_pages_iff (hpos : 0 < capacity) (hcapacity : pageSize ∣ capacity)
    {base size : Nat} (hbase : base % pageSize = 0) (hsize : size % pageSize = 0) (b : Nat) :
    (∃ k < size / pageSize, (base + k * pageSize) % capacity / pageSize =
        b % capacity / pageSize) ↔
      ∃ k < size, (base + k) % capacity = b % capacity := by
  have hstart : ∀ k, (base + k * pageSize) % pageSize = 0 := by
    intro k
    rw [Nat.add_mul_mod_self_right, hbase]
  have hpage : ∀ k, (base + k * pageSize) % capacity % pageSize = 0 := by
    intro k
    rw [Nat.mod_mod_of_dvd _ hcapacity, hstart]
  constructor
  · rintro ⟨k, hk, h⟩
    -- the byte of that page at the place that `b` has in it
    have hplace := mod_add_of_page hpos hcapacity (hstart k)
      (Nat.mod_lt (b % capacity) (show 0 < pageSize by decide))
    have hpagek := hpage k
    refine ⟨k * pageSize + b % capacity % pageSize, ?_, ?_⟩
    · simp only [pageSize] at *
      omega
    · rw [← Nat.add_assoc, hplace]
      simp only [pageSize] at *
      omega
  · rintro ⟨k, hk, h⟩
    have hplace := mod_add_of_page hpos hcapacity (hstart (k / pageSize))
      (Nat.mod_lt k (show 0 < pageSize by decide))
    have hpagek := hpage (k / pageSize)
    refine ⟨k / pageSize, ?_, ?_⟩
    · simp only [pageSize] at *
      omega
    · have hk' : base + k = base + k / pageSize * pageSize + k % pageSize := by
        rw [Nat.add_assoc, Nat.div_add_mod']
      rw [← h, hk', hplace]
      simp only [pageSize] at *
      omega

theorem agrees_erased (hpos : 0 < capacity) :
    ({ capacity } : PageStore).Agrees (FlatArray.erased hpos) where
  capacity_eq := rfl
  read address := by simp [PageStore.read]

namespace Agrees

theorem store (h : s.Agrees m) (a : Nat) (v : UInt8) : (s.store a v).Agrees (m.store a v) where
  capacity_eq := h.capacity_eq
  read b := by rw [read_store, FlatArray.read_store, h.capacity_eq, h.read]

theorem storeRange (h : s.Agrees m) (a : Nat) (data : Bytes) :
    (s.storeRange a data).Agrees (m.load a data) := by
  induction data generalizing s m a with
  | nil => exact h
  | cons v rest ih => exact ih (h.store a v) (a + 1)

theorem program (h : s.Agrees m) (a : Nat) (v : UInt8) :
    (s.program a v).Agrees (m.store a (m.read a &&& v)) where
  capacity_eq := h.capacity_eq
  read b := by
    rw [read_program, FlatArray.read_store, h.capacity_eq, h.read]
    by_cases hab : a % capacity = b % capacity
    · rw [if_pos hab, if_pos hab, m.read_congr hab]
    · rw [if_neg hab, if_neg hab]

theorem erase (h : s.Agrees m) (hcapacity : pageSize ∣ capacity) {base size : Nat}
    (hbase : base % pageSize = 0) (hsize : size % pageSize = 0) :
    (s.erase base size).Agrees (m.load base (Bytes.filled size 0xff)) where
  capacity_eq := by rw [capacity_erase, h.capacity_eq]
  read b := by
    have hpages := erased_pages_iff m.capacity_pos hcapacity hbase hsize b
    rw [PageStore.erase, read_erasePages, FlatArray.read_load_filled, h.read]
    simp only [pageNumber, h.capacity_eq, hpages]

/-- **One operation has the same answer on both and keeps them in agreement.** -/
theorem perform (h : s.Agrees m) (hcapacity : pageSize ∣ capacity) {op : StoreOp}
    (hop : op.Aligned) :
    (PageStore.perform op s).1 = (FlatArray.perform op m).1 ∧
      (PageStore.perform op s).2.Agrees (FlatArray.perform op m).2 := by
  cases op with
  | load a data => exact ⟨rfl, h.storeRange a data⟩
  | program a v => exact ⟨rfl, h.program a v⟩
  | erase base size => exact ⟨rfl, h.erase hcapacity hop.1 hop.2⟩
  | read a count =>
    refine ⟨?_, h⟩
    simp only [PageStore.perform, FlatArray.perform, readRange, h.read]

theorem run (h : s.Agrees m) (hcapacity : pageSize ∣ capacity) {ops : List StoreOp}
    (hops : ∀ op ∈ ops, op.Aligned) :
    (StoreOp.run PageStore.perform ops s).1 = (StoreOp.run FlatArray.perform ops m).1 ∧
      (StoreOp.run PageStore.perform ops s).2.Agrees (StoreOp.run FlatArray.perform ops m).2 := by
  induction ops generalizing s m with
  | nil => exact ⟨rfl, h⟩
  | cons op rest ih =>
    obtain ⟨hanswer, hafter⟩ := h.perform hcapacity (hops op (by simp))
    obtain ⟨hanswers, hend⟩ := ih hafter fun op hop => hops op (by simp [hop])
    rw [StoreOp.run_cons, StoreOp.run_cons, hanswer, hanswers]
    exact ⟨rfl, hend⟩

/-- An operation on the store changes only the bytes it is about. -/
theorem read_perform (h : s.Agrees m) (hcapacity : pageSize ∣ capacity) {op : StoreOp}
    (hop : op.Aligned) {b : Nat} (hb : ¬ op.Touches capacity b) :
    (PageStore.perform op s).2.read b = s.read b := by
  rw [(h.perform hcapacity hop).2.read, FlatArray.read_perform hb, h.read]

end Agrees

/-- **The store is an array of bytes.** From an erased chip on, every sequence of
operations answers what it answers on the array, the store then reads as the array does
at every address, and one more operation changes only the bytes it is about. -/
theorem flat_array (hpos : 0 < capacity) (hcapacity : pageSize ∣ capacity) {ops : List StoreOp}
    (hops : ∀ op ∈ ops, op.Aligned) :
    let sparse := StoreOp.run perform ops { capacity }
    let flat := StoreOp.run FlatArray.perform ops (FlatArray.erased hpos)
    sparse.1 = flat.1 ∧
      (∀ address, sparse.2.read address = flat.2.read address) ∧
      ∀ op : StoreOp, op.Aligned → ∀ address, ¬ op.Touches capacity address →
        (perform op sparse.2).2.read address = sparse.2.read address := by
  obtain ⟨hanswers, hagrees⟩ := (agrees_erased hpos).run hcapacity hops
  exact ⟨hanswers, hagrees.read, fun op hop _ => hagrees.read_perform hcapacity hop⟩

/-- Bytes loaded across the end of a 64 KiB chip, one of them masked past the end and one
erased with its page. -/
theorem flat_array_wraps :
    (StoreOp.run perform
        [.load 0xfffe [0x01, 0x02, 0x3c], .program 0x10000 0x0f, .erase 0x1f000 0x1000,
          .load 0xffff [0x55], .read 0xfffe 4]
        { capacity := 0x10000 }).1 = [[], [], [], [], [0xff, 0x55, 0x0c, 0xff]] := by
  have haligned : ∀ op ∈ [StoreOp.load 0xfffe [0x01, 0x02, 0x3c], .program 0x10000 0x0f,
      .erase 0x1f000 0x1000, .load 0xffff [0x55], .read 0xfffe 4], op.Aligned := by decide
  have h := flat_array (show 0 < 0x10000 by decide) (by decide) haligned
  have hin : ∃ k < 4096, (0x1f000 + k) % 0x10000 = 0xfffe := ⟨0xffe, by decide⟩
  have hout : ¬ ∃ k < 4096, (0x1f000 + k) % 0x10000 = 0 := by
    rintro ⟨k, hk, h⟩
    omega
  rw [h.1]
  simp [FlatArray.perform, FlatArray.load, FlatArray.read_store, FlatArray.read_load_filled,
    List.range_succ, hin, hout]
  decide

end PageStore

end NorFlash
