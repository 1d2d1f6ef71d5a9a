import NorFlash.Bytes

/-!
# Fifo — a byte queue that knows its size

A queue is a front list, oldest byte first, and a back list, newest byte
first. `toList` is the queue's content, oldest first; each operation has an
equation for it.
-/

namespace NorFlash

/-- A byte queue. -/
structure Fifo where
  front : Bytes := []
  back : Bytes := []
  size : Nat := 0
  size_eq : size = front.length + back.length := by rfl

namespace Fifo

/-- The bytes of the queue, oldest first. -/
def toList (q : Fifo) : Bytes := q.front ++ q.back.reverse

/-- The queue without bytes. -/
def empty : Fifo := {}

/-- The queue of these bytes. -/
def ofList (bytes : Bytes) : Fifo where
  front := bytes
  size := bytes.length

/-- The queue holds no byte. -/
def isEmpty (q : Fifo) : Bool := q.size == 0

/-- Add a byte at the end. -/
def push (q : Fifo) (b : UInt8) : Fifo where
  front := q.front
  back := b :: q.back
  size := q.size + 1
  size_eq := by have := q.size_eq; simp; omega

/-- Take the oldest byte away, if there is one. -/
def pop? (q : Fifo) : Option (UInt8 × Fifo) :=
  match h : q.front with
  | b :: rest =>
    some (b, {
      front := rest
      back := q.back
      size := q.size - 1
      size_eq := by have := q.size_eq; simp [h] at this; omega })
  | [] =>
    match q.back.reverse with
    | b :: rest => some (b, ofList rest)
    | [] => none

/-- Add bytes at the end. -/
def append (q : Fifo) (bytes : Bytes) : Fifo :=
  ofList (q.toList ++ bytes)

/-- Take the newest byte away, if there is one. -/
def dropLast (q : Fifo) : Fifo :=
  ofList q.toList.dropLast

@[simp] theorem toList_empty : empty.toList = [] := rfl

@[simp] theorem toList_ofList (bytes : Bytes) : (ofList bytes).toList = bytes := by
  simp [ofList, toList]

@[simp] theorem toList_push (q : Fifo) (b : UInt8) : (q.push b).toList = q.toList ++ [b] := by
  simp [push, toList]

@[simp] theorem toList_append (q : Fifo) (bytes : Bytes) :
    (q.append bytes).toList = q.toList ++ bytes := by
  simp [append]

@[simp] theorem toList_dropLast (q : Fifo) : q.dropLast.toList = q.toList.dropLast := by
  simp [dropLast]

theorem size_eq_length (q : Fifo) : q.size = q.toList.length := by
  simp [toList, q.size_eq]

@[simp] theorem isEmpty_iff (q : Fifo) : q.isEmpty = true ↔ q.toList = [] := by
  simp only [isEmpty, beq_iff_eq, size_eq_length, List.length_eq_zero_iff]

theorem pop?_eq_none_iff (q : Fifo) : q.pop? = none ↔ q.toList = [] := by
  unfold pop?
  split
  · rename_i h
    simp [toList, h]
  · rename_i h
    split <;> rename_i hb <;> simp [toList, h, hb]

theorem toList_of_pop? {q r : Fifo} {b : UInt8} (h : q.pop? = some (b, r)) :
    q.toList = b :: r.toList := by
  unfold pop? at h
  split at h
  · rename_i hf
    simp only [Option.some.injEq, Prod.mk.injEq] at h
    obtain ⟨rfl, rfl⟩ := h
    simp [toList, hf]
  · rename_i hf
    split at h
    · rename_i hb
      simp only [Option.some.injEq, Prod.mk.injEq] at h
      obtain ⟨rfl, rfl⟩ := h
      rw [toList_ofList]
      simp [toList, hf, hb]
    · simp at h

end Fifo

end NorFlash
