/-!
# Bytes — buffers and checked slices

A buffer is a list of bytes. The functions here answer `none` where a slice
would leave its buffer.
-/

namespace NorFlash

/-- A buffer. -/
abbrev Bytes := List UInt8

namespace Bytes

/-- The first `n` bytes and the rest, if there are that many. -/
def split? (n : Nat) (bytes : Bytes) : Option (Bytes × Bytes) :=
  let front := bytes.take n
  if front.length = n then some (front, bytes.drop n) else none

/-- Replace the bytes from position `start` on by `new`, if they fit. -/
def overwrite? (start : Nat) (new bytes : Bytes) : Option Bytes := do
  let (front, rest) ← split? start bytes
  let (_, back) ← split? new.length rest
  return front ++ new ++ back

/-- `n` bytes of one value. -/
def filled (n : Nat) (value : UInt8) : Bytes :=
  List.replicate n value

/-- Position of the first byte in which two buffers differ, over their common
length. -/
def mismatch? : Bytes → Bytes → Option Nat
  | a :: as, b :: bs => if a = b then (mismatch? as bs).map (· + 1) else some 0
  | _, _ => none

theorem split?_eq_some_iff {n : Nat} {bytes front rest : Bytes} :
    split? n bytes = some (front, rest) ↔ bytes = front ++ rest ∧ front.length = n := by
  constructor
  · intro h
    simp only [split?] at h
    split at h
    · rename_i hlen
      simp only [Option.some.injEq, Prod.mk.injEq] at h
      obtain ⟨rfl, rfl⟩ := h
      exact ⟨(List.take_append_drop n bytes).symm, hlen⟩
    · simp at h
  · rintro ⟨rfl, rfl⟩
    simp [split?]

theorem split?_isSome_iff {n : Nat} {bytes : Bytes} :
    (split? n bytes).isSome ↔ n ≤ bytes.length := by
  simp only [split?]
  split <;> rename_i h <;> simp at h ⊢ <;> omega

end Bytes

end NorFlash
