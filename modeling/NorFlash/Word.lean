/-!
# Word — how much a machine word holds
-/

namespace NorFlash

/-- One more than the largest 64-bit word. -/
def wordLimit : Nat := 0x10000000000000000

/-- One more than the largest 32-bit word. -/
def word32Limit : Nat := 0x100000000

/-- One more than the largest signed 64-bit word. -/
def signedLimit : Nat := 0x8000000000000000

theorem lt_wordLimit_of_word32 {n : Nat} (h : n < word32Limit) : n < wordLimit :=
  Nat.lt_trans h (by decide)

theorem lt_wordLimit_of_signed {n : Nat} (h : n ≤ signedLimit) : n < wordLimit :=
  Nat.lt_of_le_of_lt h (by decide)

/-- A word moved by a signed one, if the result is a word. The sum of the two words
carries exactly when the move is backwards. -/
def addSigned? (a : UInt64) (delta : Int64) : Option UInt64 :=
  if decide (a + delta.toUInt64 < a) = decide (delta < 0) then some (a + delta.toUInt64) else none

/-- A signed word as an unsigned one is the same number or a whole turn more. -/
theorem toNat_toUInt64 (delta : Int64) :
    delta.toInt < 0 ∧ (delta.toUInt64.toNat : Int) = delta.toInt + wordLimit ∨
      0 ≤ delta.toInt ∧ (delta.toUInt64.toNat : Int) = delta.toInt := by
  have hcond : delta.toInt = if 2 * delta.toUInt64.toNat < 2 ^ 64 then
      (delta.toUInt64.toNat : Int) else delta.toUInt64.toNat - 2 ^ 64 :=
    BitVec.toInt_eq_toNat_cond delta.toBitVec
  have hlt := delta.toUInt64.toNat_lt
  rw [wordLimit]
  split at hcond <;> omega

/-- **A signed move is exact.** -/
theorem addSigned?_eq_some_iff {a p : UInt64} {delta : Int64} :
    addSigned? a delta = some p ↔ (p.toNat : Int) = a.toNat + delta.toInt := by
  have hdelta := toNat_toUInt64 delta
  have hlt := delta.toUInt64.toNat_lt
  have hsum : (a + delta.toUInt64).toNat = (a.toNat + delta.toUInt64.toNat) % 2 ^ 64 :=
    UInt64.toNat_add a delta.toUInt64
  have ha := a.toNat_lt
  have hp := p.toNat_lt
  have hback : delta < 0 ↔ delta.toInt < 0 := Int64.lt_iff_toInt_lt
  rw [wordLimit] at hdelta
  unfold addSigned?
  split
  · rename_i hcarry
    rw [decide_eq_decide, UInt64.lt_iff_toNat_lt, hsum, hback] at hcarry
    rw [Option.some_inj, ← UInt64.toNat_inj, hsum]
    omega
  · rename_i hcarry
    rw [decide_eq_decide, UInt64.lt_iff_toNat_lt, hsum, hback] at hcarry
    simp only [reduceCtorEq, false_iff]
    omega

end NorFlash
