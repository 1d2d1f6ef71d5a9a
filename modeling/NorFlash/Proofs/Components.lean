import Mathlib.Logic.Function.Iterate
import NorFlash.Proofs.Location

/-!
# Components — an offset and its wire bytes

An offset taken apart and put together again is the offset without its unused
bits, and every address is what its offset comes apart to. Changing the slave
changes the top byte only. Advancing an offset inside its chip turns the four
address bytes like the wheels of a counter: `Address.next` is one turn, the
carry included, and `ofOffset_add` says that `n` steps are `n` turns.
-/

namespace NorFlash.Address

/-! ## Taken apart and put together -/

/-- The place in the chip that the four address bytes give. -/
def place (a : Address) : Nat :=
  a.sector.toNat * sectorSize + a.high.toNat * highWeight + a.middle.toNat * middleWeight +
    a.low.toNat

theorem place_lt (a : Address) : a.place < word32Limit := by
  have hsector := a.sector.toNat_lt
  have hhigh := a.high.toNat_lt
  have hmiddle := a.middle.toNat_lt
  have hlow := a.low.toNat_lt
  simp only [place, sectorSize, highWeight, middleWeight, word32Limit]
  omega

theorem toNat_toOffset (a : Address) :
    a.toOffset.toNat = a.slave.toNat * slaveWeight + a.place := by
  have hslave := a.slave.toNat_lt
  have hplace := a.place_lt
  simp only [place, sectorSize, highWeight, middleWeight, word32Limit] at hplace
  simp only [toOffset, place, slaveWeight, sectorSize, highWeight, middleWeight,
    UInt64.toNat_ofNat']
  omega

@[simp] theorem slave_ofOffset (x : UInt64) :
    (ofOffset x).slave.toNat = x.toNat / slaveWeight := by
  have hx := x.toNat_lt
  simp only [ofOffset, slaveWeight, UInt8.toNat_ofNat']
  omega

@[simp] theorem place_ofOffset (x : UInt64) : (ofOffset x).place = x.toNat % word32Limit := by
  simp only [ofOffset, place, sectorSize, highWeight, middleWeight, word32Limit,
    UInt8.toNat_ofNat']
  omega

theorem toNat_toOffset_ofOffset (x : UInt64) :
    (ofOffset x).toOffset.toNat = x.toNat / slaveWeight * slaveWeight + x.toNat % word32Limit := by
  rw [toNat_toOffset, slave_ofOffset, place_ofOffset]

/-- The bits from 32 to 55 are lost, and all others are kept. -/
theorem testBit_toOffset_ofOffset (x : UInt64) (i : Nat) :
    (ofOffset x).toOffset.toNat.testBit i =
      (x.toNat.testBit i && !decide (32 ≤ i ∧ i ≤ 55)) := by
  have hlow : x.toNat % 2 ^ 32 < 2 ^ 56 := by omega
  have hvalue : (ofOffset x).toOffset.toNat = 2 ^ 56 * (x.toNat / 2 ^ 56) + x.toNat % 2 ^ 32 := by
    rw [toNat_toOffset_ofOffset, Nat.mul_comm]
    rfl
  rw [hvalue, Nat.testBit_two_pow_mul_add _ hlow]
  by_cases hi : i < 56
  · rw [if_pos hi, Nat.testBit_mod_two_pow, Bool.and_comm]
    congr 1
    simp only [← decide_not, decide_eq_decide]
    omega
  · rw [if_neg hi, Nat.testBit_div_two_pow, Nat.sub_add_cancel (Nat.not_lt.mp hi)]
    have hout : ¬ (32 ≤ i ∧ i ≤ 55) := by omega
    simp [hout]

theorem ofOffset_toOffset (a : Address) : ofOffset a.toOffset = a := by
  have hslave := a.slave.toNat_lt
  have hsector := a.sector.toNat_lt
  have hhigh := a.high.toNat_lt
  have hmiddle := a.middle.toNat_lt
  have hlow := a.low.toNat_lt
  unfold ofOffset
  rw [toNat_toOffset]
  cases a
  simp only [place, slaveWeight, sectorSize, highWeight, middleWeight, mk.injEq,
    ← UInt8.toNat_inj, UInt8.toNat_ofNat'] at *
  omega

/-- Two addresses of one slave and place are one address. -/
theorem eq_of_place {a b : Address} (hslave : a.slave = b.slave) (hplace : a.place = b.place) :
    a = b := by
  have hoffset : a.toOffset = b.toOffset := by
    rw [← UInt64.toNat_inj, toNat_toOffset, toNat_toOffset, hslave, hplace]
  rw [← ofOffset_toOffset a, hoffset, ofOffset_toOffset]

/-! ## The slave byte -/

@[simp] theorem place_withSlave (a : Address) (s : UInt8) : (a.withSlave s).place = a.place := rfl

/-- The bits below the slave byte do not depend on the slave. -/
theorem testBit_toOffset_withSlave (a : Address) (s : UInt8) {i : Nat} (hi : i < 56) :
    (a.withSlave s).toOffset.toNat.testBit i = a.place.testBit i := by
  have hplace : a.place < 2 ^ 56 := Nat.lt_trans a.place_lt (by decide)
  rw [toNat_toOffset, place_withSlave, Nat.mul_comm, show slaveWeight = 2 ^ 56 from rfl,
    Nat.testBit_two_pow_mul_add _ hplace, if_pos hi]

/-! ## The counter of the address bytes -/

/-- The following place: a byte that is full starts again at 0, and the next
higher byte is counted up. -/
def next (a : Address) : Address :=
  if a.low ≠ 0xff then { a with low := a.low + 1 }
  else if a.middle ≠ 0xff then { a with middle := a.middle + 1, low := 0 }
  else if a.high ≠ 0xff then { a with high := a.high + 1, middle := 0, low := 0 }
  else { a with sector := a.sector + 1, high := 0, middle := 0, low := 0 }

@[simp] theorem slave_next (a : Address) : a.next.slave = a.slave := by
  unfold next
  repeat' split
  all_goals rfl

theorem toNat_eq_of_full {b : UInt8} (h : b = 0xff) : b.toNat = 255 := by
  rw [h]
  rfl

theorem toNat_add_one {b : UInt8} (h : b ≠ 0xff) : (b + 1).toNat = b.toNat + 1 := by
  have hb := b.toNat_lt
  have hne : b.toNat ≠ 255 := fun hb => h (UInt8.toNat_inj.mp hb)
  rw [UInt8.toNat_add]
  show (b.toNat + 1) % 256 = b.toNat + 1
  omega

/-- Unless the chip ends here, the following place is one further. -/
theorem place_next {a : Address} (h : a.place + 1 < word32Limit) : a.next.place = a.place + 1 := by
  unfold next
  by_cases hlow : a.low = 0xff
  · have hlow255 := toNat_eq_of_full hlow
    by_cases hmiddle : a.middle = 0xff
    · have hmiddle255 := toNat_eq_of_full hmiddle
      by_cases hhigh : a.high = 0xff
      · have hhigh255 := toNat_eq_of_full hhigh
        -- only the sector is left to take the carry, and it has room
        have hsector : a.sector ≠ 0xff := by
          intro hsector
          have hsector255 := toNat_eq_of_full hsector
          simp only [place, sectorSize, highWeight, middleWeight, word32Limit] at h
          omega
        rw [if_neg (not_not_intro hlow), if_neg (not_not_intro hmiddle),
          if_neg (not_not_intro hhigh)]
        simp only [place, toNat_add_one hsector, UInt8.toNat_zero, sectorSize, highWeight,
          middleWeight]
        omega
      · rw [if_neg (not_not_intro hlow), if_neg (not_not_intro hmiddle), if_pos hhigh]
        simp only [place, toNat_add_one hhigh, UInt8.toNat_zero, highWeight, middleWeight]
        omega
    · rw [if_neg (not_not_intro hlow), if_pos hmiddle]
      simp only [place, toNat_add_one hmiddle, UInt8.toNat_zero, middleWeight]
      omega
  · rw [if_pos hlow]
    simp only [place, toNat_add_one hlow]
    omega

theorem slave_iterate_next (a : Address) (n : Nat) : (next^[n] a).slave = a.slave := by
  induction n with
  | zero => rfl
  | succ n ih => rw [Function.iterate_succ_apply', slave_next, ih]

/-- Counting on by `n` places stays in the chip and loses no carry. -/
theorem place_iterate_next {a : Address} {n : Nat} (h : a.place + n < word32Limit) :
    (next^[n] a).place = a.place + n := by
  induction n with
  | zero => simp
  | succ n ih =>
    have hstep : (next^[n] a).place = a.place + n := ih (by omega)
    rw [Function.iterate_succ_apply', place_next (by omega), hstep, Nat.add_assoc]

section Advance

variable {x n : UInt64}

/-- Inside its chip an offset can be advanced without overflow. -/
theorem toNat_add_of_lt (h : x.toNat % word32Limit + n.toNat < word32Limit) :
    (x + n).toNat = x.toNat + n.toNat := by
  have hx := x.toNat_lt
  simp only [word32Limit] at h
  rw [UInt64.toNat_add]
  omega

theorem slave_ofOffset_add (h : x.toNat % word32Limit + n.toNat < word32Limit) :
    (ofOffset (x + n)).slave = (ofOffset x).slave := by
  rw [← UInt8.toNat_inj, slave_ofOffset, slave_ofOffset, toNat_add_of_lt h]
  simp only [word32Limit, slaveWeight] at *
  omega

theorem place_ofOffset_add (h : x.toNat % word32Limit + n.toNat < word32Limit) :
    (ofOffset (x + n)).place = (ofOffset x).place + n.toNat := by
  rw [place_ofOffset, place_ofOffset, toNat_add_of_lt h]
  simp only [word32Limit] at *
  omega

/-- An advanced offset comes apart to the bytes that were counted on. -/
theorem ofOffset_add (h : x.toNat % word32Limit + n.toNat < word32Limit) :
    ofOffset (x + n) = next^[n.toNat] (ofOffset x) := by
  have hroom : (ofOffset x).place + n.toNat < word32Limit := by rwa [place_ofOffset]
  apply eq_of_place
  · rw [slave_ofOffset_add h, slave_iterate_next]
  · rw [place_ofOffset_add h, place_iterate_next hroom]

theorem chipOffset_add (h : x.toNat % word32Limit + n.toNat < word32Limit) :
    (NorFlash.chipOffset (x + n)).toNat = (NorFlash.chipOffset x).toNat + n.toNat := by
  rw [chipOffset_toNat, chipOffset_toNat, ← place_ofOffset, ← place_ofOffset]
  exact place_ofOffset_add h

end Advance

/-- The algebra of offsets and addresses: which bits an offset keeps when it is
taken apart and put together, that an address keeps them all, what depends on
the slave, and what an advance inside the chip does. -/
theorem components_algebra :
    (∀ (x : UInt64) (i : Nat), (ofOffset x).toOffset.toNat.testBit i =
      (x.toNat.testBit i && !decide (32 ≤ i ∧ i ≤ 55))) ∧
    (∀ a : Address, ofOffset a.toOffset = a) ∧
    (∀ (a : Address) (s t : UInt8), (a.withSlave s).chipOffset = (a.withSlave t).chipOffset ∧
      ∀ i < 56, (a.withSlave s).toOffset.toNat.testBit i =
        (a.withSlave t).toOffset.toNat.testBit i) ∧
    ∀ x n : UInt64, x.toNat % word32Limit + n.toNat < word32Limit →
      (x + n).toNat = x.toNat + n.toNat ∧
      (ofOffset (x + n)).slave = (ofOffset x).slave ∧
      (NorFlash.chipOffset (x + n)).toNat = (NorFlash.chipOffset x).toNat + n.toNat ∧
      ofOffset (x + n) = next^[n.toNat] (ofOffset x) := by
  refine ⟨testBit_toOffset_ofOffset, ofOffset_toOffset, fun a s t => ⟨rfl, fun i hi => ?_⟩,
    fun x n h => ?_⟩
  · rw [testBit_toOffset_withSlave a s hi, testBit_toOffset_withSlave a t hi]
  · exact ⟨toNat_add_of_lt h, slave_ofOffset_add h, chipOffset_add h, ofOffset_add h⟩

/-- The last place of the first sector of the second slave: one step carries
through three bytes into the sector. -/
theorem components_algebra_carry :
    (0x100000000ffffff : UInt64).toNat % word32Limit + (1 : UInt64).toNat < word32Limit ∧
      ofOffset (0x100000000ffffff + 1) = next^[1] (ofOffset 0x100000000ffffff) ∧
      ofOffset (0x100000000ffffff + 1) = ⟨1, 1, 0, 0, 0⟩ := by
  have hroom : (0x100000000ffffff : UInt64).toNat % word32Limit + (1 : UInt64).toNat <
    word32Limit := by decide
  obtain ⟨-, -, -, hadvance⟩ := components_algebra
  obtain ⟨-, -, -, hcounted⟩ := hadvance 0x100000000ffffff 1 hroom
  exact ⟨hroom, hcounted, by decide⟩

end NorFlash.Address
