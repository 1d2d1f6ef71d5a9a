import NorFlash.Register
import NorFlash.Vendor

/-!
# Location — what a flat offset names

`Locates p i a` says that offset `p` names address `a` of chip `i`. Everything
that is computed from an offset (its position in a page, its alignment, the
bytes of a command header) depends on the address only, and advancing an
offset advances the address.
-/

namespace NorFlash

theorem word32Limit_pos : 0 < word32Limit := by decide

theorem pageSize_pos : 0 < pageSize := by decide

theorem programPageSize_pos : 0 < programPageSize := by decide

/-- The offset names address `a` of chip `i`. -/
structure Locates (p : UInt64) (i : Fin maxSlaves) (a : Nat) : Prop where
  slave : (Address.ofOffset p).slave.toNat = i.val
  address : p.toNat % word32Limit = a

/-- The offset within its chip is the low half of the flat one. -/
theorem chipOffset_toNat (p : UInt64) : (chipOffset p).toNat = p.toNat % word32Limit := by
  have hp := p.toNat_lt
  simp only [chipOffset, Address.chipOffset, Address.withSlave, Address.toOffset,
    Address.ofOffset, Address.slaveWeight, Address.highWeight, Address.middleWeight, sectorSize,
    word32Limit, UInt8.toNat_ofNat', UInt64.toNat_ofNat', UInt8.toNat_zero]
  omega

namespace Locates

variable {p : UInt64} {i : Fin maxSlaves} {a : Nat}

/-- An offset whose slave byte has a select line names a place of that chip. -/
theorem of_slave (h : (Address.ofOffset p).slave.toNat < maxSlaves) :
    Locates p ⟨(Address.ofOffset p).slave.toNat, h⟩ (chipOffset p).toNat :=
  ⟨rfl, (chipOffset_toNat p).symm⟩

theorem chipOffset_eq (h : Locates p i a) : (chipOffset p).toNat = a := by
  rw [chipOffset_toNat, h.address]

theorem unique {j : Fin maxSlaves} {b : Nat} (h : Locates p i a) (h' : Locates p j b) :
    i = j ∧ a = b :=
  ⟨Fin.ext (h.slave.symm.trans h'.slave), h.chipOffset_eq.symm.trans h'.chipOffset_eq⟩

theorem lt (h : Locates p i a) : a < word32Limit := by
  rw [← h.address]
  exact Nat.mod_lt _ word32Limit_pos

/-- Inside a chip an offset can be advanced, and its address advances with it. -/
theorem advance (h : Locates p i a) {n : Nat} (hn : a + n < word32Limit) :
    p.toNat + n < wordLimit ∧ Locates (UInt64.ofNat (p.toNat + n)) i (a + n) := by
  obtain ⟨hs, ha⟩ := h
  have hp := p.toNat_lt
  simp only [Address.ofOffset, Address.slaveWeight, UInt8.toNat_ofNat'] at hs
  simp only [word32Limit, wordLimit] at *
  have hlt : p.toNat + n < 0x10000000000000000 := by omega
  refine ⟨hlt, ?_, ?_⟩
  · simp only [Address.ofOffset, Address.slaveWeight, UInt8.toNat_ofNat', UInt64.toNat_ofNat']
    omega
  · simp only [word32Limit, UInt64.toNat_ofNat']
    omega

theorem pageIndex_eq (h : Locates p i a) : pageIndex p = a % pageSize := by
  rw [← h.address]
  simp only [pageIndex, pageSize, word32Limit]
  omega

theorem programIndex_eq (h : Locates p i a) : p.toNat % programPageSize = a % programPageSize := by
  rw [← h.address]
  simp only [programPageSize, word32Limit]
  omega

/-- The start of the page is located at the start of the address's page. -/
theorem pageStart (h : Locates p i a) : Locates (pageStart p) i (a - a % pageSize) := by
  obtain ⟨hs, ha⟩ := h
  have hp := p.toNat_lt
  have hsub : (NorFlash.pageStart p).toNat = p.toNat - p.toNat % 4096 := by
    rw [NorFlash.pageStart, UInt64.toNat_sub_of_le]
    · rfl
    · exact UInt64.le_iff_toNat_le.mpr (Nat.mod_le _ _)
  simp only [Address.ofOffset, Address.slaveWeight, UInt8.toNat_ofNat'] at hs
  simp only [word32Limit, pageSize] at *
  constructor
  · simp only [Address.ofOffset, Address.slaveWeight, UInt8.toNat_ofNat', hsub]
    omega
  · simp only [word32Limit, hsub]
    omega

theorem isAligned_iff (h : Locates p i a) (u : EraseUnit) :
    u.isAligned p = true ↔ a % u.bytes = 0 := by
  rw [← h.address]
  cases u <;>
    simp only [EraseUnit.isAligned, EraseUnit.bytes, beq_iff_eq, word32Limit] <;> omega

/-- A header holds the address within the selected sector. -/
theorem header (h : Locates p i a) :
    (Address.ofOffset p).sector.toNat * sectorSize +
      (Address.ofOffset p).high.toNat * Address.highWeight +
      (Address.ofOffset p).middle.toNat * Address.middleWeight +
      (Address.ofOffset p).low.toNat = a := by
  rw [← h.address]
  simp only [Address.ofOffset, Address.highWeight, Address.middleWeight, sectorSize,
    word32Limit, UInt8.toNat_ofNat']
  omega

/-- Places below 256 MiB lie in one of the first sixteen sectors. -/
theorem sector_lt (h : Locates p i a) (ha : a < 16 * sectorSize) :
    (Address.ofOffset p).sector.toNat < 16 := by
  rw [← h.address] at ha
  simp only [Address.ofOffset, sectorSize, word32Limit, UInt8.toNat_ofNat'] at *
  omega

end Locates

/-! ## Erase units -/

namespace EraseUnit

theorem bytes_pos (u : EraseUnit) : 0 < u.bytes := by
  cases u <;> decide

theorem bytes_mod_pageSize (u : EraseUnit) : u.bytes % pageSize = 0 := by
  cases u <;> decide

theorem pageSize_dvd_bytes (u : EraseUnit) : pageSize ∣ u.bytes :=
  Nat.dvd_of_mod_eq_zero u.bytes_mod_pageSize

theorem pageSize_le_bytes (u : EraseUnit) : pageSize ≤ u.bytes := by
  cases u <;> decide

/-- A chosen unit starts where the span starts, and the span covers it. -/
theorem of_forSpan? {p : UInt64} {len : Nat} {u : EraseUnit} (h : forSpan? p len = some u) :
    u.isAligned p = true ∧ u.bytes ≤ len := by
  have := List.find?_some h
  simpa using this

theorem ofBytes?_eq_some_iff {n : Nat} {u : EraseUnit} : ofBytes? n = some u ↔ n = u.bytes := by
  simp only [ofBytes?]
  constructor
  · intro h
    split at h
    · cases h; assumption
    · split at h
      · cases h; assumption
      · split at h
        · cases h; assumption
        · cases h
  · rintro rfl
    cases u <;> rfl

end EraseUnit

/-! ## Capacities -/

/-- A known capacity is one to sixteen whole sectors. -/
theorem Vendor.capacity_bounds {v : Vendor} {code : UInt8} {n : Nat}
    (h : v.capacity? code = some n) : n % sectorSize = 0 ∧ 0 < n ∧ n ≤ 16 * sectorSize := by
  have hs : v.sectors code ≤ 16 := by
    cases v with
    | micron =>
      simp only [sectors]
      repeat' split
      all_goals omega
    | macronix =>
      simp only [sectors]
      split
      · omega
      · rename_i hc
        rw [not_or, UInt8.not_lt, UInt8.not_lt, UInt8.le_iff_toNat_le, UInt8.le_iff_toNat_le] at hc
        have hk : (code - 0x38).toNat ≤ 4 := by
          rw [UInt8.toNat_sub_of_le _ _ (UInt8.le_iff_toNat_le.mpr hc.1)]
          have h1 : (0x38 : UInt8).toNat = 56 := rfl
          have h2 : (0x3c : UInt8).toNat = 60 := rfl
          omega
        rw [Nat.one_shiftLeft]
        exact Nat.pow_le_pow_right (by decide) hk
  rw [capacity?] at h
  split at h
  · cases h
  · rename_i k hk
    cases h
    have hpos : v.sectors code ≠ 0 := hk
    simp only [sectorSize]
    omega

end NorFlash
