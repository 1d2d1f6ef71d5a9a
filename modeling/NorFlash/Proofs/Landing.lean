import NorFlash.Proofs.Invariant

/-!
# Landing — the sector that a request leads to

A header names a place within 16 MiB, so a burst lands in the sector that the
chip has selected by then. A request for a sector is skipped if that sector is
cached. The mark for no cached sector is itself a sector: a request for it may be
skipped although the chip has selected another one.
-/

namespace NorFlash

variable {e t : Emulator} {i : Fin maxSlaves} {p : UInt64} {a : Nat}

namespace Controller

/-- A request for this sector on chip `i` is skipped with nothing cached: the sector
is also the mark for none. -/
def Overlooks (c : Controller) (i : Fin maxSlaves) (sector : UInt8) : Prop :=
  sector = sectorNone ∧ (c.bus.slave.toNat = i.val → c.sector = sectorNone)

instance (c : Controller) (i : Fin maxSlaves) (sector : UInt8) :
    Decidable (c.Overlooks i sector) :=
  inferInstanceAs (Decidable (_ ∧ _))

/-- The sector that chip `i` has selected after a request for one. -/
def selected (c : Controller) (e : Emulator) (i : Fin maxSlaves) (sector : UInt8) : UInt8 :=
  if c.Overlooks i sector then (e.chip i).sector else sector

/-- Where on chip `i` a burst at the offset lands. -/
def landing (c : Controller) (e : Emulator) (i : Fin maxSlaves) (p : UInt64) : Nat :=
  if c.Overlooks i (Address.ofOffset p).sector then
    (e.chip i).sector.toNat * sectorSize + p.toNat % sectorSize
  else
    p.toNat % word32Limit

/-- A burst lands in the selected sector. -/
theorem landing_eq (c : Controller) (e : Emulator) (i : Fin maxSlaves) (p : UInt64) :
    c.landing e i p =
      (c.selected e i (Address.ofOffset p).sector).toNat * sectorSize + p.toNat % sectorSize := by
  rw [landing, selected]
  split
  · rfl
  · simp only [Address.ofOffset, sectorSize, word32Limit, UInt8.toNat_ofNat']
    omega

/-- A request for another sector than the mark leads there. -/
theorem selected_of_ne (c : Controller) (e : Emulator) (i : Fin maxSlaves) {sector : UInt8}
    (h : sector ≠ sectorNone) : c.selected e i sector = sector :=
  if_neg fun hskip => h hskip.1

theorem selected_congr (c : Controller) (h : (t.chip i).sector = (e.chip i).sector)
    (sector : UInt8) : c.selected t i sector = c.selected e i sector := by
  rw [selected, selected, h]

/-- The controller, turned to a slave. -/
def turnedTo (c : Controller) (slave : UInt8) : Controller :=
  if c.bus.slave = slave then c
  else { c with bus := { c.bus with slave }, sector := sectorNone }

@[simp] theorem slave_turnedTo (c : Controller) (slave : UInt8) :
    (c.turnedTo slave).bus.slave = slave := by
  rw [turnedTo]
  split
  · assumption
  · rfl

/-- Turning to a chip changes nothing for the sectors selected there. -/
theorem selected_turnedTo (c : Controller) (e : Emulator) {slave : UInt8}
    (hi : slave.toNat = i.val) (sector : UInt8) :
    (c.turnedTo slave).selected e i sector = c.selected e i sector := by
  have hsame : (c.turnedTo slave).Overlooks i sector ↔ c.Overlooks i sector := by
    by_cases hslave : c.bus.slave = slave
    · rw [turnedTo, if_pos hslave]
    · have hother : c.bus.slave.toNat ≠ i.val :=
        fun heq => hslave (UInt8.toNat_inj.mp (heq.trans hi.symm))
      simp [turnedTo, Overlooks, hslave, hother]
  simp only [selected, hsame]

end Controller

/-- A chip adds the sector it has selected to the header. -/
theorem Chip.address_ofOffset (chip : Chip) (p : UInt64) :
    chip.address (Address.ofOffset p).high (Address.ofOffset p).middle (Address.ofOffset p).low =
      chip.sector.toNat * sectorSize + p.toNat % sectorSize := by
  simp only [Chip.address, Address.ofOffset, Address.highWeight, Address.middleWeight, sectorSize,
    UInt8.toNat_ofNat']
  omega

namespace Locates

/-- No address of a chip lies in the sector that stands for none. -/
theorem sector_ne (h : Locates p i a) (ha : a < 16 * sectorSize) :
    (Address.ofOffset p).sector ≠ sectorNone := by
  have hlt := h.sector_lt ha
  intro hnone
  rw [hnone] at hlt
  exact absurd hlt (by decide)

/-- Inside a chip a burst lands where its offset says. -/
theorem landing_eq (h : Locates p i a) (ha : a < 16 * sectorSize) (c : Controller)
    (e : Emulator) : c.landing e i p = a := by
  rw [Controller.landing, if_neg fun hskip => h.sector_ne ha hskip.1, h.address]

end Locates

end NorFlash
