import NorFlash.Proofs.Coherence
import NorFlash.Proofs.Exactness

/-!
# Erase exactness — what an erase does in every reachable state

An erase clears exactly its unit or changes no byte, whatever faults strike. If it
ends well it has cleared the unit; if it fails it may have, as the wait behind the
command can fail, too. Nothing else ever changes.
-/

namespace NorFlash

open Emulator (Unarmed)

variable {e t : Emulator} {f : Flash} {i : Fin maxSlaves} {config : EmulatorConfig}
  {tuning : Tuning} {p : UInt64} {size : Nat} {unit : EraseUnit}

/-- The unit of `size` bytes at an offset, which lies inside its chip, was cleared,
and nothing else changed. -/
structure ErasedAt (p : UInt64) (size : Nat) (e t : Emulator) : Prop where
  supported : size = 4096 ∨ size = 32768 ∨ size = 65536
  aligned : p.toNat % size = 0
  inside : (chipOffset p).toNat + size ≤ e.config.capacity
  blank : t.HoldsAt p (Bytes.filled size 0xff)
  same : UnchangedBut p size e t

theorem EraseUnit.bytes_cases (unit : EraseUnit) :
    unit.bytes = 4096 ∨ unit.bytes = 32768 ∨ unit.bytes = 65536 := by
  cases unit with
  | page => exact .inl rfl
  | large => exact .inr (.inl rfl)
  | huge => exact .inr (.inr rfl)

theorem EraseUnit.exists_of_supported (h : size = 4096 ∨ size = 32768 ∨ size = 65536) :
    ∃ unit : EraseUnit, unit.bytes = size := by
  rcases h with rfl | rfl | rfl
  · exact ⟨.page, rfl⟩
  · exact ⟨.large, rfl⟩
  · exact ⟨.huge, rfl⟩

theorem Blank.holdsAt (hp : Locates p i (chipOffset p).toNat)
    (h : Blank t i (chipOffset p).toNat ((chipOffset p).toNat + size)) :
    t.HoldsAt p (Bytes.filled size 0xff) := by
  intro k hk
  rw [Bytes.length_filled] at hk
  refine ⟨i, hp.slave, ?_⟩
  rw [h _ (Nat.le_add_right _ _) (by omega)]
  exact (List.getElem_replicate _).symm

theorem Erased.erasedAt (hp : Locates p i (chipOffset p).toNat)
    (halign : (chipOffset p).toNat % unit.bytes = 0)
    (hinside : (chipOffset p).toNat + unit.bytes ≤ e.config.capacity)
    (h : Erased i (chipOffset p).toNat unit e t) : ErasedAt p unit.bytes e t where
  supported := unit.bytes_cases
  inside := hinside
  aligned := by simpa [EraseUnit.isAligned] using (hp.isAligned_iff unit).mpr halign
  blank := h.blank.holdsAt hp
  same := h.same.unchangedBut hp

/-- **Erases are exact and atomic.** An erase that ends well has cleared exactly its
aligned unit; one that fails has cleared exactly that unit or changed no byte at
all. An aligned erase of a supported size inside its chip that nothing hinders
ends well. -/
theorem Reachable.erase_exact (h : Reachable config tuning f e) (p : UInt64) (size : Nat) :
    (Flash.erase p size f).Ends Emulator.block e fun r t =>
      (r.1 = .ok () → ErasedAt p size e t) ∧
      (∀ error, r.1 = .error error →
        (∀ i b, t.cell i b = e.cell i b) ∨ ErasedAt p size e t) ∧
      (Unhindered p tuning e → config.busyPolls.toNat ≤ tuning.pollBudget.maxPolls →
        size = 4096 ∨ size = 32768 ∨ size = 65536 → p.toNat % size = 0 →
        (chipOffset p).toNat + size ≤ f.capacity → r.1 = .ok ()) := by
  obtain ⟨hattached, htuning, hconfig⟩ := h.invariant h.count_lt
  have hremaining := hattached.remaining_eq p
  by_cases hfit : f.remaining p < size
  · apply Proc.Ends.bind_get_state
    rw [if_pos hfit]
    refine Proc.Ends.pure ⟨nofun, fun _ _ => .inl fun _ _ => rfl, fun _ _ _ _ hrange => ?_⟩
    rw [Flash.remaining] at hfit
    omega
  obtain ⟨r, t, hrun, -, -, heffect⟩ := hattached.ends_erase p size
  -- what an erase that had an effect did is the same, whatever it returned
  have herasedAt : ∀ {i : Fin maxSlaves} {unit : EraseUnit}, size = unit.bytes →
      Locates p i (chipOffset p).toNat → (chipOffset p).toNat % unit.bytes = 0 →
      Erased i (chipOffset p).toNat unit e t → ErasedAt p size e t := by
    rintro i unit rfl hp halign herased
    have hpos := unit.bytes_pos
    exact herased.erasedAt hp halign (by omega)
  refine ⟨r, t, hrun, fun hok => ?_, fun error herror => ?_, ?_⟩
  · rcases heffect with ⟨⟨error, herror⟩, -⟩ | ⟨i, unit, hsize, hp, halign, herased⟩
    · rw [hok] at herror
      cases herror
    · exact herasedAt hsize hp halign herased
  · rcases heffect with ⟨-, hsame⟩ | ⟨i, unit, hsize, hp, halign, herased⟩
    · exact .inl hsame.cell
    · exact .inr (herasedAt hsize hp halign herased)
  · intro hclear hbusy hsupported halign _
    obtain ⟨unit, rfl⟩ := EraseUnit.exists_of_supported hsupported
    have hpatient : Patient f.controller e := by
      rw [Patient, hconfig, htuning]
      exact hbusy
    exact (hattached.ends_erase_ok (Nat.not_lt.mp hfit) halign (htuning ▸ hclear)
      hpatient).of_run hrun

/-- Of two bytes on both sides of a page boundary the second is erased with its page, and the
first stays. -/
theorem erase_exact_default :
    ∃ f e, Reachable {} {} f e ∧ e.cell firstChip 0xfff = 0x5a ∧ e.cell firstChip 0x1000 = 0xa5 ∧
      (Flash.erase 0x1000 4096 f).Ends Emulator.block e fun r t =>
        r.1 = .ok () ∧ ErasedAt 0x1000 4096 e t ∧
        t.cell firstChip 0xfff = 0x5a ∧ t.cell firstChip 0x1000 = 0xff := by
  have hprepared := Emulator.prepared_loaded {} 0xfff [0x5a, 0xa5]
  obtain ⟨f, e, hr, hengaged⟩ := hprepared.exists_reachable (attachable_default.loaded _ _)
  have hcapacity : f.capacity = sectorSize := hengaged.capacity_eq
  have hoffset : (chipOffset 0x1000).toNat = 0x1000 := by decide
  have hbefore : e.cell firstChip 0xfff = 0x5a := hengaged.cell_loaded (by decide) (by decide)
  have hinside : e.cell firstChip 0x1000 = 0xa5 := hengaged.cell_loaded (by decide) (by decide)
  refine ⟨f, e, hr, hbefore, hinside, (hr.erase_exact 0x1000 4096).mono ?_⟩
  rintro r t ⟨hexact, -, hends⟩
  have hok := hends (hengaged.unhindered rfl (by decide)) (by decide) (.inl rfl) (by decide)
    (by rw [hcapacity, hoffset]; decide)
  have herased := hexact hok
  refine ⟨hok, herased, ?_, ?_⟩
  · rw [herased.same firstChip 0xfff (by rw [hengaged.config]; decide) fun _ => .inl (by decide)]
    exact hbefore
  · obtain ⟨i, hi, hcell⟩ := herased.blank 0 (by rw [Bytes.length_filled]; decide)
    obtain rfl : i = firstChip := Fin.ext hi.symm
    exact hcell.trans (List.getElem_replicate _)

end NorFlash
