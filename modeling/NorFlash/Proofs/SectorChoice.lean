import NorFlash.Proofs.AttachVerdict
import NorFlash.Proofs.Bounds
import NorFlash.Proofs.Commanding
import NorFlash.Proofs.NorRules
import NorFlash.Proofs.WriteAll

/-!
# Sector choice — which sector a chip has selected when it is asked for one

On a controller that is commanded with all chips ready, a request for a sector
leads to that sector unless it is overlooked, and every burst lands in the sector
that its request led to. The one sector that can be overlooked is the mark for no
cached sector.
-/

namespace NorFlash

open Emulator (block Spares)

variable {c : Controller} {e t : Emulator} {i : Fin maxSlaves} {config : EmulatorConfig}
  {tuning : Tuning}

/-! ## Places modulo the capacity -/

/-- In a chip with `k` sectors two sectors are the same if they agree modulo `k`. -/
theorem place_mod_eq_iff {r s x k : Nat} (hx : x < sectorSize) :
    (r * sectorSize + x) % (k * sectorSize) = (s * sectorSize + x) % (k * sectorSize) ↔
      r % k = s % k := by
  have hplace : ∀ r, (r * sectorSize + x) % (k * sectorSize) = x + sectorSize * (r % k) := by
    intro r
    have hdiv : (r * sectorSize + x) / sectorSize = r := by
      rw [sectorSize] at *
      omega
    rw [Nat.mul_comm k, Nat.mod_mul, hdiv, Nat.mul_add_mod_self_right, Nat.mod_eq_of_lt hx]
  rw [hplace, hplace, Nat.add_left_cancel_iff]
  exact Nat.mul_right_inj (by decide)

/-- A burst lands at the place that the offset names, unless its request is overlooked by
a chip with another sector. -/
theorem Controller.landing_mod_eq_iff (c : Controller) (e : Emulator) (i : Fin maxSlaves)
    (p : UInt64) {k : Nat} (hcapacity : e.config.capacity = k * sectorSize) :
    c.landing e i p % e.config.capacity = p.toNat % word32Limit % e.config.capacity ↔
      ¬ (c.Overlooks i (Address.ofOffset p).sector ∧
        (e.chip i).sector.toNat % k ≠ sectorNone.toNat % k) := by
  by_cases hskip : c.Overlooks i (Address.ofOffset p).sector
  · have hnone : p.toNat % word32Limit =
        sectorNone.toNat * sectorSize + p.toNat % sectorSize := by
      rw [← hskip.1]
      simp only [Address.ofOffset, sectorSize, word32Limit, UInt8.toNat_ofNat']
      omega
    rw [landing, if_pos hskip, hnone, hcapacity, place_mod_eq_iff (Nat.mod_lt _ (by decide))]
    simp [hskip]
  · rw [landing, if_neg hskip]
    simp [hskip]

/-! ## Requests and bursts -/

/-- **A request for a sector leads there, unless it is overlooked.** On a controller that
was commanded with all chips ready, and that finds them ready now: after a request that
went well the active chip has the sector selected, except where the sector is the mark
for none, none is cached and the chip has selected another. Reads and programs at an
offset land on the slave and at the address that it names, except where its sector is
requested in vain. Without a fault neither a request nor a read inside a page fails. The
end of what is read is counted in 64 bits, which no buffer exceeds. -/
theorem Commanded.selection_exact (h : Commanded config tuning c e) (hidle : e.AllIdle) :
    (∀ sector, Drive.Ends block (Controller.selectSector sector) c e
      (fun _ _ t => ∀ i : Fin maxSlaves, c.bus.slave.toNat = i.val →
        ((t.chip i).sector = sector ↔ ¬ (c.Overlooks i sector ∧ (e.chip i).sector ≠ sector)))
      (fun _ _ t => (e.Blocked ∨ ¬ Spares e.armed) ∧
        ∀ i, (t.chip i).sector = (e.chip i).sector)) ∧
    ∀ (p : UInt64) (i : Fin maxSlaves), (Address.ofOffset p).slave.toNat = i.val →
      (c.landing e i p % e.config.capacity = p.toNat % word32Limit % e.config.capacity ↔
        ¬ (c.Overlooks i (Address.ofOffset p).sector ∧
          (e.chip i).sector.toNat % (e.config.capacity / sectorSize) ≠
            sectorNone.toNat % (e.config.capacity / sectorSize))) ∧
      (∀ n, pageIndex p + n < wordLimit → Drive.Ends block (Controller.readChunk p n) c e
        (fun bytes _ t => bytes.length ≤ n ∧ (0 < n → 0 < bytes.length) ∧ SameContents e t ∧
          Brings e i (c.landing e i p) c.tuning.readDummyLen bytes)
        (fun _ _ t => (pageIndex p + n ≤ pageSize → e.Blocked ∨ ¬ Spares e.armed) ∧
          SameContents e t)) ∧
      ∀ data, Drive.Ends block (Controller.writeChunk p data) c e
        (fun n _ t => n ≤ data.length ∧ (data ≠ [] → 0 < n) ∧
          Stores i (c.landing e i p) (data.take n) e t)
        (fun _ _ t => ∃ n ≤ data.length, Stores i (c.landing e i p) (data.take n) e t) := by
  have hrest : Resting c e := ⟨h.attached, hidle⟩
  have hsectors := hrest.attached.capacity_bounds.1
  constructor
  · intro sector
    obtain ⟨j, hj⟩ := hrest.exists_active
    refine (hrest.ends_selectSector hj sector).mono ?_ ?_
    · intro _ c' t hpost i hi
      obtain rfl : j = i := Fin.ext (hj.symm.trans hi)
      obtain ⟨-, -, latch, hset⟩ := hpost
      rw [Emulator.chip_of_chipsWith hset, if_pos rfl, Controller.selected]
      by_cases hskip : c.Overlooks j sector
      · simp [hskip]
      · simp [hskip]
    · intro _ c' t hpost
      obtain ⟨hhalted, latch, hset⟩ := hpost
      refine ⟨hhalted.stopped.cause trivial, fun i => ?_⟩
      rw [Emulator.chip_of_chipsWith hset]
      split
      · rename_i hij
        rw [hij]
      · rfl
  · intro p i hi
    refine ⟨?_, fun n hfits => ?_, fun data => ?_⟩
    · refine c.landing_mod_eq_iff e i p ?_
      rw [Nat.div_mul_cancel (Nat.dvd_of_mod_eq_zero hsectors)]
    · refine (hrest.ends_readChunk p hfits).mono ?_ ?_
      · intro bytes c' t hpost
        obtain ⟨-, hsame, hle, hpos, hbrings⟩ := hpost
        exact ⟨hle, hpos, hsame, hbrings i hi⟩
      · intro _ c' t hhalted
        exact ⟨fun hpage => hhalted.stopped.cause ⟨hi ▸ i.isLt, hpage⟩, hhalted.contents⟩
    · refine (hrest.ends_writeChunk p data).mono ?_ ?_
      · intro n c' t hpost
        obtain ⟨-, hle, hpos, hstores⟩ := hpost
        exact ⟨hle, hpos, hstores i hi⟩
      · exact fun _ _ _ hpost => hpost.2 i hi

/-! ## Attaching to chips that are ready -/

/-- Status reads and ID reads change no chip that is ready. -/
theorem Proc.chips_run_of_asks {α : Type} (p : Proc α) (e : Emulator) (hidle : e.AllIdle)
    (hasks : ∀ d ∈ p.deliveries e, d.Asks i) : (p.run block e).2.chips = e.chips := by
  induction p generalizing e with
  | done | trap => rfl
  | read r next ih =>
    obtain ⟨-, hchips, -⟩ := run_block_read e r
    exact (ih _ _ (hidle.of_chips hchips) hasks).trans hchips
  | write r v next ih =>
    have hchips : (e.write v r).chips = e.chips := by
      have hafter := Emulator.after_write e v r
      cases hd : e.delivery? v r with
      | none =>
        rw [hd] at hafter
        cases hafter with
        | nothing _ hchips _ _ => exact hchips
      | some d =>
        have hdelivered : e.delivered? (.write r.offset v) = some d := by
          cases r <;> exact hd
        obtain ⟨-, hfound⟩ := Emulator.delivered?_eq_some hdelivered
        have hsame : (d.reaction e.config).chip = e.chip d.slave := by
          rw [Delivery.reaction, hfound]
          obtain ⟨-, hcommand⟩ := hasks d (by rw [deliveries, hd]; simp)
          rcases hcommand with hstatus | hid
          · rw [hstatus, (Chip.react_readStatus e.config _).1, hidle, if_neg (by decide), ← hidle]
          · rw [hid, Chip.react_readId _ (hidle _)]
        rw [hd] at hafter
        cases hafter with
        | command _ _ hchips _ _ => rw [hchips, hsame, Emulator.chipsWith_chip]
    rw [run_write]
    rw [deliveries, run_block_write] at hasks
    exact (ih () _ (hidle.of_chips hchips) fun d hd =>
      hasks d (List.mem_append_right _ hd)).trans hchips
  | delay us next ih => exact ih () _ hidle hasks
  | yield next ih => exact ih () _ hidle hasks
  | note m next ih => exact ih () _ hidle hasks

/-- No chip is busy at first. -/
theorem Emulator.allIdle_ofConfig (config : EmulatorConfig) : (ofConfig config).AllIdle := by
  intro i
  simp [ofConfig, chip]

/-- A driver that can attach to chips that are ready leaves them as they are, and has no
sector cached then. -/
theorem Emulator.Prepared.exists_commanded (h : Emulator.Prepared config e)
    (ha : Attachable tuning e) (hidle : e.AllIdle) :
    ∃ c t, Commanded config tuning c t ∧ Engaged tuning e c t ∧ c.sector = sectorNone ∧
      t.chips = e.chips := by
  have hcount : Opcode.headerLen + tuning.readDummyLen < wordLimit := by
    have h1 := ha.overhead_lt
    have h2 := ha.depth_le
    simp only [Bus.probeLimit, wordLimit] at *
    omega
  have hfresh := h.fresh_and_config.1
  obtain ⟨r, t, hrun, hr⟩ := hfresh.ends_attach tuning hcount
  obtain ⟨ds, u, hgoes, -, hasks, -⟩ := hfresh.surveys_attach ha.unarmed h.deselected hcount
  have hsame := hgoes.run
  rw [hrun] at hsame
  have hchips := Proc.chips_run_of_asks (Controller.attach tuning).run e hidle
    (hgoes.deliveries ▸ hasks)
  rw [hrun] at hchips
  cases r with
  | error error => exact absurd ha hr
  | ok c =>
    refine ⟨c, t, .attach h hrun, hr, ?_, hchips⟩
    have hfound := Option.some.inj (congrArg Prod.fst hsame)
    cases hverdict : tuning.verdict e.config (e.chip firstChip).busy.toNat with
    | error error =>
      rw [hverdict] at hfound
      cases hfound
    | ok id =>
      rw [hverdict] at hfound
      cases hfound
      rfl

/-- The sector of the second 16 MiB is selected when it is asked for, right after attaching. -/
theorem selection_exact_default :
    ∃ c e, Commanded {} {} c e ∧ e.AllIdle ∧
      Drive.Ends block (Controller.selectSector 1) c e
        (fun _ _ t => (t.chip firstChip).sector = 1) (fun _ _ _ => False) := by
  have hidle := Emulator.allIdle_ofConfig {}
  obtain ⟨c, e, hc, hengaged, -, hchips⟩ :=
    Emulator.Prepared.fresh.exists_commanded attachable_default hidle
  have hready := hidle.of_chips hchips
  obtain ⟨hfree, hunarmed⟩ := hengaged.clear rfl
  refine ⟨c, e, hc, hready, ((hc.selection_exact hready).1 1).mono ?_ ?_⟩
  · intro _ _ t hpost
    refine (hpost firstChip hengaged.ready.slave).mpr fun hskip => ?_
    exact absurd hskip.1.1 (by decide)
  · intro _ _ _ hpost
    exact hpost.1.elim hfree fun hn => hn hunarmed.spares

/-- The mark for no sector is not selected when it is asked for right after attaching: the
request answers well, but the chip keeps sector 0, and a read in the sector that was asked
for brings a byte of sector 0. -/
theorem sector_mark_overlooked :
    ∃ c e, Commanded { capacityCode := 0x19 } {} c e ∧ e.AllIdle ∧ e.armed = none ∧
      Drive.Ends block (Controller.selectSector 0xff) c e
        (fun _ _ t => c.bus.slave = 0 ∧ (t.chip firstChip).sector = 0) (fun _ _ _ => False) ∧
      e.cell firstChip 0xff000000 = 0x5a ∧
      Drive.Ends block (Controller.readChunk 0xff000000 1) c e
        (fun bytes _ _ => bytes = [0xff]) (fun _ _ _ => False) := by
  -- two sectors to a chip, and one byte of the second is not erased
  let m : Emulator := .loaded { capacityCode := 0x19 } 0x1000000 [0x5a]
  have hattachable : Attachable {} m := Attachable.loaded attachable_twoSectors _ _
  have hleaves : Leaves firstChip (m.chip firstChip).contents 0
      (Emulator.ofConfig { capacityCode := 0x19 }) m := .of_set rfl rfl rfl
  have hidle := hleaves.allIdle (Emulator.allIdle_ofConfig _)
  obtain ⟨c, e, hc, hengaged, hnone, hchips⟩ :=
    (Emulator.prepared_loaded _ _ _).exists_commanded hattachable hidle
  have hready := hidle.of_chips hchips
  obtain ⟨hfree, hunarmed⟩ := hengaged.clear rfl
  have hrest : Resting c e := ⟨hc.attached, hready⟩
  have hslave := hengaged.ready.slave
  have hcell : ∀ a, e.cell firstChip a = m.cell firstChip a := fun a => by
    rw [Emulator.cell, Emulator.chip_of_chips hchips]
    rfl
  have hsector : (e.chip firstChip).sector = 0 := by
    rw [Emulator.chip_of_chips hchips]
    rfl
  have hcapacity : (m.chip firstChip).contents.capacity = 0x2000000 := rfl
  -- nothing is cached, so the request is skipped
  have hskip : c.Overlooks firstChip 0xff := ⟨rfl, fun _ => hnone⟩
  have hselected : c.selected e firstChip 0xff = 0 := by
    rw [Controller.selected, if_pos hskip, hsector]
  have hlanding : c.landing e firstChip 0xff000000 = 0 := by
    rw [Controller.landing_eq]
    show (c.selected e firstChip 0xff).toNat * sectorSize + _ = 0
    rw [hselected]
    rfl
  -- the byte at the offset is the loaded one, that at the start of the chip is erased
  have hmarked : e.cell firstChip 0xff000000 = 0x5a := by
    have hload : m.cell firstChip 0x1000000 = 0x5a :=
      Emulator.cell_loaded (by decide) (by decide) (by decide)
    rw [hcell, Emulator.cell, ← PageStore.read_mod, hcapacity]
    exact hload
  have hblank : e.cell firstChip 0 = 0xff := by
    rw [hcell]
    exact Emulator.cell_loaded (by decide) (by decide) (by decide)
  refine ⟨c, e, hc, hready, hunarmed, (hrest.ends_selectSector hslave 0xff).mono ?_ ?_, hmarked,
    (hrest.ends_readChunk 0xff000000 (n := 1) (by decide)).mono ?_ ?_⟩
  · intro _ _ t hpost
    obtain ⟨-, -, latch, hset⟩ := hpost
    refine ⟨UInt8.toNat_inj.mp hslave, ?_⟩
    rw [Emulator.chip_of_chipsWith hset, if_pos rfl, hselected]
  · intro _ _ _ hpost
    exact (hpost.1.stopped.cause trivial).elim hfree fun hn => hn hunarmed.spares
  · intro bytes _ t hpost
    obtain ⟨-, -, hle, hpos, hbrings⟩ := hpost
    have hlen : bytes.length = 1 := Nat.le_antisymm hle (hpos (by decide))
    obtain ⟨v, rfl⟩ := List.length_eq_one_iff.mp hlen
    have hbyte := hbrings firstChip rfl 0 Nat.one_pos
    rw [hlanding, hengaged.tuning] at hbyte
    have hv : v = e.cell firstChip 0 := Option.some.inj hbyte
    rw [hv, hblank]
  · intro _ _ _ hhalted
    exact (hhalted.stopped.cause ⟨by decide, by decide⟩).elim hfree fun hn => hn hunarmed.spares

end NorFlash
