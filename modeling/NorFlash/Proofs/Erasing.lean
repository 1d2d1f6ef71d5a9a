import NorFlash.Proofs.Cells

/-!
# Erasing — one erase unit

An erase that fails has erased the whole unit or nothing: its command is
carried out at one point between two waits.
-/

namespace NorFlash

open Emulator (Answered Refused Fired Carried Untouched Passed Stopped Spares)

variable {c c' : Controller} {e t : Emulator} {i : Fin maxSlaves} {p : UInt64} {a : Nat}

/-- The budget covers the time that a program or an erase keeps a chip busy. -/
def Patient (c : Controller) (e : Emulator) : Prop :=
  e.config.busyPolls.toNat ≤ c.tuning.pollBudget.maxPolls

theorem Kept.patient_iff (h : Kept c e c' t) : Patient c' t ↔ Patient c e := by
  rw [Patient, Patient, h.config, h.tuning]

/-- The address that a chip puts together from a header, in its sector. -/
theorem Headed.address {opcode : UInt8} (h : Headed opcode p i c e) (hp : Locates p i a) :
    (e.chip i).address (Address.ofOffset p).high (Address.ofOffset p).middle
      (Address.ofOffset p).low = a := by
  rw [Chip.address, h.sector]
  exact hp.header

/-- The contents of one chip changed, and only from `lo` up to `hi`. -/
theorem Leaves.sameOutside {contents : PageStore} {busy : UInt32} {lo hi : Nat}
    (h : Leaves i contents busy e t) (hread : ∀ b, b < e.config.capacity → b < lo ∨ hi ≤ b →
      contents.read b = (e.chip i).contents.read b) : SameOutside i lo hi e t := by
  intro j b hb hne
  rw [Emulator.cell, Emulator.cell]
  by_cases hij : i = j
  · subst hij
    rw [h.chip_eq.1]
    exact hread b hb (hne rfl)
  · rw [h.chip_of_ne hij]

/-- The unit at `a` is erased, and nothing else changed. -/
structure Erased (i : Fin maxSlaves) (a : Nat) (unit : EraseUnit) (e t : Emulator) : Prop where
  blank : Blank t i a (a + unit.bytes)
  same : SameOutside i a (a + unit.bytes) e t

theorem Erased.of_start {m : Emulator} {unit : EraseUnit} (hs : SameContents e m)
    (h : Erased i a unit m t) (hc : m.config = e.config) : Erased i a unit e t :=
  ⟨h.blank, hs.sameOutside.trans h.same hc⟩

/-- What a chip is left with by an erase of the unit at `a`. -/
theorem Attached.erased_of_leaves {unit : EraseUnit} {busy : UInt32} (h : Attached c e)
    (halign : a % unit.bytes = 0) (hfit : a + unit.bytes ≤ e.config.capacity)
    (hl : Leaves i ((e.chip i).contents.erase a unit.bytes) busy e t) : Erased i a unit e t := by
  have hread : ∀ b, b < e.config.capacity → ((e.chip i).contents.erase a unit.bytes).read b =
      if a ≤ b ∧ b < a + unit.bytes then 0xff else (e.chip i).contents.read b := by
    intro b hb
    refine PageStore.read_erase _ ?_ unit.bytes_mod_pageSize ?_ ?_
    · exact Nat.mod_eq_zero_of_dvd (Nat.dvd_trans unit.pageSize_dvd_bytes
        (Nat.dvd_of_mod_eq_zero halign))
    · rw [h.sizes]
      exact hfit
    · rw [h.sizes]
      exact hb
  constructor
  · intro b hlo hhi
    rw [Emulator.cell, hl.chip_eq.1, hread b (by omega), if_pos ⟨hlo, hhi⟩]
  · refine hl.sameOutside fun b hb hout => ?_
    rw [hread b hb, if_neg (by omega)]

/-- The erase command itself, with a header in the scratch buffer and the latch set:
the unit around the place that the header names is erased. -/
theorem Ready.lands_runErase (h : Ready c e i) {unit : EraseUnit} {high middle low : UInt8}
    (hheader : ∃ rest, c.scratch = unit.opcode :: high :: middle :: low :: rest)
    (hlatch : (e.chip i).writeEnabled = true) (ha : (e.chip i).address high middle low = a) :
    Drive.Ends Emulator.block (Controller.runScratch Opcode.headerLen false) c e
      (fun _ c' t => Kept c e c' t ∧ Passed Spares e t ∧ c'.bus = c.bus ∧
        Leaves i ((e.chip i).contents.erase (a - a % unit.bytes) unit.bytes) e.config.busyPolls
          e t)
      (fun _ c' t => Failed Spares True c e c' t ∧ t.chips = e.chips) := by
  obtain ⟨rest, hscratch⟩ := hheader
  have hop : unit.opcode ∈ Emulator.plainOpcodes := by cases unit <;> decide
  have hr := Chip.react_erase e.config h.idle hlatch unit high middle low
  rw [ha] at hr
  refine (h.ends_runDrained hscratch hr (PageStore.capacity_erase _ _ _) rfl nofun nofun).mono
    ?_ ?_
  · intro _ c' t hpost
    obtain ⟨hkept, hbus, hfired, _, hset⟩ := hpost
    exact ⟨hkept, hfired.passed hop, hbus, .of_set hset rfl rfl⟩
  · intro _ c' t hpost
    obtain ⟨hkept, hchips, hstopped⟩ := hpost
    exact ⟨⟨hkept, hstopped Spares fun _ => Emulator.Spares.strike_eq hop⟩, hchips⟩

/-- An erase command with the header of the unit at `a`. -/
theorem Ready.ends_runErase (h : Ready c e i) {unit : EraseUnit} (hh : Headed unit.opcode p i c e)
    (hp : Locates p i a) (hlatch : (e.chip i).writeEnabled = true)
    (halign : a % unit.bytes = 0) (hfit : a + unit.bytes ≤ e.config.capacity) :
    Drive.Ends Emulator.block (Controller.runScratch Opcode.headerLen false) c e
      (fun _ c' t => Kept c e c' t ∧ Passed Spares e t ∧ c'.bus = c.bus ∧
        Erased i a unit e t ∧ (t.chip i).busy = e.config.busyPolls)
      (fun _ c' t => Failed Spares True c e c' t ∧ SameContents e t) := by
  refine (h.lands_runErase hh.scratch hlatch (hh.address hp)).mono ?_ ?_
  · intro _ c' t hpost
    obtain ⟨hkept, hpassed, hbus, hleaves⟩ := hpost
    rw [halign, Nat.sub_zero] at hleaves
    exact ⟨hkept, hpassed, hbus, h.attached.erased_of_leaves halign hfit hleaves, hleaves.chip_eq.2⟩
  · exact fun _ _ _ hf => ⟨hf.1, .of_chips hf.2⟩

/-- An erase command with its header in the scratch buffer, from the write enable on. -/
theorem Ready.lands_eraseScratch (h : Ready c e i) {unit : EraseUnit} {high middle low : UInt8}
    (hheader : ∃ rest, c.scratch = unit.opcode :: high :: middle :: low :: rest)
    (ha : (e.chip i).address high middle low = a) (message : Message) :
    Drive.Ends Emulator.block (do
        Controller.enableWrite
        Controller.runScratch Opcode.headerLen false
        liftM (Proc.log message)
        Controller.waitUntilReady) c e
      (fun _ c' t => Ran Spares i c e c' t ∧ Patient c e ∧
        Leaves i ((e.chip i).contents.erase (a - a % unit.bytes) unit.bytes) 0 e t)
      (fun _ c' t => Failed Spares (Patient c e) c e c' t ∧
        ∃ busy, Leaves i (e.chip i).contents busy e t ∨
          Leaves i ((e.chip i).contents.erase (a - a % unit.bytes) unit.bytes) busy e t) := by
  refine Drive.Ends.bind h.ends_enableWrite ?_ ?_
  · intro _ _ t hpost
    obtain ⟨rfl, hf, hchips⟩ := hpost
    exact ⟨hf.any, _, .inl (.of_chips hchips)⟩
  intro _ _ e₁ hpost
  obtain ⟨rfl, hran₁, hset⟩ := hpost
  have hleaves₁ : Leaves i (e.chip i).contents (e.chip i).busy e e₁ := .of_set hset rfl rfl
  have hget : e₁.chip i = { e.chip i with writeEnabled := true } := by
    rw [Emulator.chip_of_chipsWith hset, if_pos rfl]
  refine Drive.Ends.bind (hran₁.ready.lands_runErase (a := a) hheader (by rw [hget])
    (by rw [hget]; exact ha)) ?_ ?_
  · intro _ _ _ hpost
    obtain ⟨hf, hchips⟩ := hpost
    exact ⟨(hran₁.failed hf).any, _, .inl (hleaves₁.trans_chips hchips)⟩
  intro _ c₂ e₂ hpost
  obtain ⟨hk₂, hpassed₂, hbus, hleaves₂⟩ := hpost
  replace hk₂ := hran₁.kept.trans hk₂
  replace hpassed₂ := hran₁.passed.trans hpassed₂
  have hbusy := hleaves₂.chip_eq.2
  rw [hleaves₁.chip_eq.1] at hleaves₂
  replace hleaves₂ := hleaves₁.trans hleaves₂
  have hi₂ : c₂.bus.slave.toNat = i.val := by rw [hbus, hran₁.slave]
  -- from here on the chip is busy for as long as its erase takes
  have hpolls : (e₂.chip i).busy.toNat ≤ c₂.tuning.pollBudget.maxPolls ↔ Patient c e := by
    rw [hbusy, hran₁.kept.config, hk₂.tuning, Patient]
  apply Drive.Ends.step Emulator.run_log
  refine (hk₂.attached.ends_wait hi₂).mono ?_ ?_
  · intro _ _ t hpost
    obtain ⟨rfl, hw⟩ := hpost
    have hran := hw.ran hi₂
    exact ⟨⟨hk₂.trans hran.kept, hpassed₂.trans hran.passed, hran.slave, hran.idle⟩,
      hpolls.mp hw.patient, hleaves₂.waited hw⟩
  · intro _ _ t hpost
    obtain ⟨rfl, hout⟩ := hpost
    have hf := hout.failed
    exact ⟨⟨hk₂.trans hf.kept, hpassed₂.stopped (hf.stopped.mono (fun _ h => h) hpolls.mpr)⟩, _,
      .inr (hleaves₂.timedOut hout)⟩

/-- An erase lands where its request leads to: the unit around that place is erased, or
no byte changes, and if it fails that has a cause. -/
theorem Attached.lands_eraseUnit (h : Attached c e)
    (hi : (Address.ofOffset p).slave.toNat = i.val) {unit : EraseUnit}
    (haligned : unit.isAligned p = true) (ha : c.landing e i p = a) :
    Drive.Ends Emulator.block (Controller.eraseUnit p unit) c e
      (fun _ c' t => Ran Spares i c e c' t ∧ Patient c e ∧
        Leaves i ((e.chip i).contents.erase (a - a % unit.bytes) unit.bytes) 0 e t)
      (fun _ c' t => Failed Spares (Patient c e ∧
          (e.chip i).busy.toNat ≤ c.tuning.pollBudget.maxPolls) c e c' t ∧
        ∃ busy, Leaves i (e.chip i).contents busy e t ∨
          Leaves i ((e.chip i).contents.erase (a - a % unit.bytes) unit.bytes) busy e t) := by
  rw [Controller.eraseUnit, if_pos haligned]
  refine Drive.Ends.bind (h.ends_turn _) ?_ ?_
  · intro _ _ _ hpost
    obtain ⟨rfl, rfl, hn⟩ := hpost
    exact absurd (hi ▸ i.isLt) hn
  intro _ c₁ _ hpost
  obtain ⟨rfl, hk₁, hc₁, -⟩ := hpost
  have hi₁ : c₁.bus.slave.toNat = i.val := by rw [hc₁, Controller.slave_turnedTo, hi]
  have hstart : Leaves i (e.chip i).contents (e.chip i).busy e e := .of_chips rfl
  refine Drive.Ends.bind (hk₁.attached.ends_wait hi₁) ?_ ?_
  · intro _ _ t hpost
    obtain ⟨rfl, hout⟩ := hpost
    refine ⟨(hout.failed.of_kept hk₁).mono (fun _ h => h) ?_, _, .inl (hstart.timedOut hout)⟩
    rw [hk₁.tuning]
    exact fun h => h.2
  intro _ _ e₂ hpost
  obtain ⟨rfl, hw⟩ := hpost
  have hran₂ := (hw.ran hi₁).of_kept hk₁
  have hleaves₂ := hstart.waited hw
  refine Drive.Ends.bind (hran₂.kept.attached.lands_buildHeader hi hran₂.idle _) ?_ ?_
  · intro _ _ _ hpost
    obtain ⟨hf, hleaves⟩ := hpost
    exact ⟨(hran₂.failed hf).any, _, .inl (hleaves₂.trans_same hleaves)⟩
  intro _ c₃ e₃ haimed
  have hran₃ := hran₂.trans haimed.ran
  have hleaves₃ := hleaves₂.trans_same haimed.leaves
  -- neither turning to the chip nor waiting for it changes where the erase lands
  have haddress := haimed.address
  have hsector : (e₂.chip i).sector = (e.chip i).sector := by
    rw [Emulator.chip_of_chipsWith hw.chips, if_pos rfl]
  rw [Controller.landing_eq, Controller.selected_congr _ hsector, hc₁,
    Controller.selected_turnedTo _ _ hi, ← Controller.landing_eq, ha] at haddress
  refine (hran₃.ready.lands_eraseScratch haimed.scratch haddress _).mono ?_ ?_
  · intro _ _ _ hpost
    obtain ⟨hran, hpatient, hleaves⟩ := hpost
    rw [hleaves₃.chip_eq.1] at hleaves
    exact ⟨hran₃.trans hran, hran₃.kept.patient_iff.mp hpatient, hleaves₃.trans hleaves⟩
  · intro _ _ _ hpost
    obtain ⟨hf, busy, hleaves⟩ := hpost
    rw [hleaves₃.chip_eq.1] at hleaves
    exact ⟨(hran₃.failed hf).mono (fun _ h => h) fun h => hran₃.kept.patient_iff.mpr h.1, busy,
      hleaves.imp hleaves₃.trans hleaves₃.trans⟩

/-- **An erase is atomic**: it erases the unit at `a` or changes no byte, and
if it fails that has a cause. -/
theorem Attached.ends_eraseUnit (h : Attached c e) (hp : Locates p i a) (unit : EraseUnit)
    (hfit : a + unit.bytes ≤ e.config.capacity) :
    Drive.Ends Emulator.block (Controller.eraseUnit p unit) c e
      (fun _ c' t => Ran Spares i c e c' t ∧ a % unit.bytes = 0 ∧ Erased i a unit e t ∧
        Patient c e)
      (fun _ c' t => Failed Spares (a % unit.bytes = 0 ∧ Patient c e ∧
          (e.chip i).busy.toNat ≤ c.tuning.pollBudget.maxPolls) c e c' t ∧
        (SameContents e t ∨ a % unit.bytes = 0 ∧ Erased i a unit e t)) := by
  by_cases halign : a % unit.bytes = 0
  case neg =>
    -- an unaligned offset is refused before any command
    rw [Controller.eraseUnit, if_neg (mt (hp.isAligned_iff unit).mp halign)]
    apply Drive.Ends.step Emulator.run_log
    exact Drive.Ends.throw ⟨⟨h.kept, .of_not fun hn => halign hn.1⟩, .inl (.refl e)⟩
  have hlt : a < e.config.capacity := Nat.lt_of_lt_of_le
    (Nat.lt_add_of_pos_right unit.bytes_pos) hfit
  have hlands := h.lands_eraseUnit hp.slave ((hp.isAligned_iff unit).mpr halign)
    (h.landing_eq hp hlt)
  rw [halign, Nat.sub_zero] at hlands
  refine hlands.mono ?_ ?_
  · intro _ _ _ hpost
    obtain ⟨hran, hpatient, hleaves⟩ := hpost
    exact ⟨hran, halign, h.erased_of_leaves halign hfit hleaves, hpatient⟩
  · intro _ _ _ hpost
    obtain ⟨hf, busy, hleaves⟩ := hpost
    refine ⟨hf.mono (fun _ h => h) fun h => h.2, hleaves.imp Leaves.sameContents ?_⟩
    exact fun herased => ⟨halign, h.erased_of_leaves halign hfit herased⟩

end NorFlash
