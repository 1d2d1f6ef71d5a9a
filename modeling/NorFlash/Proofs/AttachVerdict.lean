import NorFlash.Proofs.Coherence
import NorFlash.Proofs.Dialogue

/-!
# Attach verdict — how attaching ends, and why

With no fault armed, how an attach ends depends on the depth of the FIFOs, on how
long the first chip stays busy and on the ID, in this order. It asks the chip for
its status and its ID and does nothing else to any chip.
-/

namespace NorFlash

open Emulator (idleControl Fresh Rested)

variable {α β : Type} {e m t u : Emulator} {config : EmulatorConfig} {tuning : Tuning}

/-! ## The verdict -/

/-- How an attach ends on a flash whose first chip is busy for so many status
reads: with its vendor and capacity, or with the first thing that is wrong. -/
def Tuning.verdict (tuning : Tuning) (config : EmulatorConfig) (busy : Nat) :
    Except Error (Vendor × Nat) :=
  if config.fifoDepth = 0 then .error (.timeout .fifoReset)
  else if Bus.probeLimit < config.fifoDepth ∨
      config.fifoDepth ≤ Opcode.headerLen + tuning.readDummyLen then
    .error .fifoProbeFailed
  else if tuning.pollBudget.maxPolls < busy then .error (.timeout .deviceReady)
  else config.identity

/-- Every capacity in a verdict is that of the chips. -/
theorem Tuning.capacity_of_verdict {busy : Nat} {v : Vendor} {n : Nat}
    (h : tuning.verdict config busy = .ok (v, n)) : n = config.capacity := by
  rw [verdict] at h
  split at h
  · cases h
  split at h
  · cases h
  split at h
  · cases h
  exact EmulatorConfig.capacity_of_identity h

/-! ## Surveys -/

/-- From `e` the attempt ends in `r`. It asks the first chip at most, leaves all
contents alone, and if it succeeds it leaves the controller at rest and every select
line released. -/
def Attempt.Surveys (x : Attempt α) (e : Emulator) (r : Except Error α) : Prop :=
  ∃ ds t, x.run.Goes e ds r t ∧ SameContents e t ∧ (∀ d ∈ ds, d.Asks firstChip) ∧
    ∀ a, r = .ok a → t.Rested ∧ t.slaveSelect = slaveSelectNone

namespace Attempt.Surveys

variable {x : Attempt α} {f : α → Attempt β} {a : α} {r : Except Error β}

/-- A first part that went well, ran no burst and did not touch the chips. -/
theorem step (hx : x.run.Goes e [] (.ok a) m) (hchips : m.chips = e.chips)
    (hf : Surveys (f a) m r) : Surveys (x >>= f) e r := by
  obtain ⟨ds, t, hgoes, hcontents, hasks, hrested⟩ := hf
  exact ⟨ds, t, .bind_ok hx hgoes, .trans (.of_chips hchips) hcontents, hasks, hrested⟩

/-- A first part that failed before any burst. -/
theorem failed {error : Error} (hx : x.run.Goes e [] (.error error) m)
    (hchips : m.chips = e.chips) : Surveys (x >>= f) e (.error error) :=
  ⟨[], m, .bind_error hx, .of_chips hchips, nofun, nofun⟩

theorem throw {error : Error} : Surveys (MonadExcept.throw error : Attempt β) e (.error error) :=
  ⟨[], e, .pure, .refl e, nofun, nofun⟩

/-- A last part that does not look at the controller. -/
theorem map {o : Except Error α} {g : α → β} (hx : Surveys x e o)
    (hf : ∀ a m, (f a).run.Goes m [] (.ok (g a)) m) : Surveys (x >>= f) e (o.map g) := by
  obtain ⟨ds, t, hgoes, hcontents, hasks, hrested⟩ := hx
  cases o with
  | error error => exact ⟨ds, t, .bind_error hgoes, hcontents, hasks, nofun⟩
  | ok a => exact ⟨ds, t, .last_ok hgoes (hf a t), hcontents, hasks, fun _ _ => hrested a rfl⟩

/-- A branch whose two sides come together in `y`. -/
theorem join {P : Prop} [Decidable P] {y z : Attempt β} {M : Emulator → Prop} (hskip : ¬ P → M e)
    (hy : ∀ t, M t → Surveys y t r) (hz : P → (∀ t, M t → Surveys y t r) → Surveys z e r) :
    Surveys (if P then z else y) e r := by
  by_cases h : P
  · rw [if_pos h]
    exact hz h hy
  · rw [if_neg h]
    exact hy e (hskip h)

end Attempt.Surveys

namespace Emulator

/-- Measuring the FIFO depth runs no burst. -/
theorem Fresh.goes_discoverFifoDepth (h : e.Fresh) (hc : e.control = idleControl) (b : Bus)
    (filler : UInt8) :
    ∃ r t, (b.after (Bus.discoverFifoDepth filler)).run.Goes e [] r t ∧ t.chips = e.chips ∧
      match r with
      | .ok b' => t = e ∧ b' = { b with fifoDepth := e.config.fifoDepth } ∧
        0 < e.config.fifoDepth ∧ e.config.fifoDepth ≤ Bus.probeLimit
      | .error error => e.config.fifoDepth = 0 ∧ error = .timeout .fifoReset ∨
        Bus.probeLimit < e.config.fifoDepth ∧ error = .fifoProbeFailed := by
  obtain ⟨r, t, hrun, hr⟩ := h.ends_discoverFifoDepth hc b filler
  have hnone : (b.after (Bus.discoverFifoDepth filler)).run.deliveries e = [] :=
    List.eq_nil_iff_forall_not_mem.mpr (h.sends_discoverFifoDepth (D := fun _ => False) hc b filler)
  have hchips := Proc.chips_run (b.after (Bus.discoverFifoDepth filler)).run e
  rw [hrun, hnone] at hchips
  cases r with
  | ok b' =>
    obtain ⟨rfl, hmeasured⟩ := hr
    exact ⟨_, _, ⟨hrun, hnone, rfl⟩, hchips, rfl, hmeasured⟩
  | error error =>
    obtain ⟨hcause, hbursts⟩ := hr
    exact ⟨_, _, ⟨hrun, hnone, hbursts⟩, hchips, hcause⟩

/-- The wait and the ID read of a driver that knows the FIFO depth. -/
theorem Rested.surveys_identification (h : e.Rested) (hdepth : e.config.fifoDepth ≤ Bus.probeLimit)
    (hroom : Opcode.headerLen + tuning.readDummyLen < e.config.fifoDepth) {b : Bus}
    (hb : b = { budget := tuning.pollBudget, fifoDepth := e.config.fifoDepth }) :
    Attempt.Surveys (b.waitUntilReady >>= fun _ => b.identify) e
      (tuning.verdict e.config (e.chip firstChip).busy.toNat) := by
  have hverdict : tuning.verdict e.config (e.chip firstChip).busy.toNat =
      if b.budget.maxPolls < (e.chip firstChip).busy.toNat then
        .error (.timeout .deviceReady) else e.config.identity := by
    rw [Tuning.verdict, if_neg (by omega), if_neg (by omega), hb]
  have hdepth : b.fifoDepth = e.config.fifoDepth := by rw [hb]
  obtain ⟨ds, t, hgoes, hasked, hreleased⟩ :=
    h.goes_waitAndIdentify (i := firstChip) hdepth (by rw [hb]; rfl) (by omega)
  rw [hverdict]
  refine ⟨ds, t, hgoes, hasked.contents, hasked.questions, fun id hid => ⟨hasked.rested, ?_⟩⟩
  -- a verdict with an identity is not the one of a wait that was given up
  refine hreleased fun hlate => ?_
  rw [if_pos hlate] at hid
  cases hid

/-- A fresh emulator that nothing disturbs, with the chips of `e`. -/
structure Undisturbed (e u : Emulator) : Prop where
  fresh : u.Fresh
  config : u.config = e.config
  chips : u.chips = e.chips
  unarmed : u.armed = none
  deselected : u.selected? = none

theorem Undisturbed.goes_softReset (h : e.Undisturbed u) :
    ∃ t, Bus.softReset.Goes u [] () t ∧ e.Undisturbed t := by
  have hnone : (0xffffffff : UInt32) &&& 0b11 = 0b11 := by decide
  exact ⟨u.softReset, .silent (.store (by decide) _) run_store rfl,
    h.fresh.softReset, h.config, h.chips, h.unarmed, selected?_none hnone⟩

theorem Undisturbed.goes_initControl (h : e.Undisturbed u) :
    ∃ t, Bus.initControl.Goes u [] () t ∧ e.Undisturbed t ∧ t.control = idleControl := by
  obtain ⟨hfresh, hconfig, hchips, hunarmed, hdeselected⟩ := h
  refine ⟨{ u with control := idleControl }, .silent (.setControl (by decide)) ?_ rfl, ?_, rfl⟩
  · rw [Bus.initControl, run_setControl, hfresh.writeControl_initState]
  · exact ⟨⟨hfresh.tx, hfresh.rx, hfresh.errors, hfresh.rxStuck, hfresh.shows, hfresh.sizes⟩,
      hconfig, hchips, hunarmed, hdeselected⟩

theorem Undisturbed.rested (h : e.Undisturbed u) (hc : u.control = idleControl)
    (hdepth : 0 < u.config.fifoDepth) : u.Rested :=
  ⟨hc, hdepth, h.fresh.tx, h.fresh.rx, h.fresh.errors, h.fresh.rxStuck, h.unarmed, h.deselected⟩

/-- **Attaching ends as the verdict says.** -/
theorem Fresh.surveys_attach (h : e.Fresh) (harmed : e.armed = none)
    (hselected : e.selected? = none) (hcount : Opcode.headerLen + tuning.readDummyLen < wordLimit) :
    (Controller.attach tuning).Surveys e
      ((tuning.verdict e.config (e.chip firstChip).busy.toNat).map fun id =>
        .identified tuning
          { budget := tuning.pollBudget, fifoDepth := e.config.fifoDepth } id.1 id.2) := by
  rw [Controller.attach]
  -- both ways through the soft reset lead to a fresh emulator with the same chips
  refine Attempt.Surveys.join (M := e.Undisturbed) (fun _ => ⟨h, rfl, rfl, harmed, hselected⟩) ?_ ?_
  case refine_2 =>
    intro _ hrest
    have he : e.Undisturbed e := ⟨h, rfl, rfl, harmed, hselected⟩
    obtain ⟨u, hreset, hu⟩ := he.goes_softReset
    exact .step goes_log.lift rfl (.step hreset.lift hu.chips (hrest u hu))
  intro u hu
  obtain ⟨m, hinit, hm, hcontrol⟩ := hu.goes_initControl
  refine .step hinit.lift (hm.chips.trans hu.chips.symm) ?_
  rw [← hm.config, ← chip_of_chips hm.chips]
  obtain ⟨r, t, hmeasured, hsame, hr⟩ :=
    hm.fresh.goes_discoverFifoDepth hcontrol { budget := tuning.pollBudget } tuning.fifoFiller
  rcases r with error | b
  · have hverdict : tuning.verdict m.config (m.chip firstChip).busy.toNat = .error error := by
      rw [Tuning.verdict]
      rcases hr with ⟨hzero, rfl⟩ | ⟨hbig, rfl⟩
      · rw [if_pos hzero]
      · rw [if_neg (by omega), if_pos (.inl hbig)]
    rw [hverdict]
    exact .failed hmeasured hsame
  · obtain ⟨rfl, hb, hpos, hdepth⟩ := hr
    have hcounted : (Proc.count (Opcode.headerLen + tuning.readDummyLen)).Goes t []
        (Opcode.headerLen + tuning.readDummyLen) t :=
      .silent (.count _) (Proc.run_count hcount) rfl
    refine .step hmeasured rfl (.step hcounted.lift rfl ?_)
    have hbdepth : b.fifoDepth = t.config.fifoDepth := by rw [hb]
    by_cases hroom : b.fifoDepth ≤ Opcode.headerLen + tuning.readDummyLen
    · have hverdict : tuning.verdict t.config (t.chip firstChip).busy.toNat =
          .error .fifoProbeFailed := by
        rw [Tuning.verdict, if_neg (by omega), if_pos (.inr (by omega))]
      rw [if_pos hroom, hverdict]
      exact .step goes_log.lift rfl .throw
    · rw [if_neg hroom, ← bind_assoc, ← hb]
      refine ((hm.rested hcontrol hpos).surveys_identification hdepth (by omega) hb).map ?_
      intro id t
      exact .step_lift goes_log .pure

/-- No slave is selected before a driver attaches. -/
theorem Prepared.deselected (h : Prepared config e) : e.selected? = none := by
  induction h with
  | fresh =>
    have hnone : (0xffffffff : UInt32) &&& 0b11 = 0b11 := by decide
    exact selected?_none hnone
  | handled _ hh ih =>
    obtain ⟨i, chip, armed, -, -, -, rfl⟩ := hh.eq
    exact ih

end Emulator

/-! ## Attaching to a fresh flash -/

/-- A controller that has just attached to a flash of this vendor, and the
emulator it left: idle, with no select line asserted and empty FIFOs. -/
structure CleanStart (config : EmulatorConfig) (v : Vendor) (c : Controller) (t : Emulator) :
    Prop where
  vendor : c.vendor = v
  capacity : c.capacity = config.capacity
  depth : c.bus.fifoDepth = config.fifoDepth
  slave : c.bus.slave = 0
  sector : c.sector = sectorNone
  tx : t.tx.toList = []
  rx : t.rx.toList = []
  inhibited : hasAll t.control Control.transInhibit = true
  deselected : t.slaveSelect = slaveSelectNone

/-- **Attaching identifies every flash, or fails for the right reason.** On a fresh
emulator with nothing armed the attach ends as the verdict says. However it ends, the
contents of both chips are what they were, and every burst was a status read or an
ID read of the first chip. -/
theorem Emulator.Prepared.attach_verdict (h : Emulator.Prepared config e) (harmed : e.armed = none)
    (tuning : Tuning) (hcount : Opcode.headerLen + tuning.readDummyLen < wordLimit) :
    ∃ ds r t, (Controller.attach tuning).run.Goes e ds r t ∧ SameContents e t ∧
      (∀ d ∈ ds, d.Asks firstChip) ∧
      match tuning.verdict config (e.chip firstChip).busy.toNat with
      | .error error => r = .error error
      | .ok (v, _) => ∃ c, r = .ok c ∧ CleanStart config v c t := by
  obtain ⟨hfresh, rfl⟩ := h.fresh_and_config
  obtain ⟨ds, t, hgoes, hcontents, hasks, hrested⟩ :=
    hfresh.surveys_attach harmed h.deselected hcount
  refine ⟨ds, _, t, hgoes, hcontents, hasks, ?_⟩
  cases hverdict : tuning.verdict e.config (e.chip firstChip).busy.toNat with
  | error error => rfl
  | ok id =>
    rw [hverdict] at hrested
    obtain ⟨ht, hreleased⟩ := hrested _ rfl
    refine ⟨_, rfl, rfl, Tuning.capacity_of_verdict hverdict, rfl, rfl, rfl, ?_, ?_, ?_,
      hreleased⟩
    · rw [ht.tx]
      rfl
    · rw [ht.rx]
      rfl
    · rw [ht.control]
      decide

/-- A default driver finds the Micron chips of 16 MiB of a default emulator. -/
theorem attach_verdict_default :
    ∃ ds c t, (Controller.attach {}).run.Goes (.ofConfig {}) ds (.ok c) t ∧
      CleanStart {} .micron c t ∧ c.capacity = 0x1000000 := by
  have hverdict : Tuning.verdict {} {} ((Emulator.ofConfig {}).chip firstChip).busy.toNat =
      .ok (.micron, 0x1000000) := rfl
  have hprepared : Emulator.Prepared {} (.ofConfig {}) := .fresh
  obtain ⟨ds, r, t, hgoes, -, -, hend⟩ := hprepared.attach_verdict rfl {} (by decide)
  rw [hverdict] at hend
  obtain ⟨c, rfl, hstart⟩ := hend
  exact ⟨ds, c, t, hgoes, hstart, hstart.capacity⟩

end NorFlash
