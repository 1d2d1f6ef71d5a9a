import NorFlash.Proofs.Commands

/-!
# Attaching — from a fresh emulator to an attached controller

Attaching measures the FIFO depth and reads the ID. If it goes well the
controller is attached, and it goes well on every emulator with a known ID, a
FIFO of a usable depth and nothing planned.
-/

namespace NorFlash

open Emulator (Settled Answered Refused Fired Carried Passed Spares Unarmed strike idleControl)

variable {e t : Emulator} {b : Bus} {i : Fin maxSlaves}

namespace Emulator

/-- No transfer was made yet: the FIFOs are empty and no error is raised. -/
structure Fresh (e : Emulator) : Prop where
  tx : e.tx = .empty
  rx : e.rx = .empty
  errors : e.errors = 0
  rxStuck : e.rxStuck = false
  shows : ∀ plan, e.armed = some plan → plan.fault.Shows
  sizes : ∀ i : Fin maxSlaves, (e.chip i).contents.capacity = e.config.capacity

theorem Fresh.free (h : e.Fresh) : ¬ e.Blocked := by
  intro hpost
  rcases hpost with hs | herr
  · rw [h.rxStuck] at hs
    cases hs
  · rw [h.errors] at herr
    exact herr UInt32.zero_and

theorem Fresh.settled (h : e.Fresh) (hc : e.control = idleControl)
    (hdepth : 0 < e.config.fifoDepth) : e.Settled where
  control := hc
  depth_pos := hdepth
  quiet herr := absurd h.errors herr
  stuck hs := by
    rw [h.rxStuck] at hs
    cases hs
  shows := h.shows

/-! ## Initialisation -/

/-- The first control word inhibits transfers. -/
theorem Fresh.writeControl_initState (h : e.Fresh) :
    e.writeControl Control.initState = { e with control := idleControl } := by
  have hinhibit : hasAll Control.initState Control.transInhibit = true := by decide
  obtain ⟨htx, hrx, -, -, -⟩ := h
  obtain ⟨config, chips, control, slaveSelect, tx, rx, errors, rxStuck, armed, stats⟩ := e
  subst htx hrx
  simp [writeControl, resetFifos, startsBurst, hinhibit, idleControl]

theorem Fresh.softReset (h : e.Fresh) : e.softReset.Fresh :=
  ⟨rfl, rfl, rfl, rfl, h.shows, h.sizes⟩

/-! ## The FIFO depth -/

theorem txFull_status (herr : e.errors = 0) :
    hasAny e.status (Status.txFull ||| Status.errors) =
      decide (e.config.fifoDepth ≤ e.tx.size) := by
  rw [status, herr, UInt32.zero_or]
  by_cases hfull : e.config.fifoDepth ≤ e.tx.size <;>
    by_cases hrx : e.config.fifoDepth ≤ e.rx.size <;>
    cases e.rx.isEmpty <;> cases e.tx.isEmpty <;> simp only [hfull, hrx] <;> decide

/-- Fillers are pushed until the FIFO is full, or there are none left. -/
theorem ends_fill (herr : e.errors = 0) (filler : UInt8) (left pushed : Nat)
    (hlimit : pushed + left < wordLimit) (hsize : e.tx.size ≤ e.config.fifoDepth) :
    (Bus.fill filler left pushed).Ends block e fun r t =>
      (∃ q, t = { e with tx := q }) ∧
        r = if e.config.fifoDepth ≤ e.tx.size + left then
          some (pushed + (e.config.fifoDepth - e.tx.size)) else none := by
  -- the loop tests before it pushes, so its last test is the base case
  induction left generalizing e pushed with
  | zero =>
    apply Proc.Ends.step (watches_txFull e)
    dsimp only
    rw [txFull_status herr]
    refine Proc.Ends.pure ⟨⟨e.tx, rfl⟩, ?_⟩
    by_cases hfull : e.config.fifoDepth ≤ e.tx.size
    · rw [if_pos (decide_eq_true hfull), if_pos (by omega), Nat.sub_eq_zero_of_le hfull,
        Nat.add_zero]
    · rw [if_neg (by simpa using hfull), if_neg (by omega)]
  | succ left ih =>
    rw [Bus.fill_succ filler hlimit]
    apply Proc.Ends.step (watches_txFull e)
    dsimp only
    rw [txFull_status herr]
    by_cases hfull : e.config.fifoDepth ≤ e.tx.size
    · rw [if_pos (decide_eq_true hfull)]
      refine Proc.Ends.pure ⟨⟨e.tx, rfl⟩, ?_⟩
      rw [if_pos (by omega), Nat.sub_eq_zero_of_le hfull, Nat.add_zero]
    · rw [if_neg (by simpa using hfull)]
      have hsend : (Proc.sendByte filler).run block e =
          (some (), { e with tx := e.tx.push filler }) := by
        rw [Proc.sendByte, run_store, write, if_pos (by omega), UInt8.toUInt8_toUInt32]
      apply Proc.Ends.step hsend
      have hpushed : (e.tx.push filler).size = e.tx.size + 1 := rfl
      refine (ih (e := { e with tx := e.tx.push filler }) herr (pushed + 1) (by omega) ?_).mono ?_
      · dsimp only
        omega
      · intro r t hpost
        obtain ⟨⟨q, ht⟩, hr⟩ := hpost
        refine ⟨⟨q, ht⟩, hr.trans ?_⟩
        dsimp only
        rw [hpushed]
        split <;> split
        · congr 1
          omega
        · omega
        · omega
        · rfl

/-- A FIFO without room always reports full, and cannot be emptied. -/
theorem ends_resetFifos_of_no_room (hdepth : e.config.fifoDepth = 0) (herr : e.errors = 0)
    (hc : e.control = idleControl) (b : Bus) :
    Attempt.Ends block b.resetFifos e (fun _ _ => False)
      (fun error t => error = .timeout .fifoReset ∧ t.stats.bursts = e.stats.bursts) := by
  -- a FIFO of depth zero is full at every size, so it never shows as idle
  have hidle : ∀ u : Emulator, u.config.fifoDepth = 0 → u.errors = 0 →
      Status.isIdle u.status = false := by
    intro u hu herr
    have htx : u.config.fifoDepth ≤ u.tx.size := by omega
    have hrx : u.config.fifoDepth ≤ u.rx.size := by omega
    rw [status, herr, UInt32.zero_or]
    cases u.rx.isEmpty <;> cases u.tx.isEmpty <;> simp only [htx, hrx] <;> decide
  apply Attempt.Ends.step (watches_fifosIdle e)
  rw [hidle e hdepth herr]
  apply Attempt.Ends.step run_control
  apply Attempt.Ends.step run_setControl
  rw [hc, writeControl_resets hc]
  obtain ⟨time, hr⟩ := run_await_never watches_fifosIdle b (hidle e.emptied hdepth herr)
  apply Attempt.Ends.step hr
  apply Attempt.Ends.step run_status
  apply Attempt.Ends.step run_log
  exact Attempt.Ends.throw ⟨rfl, rfl⟩

/-- A FIFO with room, which is empty, is filled to its depth and no further than the
limit. -/
theorem Fresh.ends_measureDepth (h : e.Fresh) (hc : e.control = idleControl) (filler : UInt8) :
    Attempt.Ends block (Bus.measureDepth filler) e
      (fun depth t => (∃ q, t = { e with tx := q }) ∧ depth = e.config.fifoDepth ∧
        e.config.fifoDepth ≤ Bus.probeLimit)
      (fun error t => (Bus.probeLimit < e.config.fifoDepth ∧ error = .fifoProbeFailed) ∧
        t.stats.bursts = e.stats.bursts) := by
  apply Attempt.Ends.step run_control
  rw [hc, idleControl_or_inhibit]
  apply Attempt.Ends.step (run_setControl_idle hc)
  have hsize : e.tx.size = 0 := by rw [h.tx]; rfl
  refine Attempt.Ends.bind_lift
    (ends_fill h.errors filler Bus.probeLimit 0 (by decide) (by omega)) ?_
  intro _ _ hpost
  obtain ⟨⟨q, rfl⟩, rfl⟩ := hpost
  rw [hsize, Nat.zero_add, Nat.sub_zero, Nat.zero_add]
  by_cases hlimit : e.config.fifoDepth ≤ Bus.probeLimit
  case neg =>
    rw [if_neg hlimit]
    apply Attempt.Ends.step run_log
    refine Attempt.Ends.step (run_setControl_idle hc) ?_
    exact Attempt.Ends.throw ⟨⟨Nat.lt_of_not_le hlimit, rfl⟩, rfl⟩
  rw [if_pos hlimit]
  apply Attempt.Ends.step run_status
  have hclear : Status.hasError ({ e with tx := q } : Emulator).status = false :=
    hasError_status h.errors
  rw [hclear]
  refine Attempt.Ends.step (run_setControl_idle hc) ?_
  exact Attempt.Ends.pure ⟨⟨q, by rw [hc]⟩, rfl, hlimit⟩

/-- **The measured depth is the depth of the FIFOs**, and measuring leaves them
as they were. It fails if there is no room at all, or too much of it. -/
theorem Fresh.ends_discoverFifoDepth (h : e.Fresh) (hc : e.control = idleControl) (b : Bus)
    (filler : UInt8) :
    Attempt.Ends block (b.after (Bus.discoverFifoDepth filler)) e
      (fun b' t => e = t ∧ b' = { b with fifoDepth := e.config.fifoDepth } ∧
        0 < e.config.fifoDepth ∧ e.config.fifoDepth ≤ Bus.probeLimit)
      (fun error t => (e.config.fifoDepth = 0 ∧ error = .timeout .fifoReset ∨
          Bus.probeLimit < e.config.fifoDepth ∧ error = .fifoProbeFailed) ∧
        t.stats.bursts = e.stats.bursts) := by
  rw [Bus.after_discoverFifoDepth]
  by_cases hdepth : 0 < e.config.fifoDepth
  case neg =>
    have hzero : e.config.fifoDepth = 0 := by omega
    exact Attempt.Ends.bind (ends_resetFifos_of_no_room hzero h.errors hc b)
      (fun _ _ ht => ⟨.inl ⟨hzero, ht.1⟩, ht.2⟩) fun _ _ hf => hf.elim
  have hs := h.settled hc hdepth
  have hempty : e.emptied = e := emptied_eq (by rw [h.tx]; rfl) (by rw [h.rx]; rfl)
  refine Attempt.Ends.bind (hs.ends_resetFifos b) ?_ ?_
  · intro _ t hpost
    obtain ⟨hb, -⟩ := hpost
    exact absurd hb h.free
  intro _ _ hpost
  obtain ⟨-, rfl⟩ := hpost
  rw [hempty]
  refine Attempt.Ends.bind (h.ends_measureDepth hc filler)
    (fun _ _ hn => ⟨.inr hn.1, hn.2⟩) ?_
  intro _ _ hpost
  obtain ⟨⟨q, rfl⟩, rfl, hlimit⟩ := hpost
  -- the fillers are dropped again
  have hfilled : ({ e with tx := q } : Emulator).Settled := by
    refine ⟨hc, hdepth, fun herr => absurd h.errors herr, hs.stuck, h.shows⟩
  refine Attempt.Ends.bind (hfilled.ends_resetFifos b) ?_ ?_
  · intro _ t hpost
    obtain ⟨hb, -⟩ := hpost
    exact absurd hb h.free
  intro _ _ hpost
  obtain ⟨-, rfl⟩ := hpost
  have hdrained : ({ e with tx := q } : Emulator).emptied = e := hempty
  rw [if_neg (by omega), hdrained]
  apply Attempt.Ends.step run_log
  exact Attempt.Ends.pure ⟨rfl, rfl, hdepth, hlimit⟩

/-! ## The first commands -/

section Commands

variable (hb : b.fifoDepth = e.config.fifoDepth) (hi : b.slave.toNat = i.val)
  (hroom : Opcode.headerLen < b.fifoDepth)

include hb hi hroom

/-- Waiting leaves the emulator settled, whatever its chips are. -/
theorem Settled.ends_poll (h : e.Settled) (us : UInt32) (spent left : Nat) :
    (PollBudget.poll b.isReady (Proc.pause us) PollBudget.unlimited spent left).Ends block e
      fun _ t => t.Settled ∧ t.config = e.config := by
  -- a poll may be answered or refused, and the chips are not known yet
  have hcheck : ∀ {u : Emulator}, u.Settled → u.config = e.config →
      b.isReady.Ends block u fun _ t => t.Settled ∧ t.config = e.config := by
    intro u hu hconfig
    refine Proc.Ends.bind (hu.ends_exchange (hconfig ▸ hb) hi (by simp) ?_) ?_
    · exact Nat.le_trans (by decide) (Nat.le_of_lt hroom)
    intro r t ht
    rcases r with error | response
    · obtain ⟨bytes, hr⟩ := ht
      refine Proc.Ends.step run_log (Proc.Ends.pure ⟨hr.settled, hr.config.trans hconfig⟩)
    · exact Proc.Ends.pure ⟨ht.1.settled, ht.1.config.trans hconfig⟩
  suffices hpoll : ∀ {u : Emulator}, u.Settled → u.config = e.config →
      (PollBudget.poll b.isReady (Proc.pause us) PollBudget.unlimited spent left).Ends block u
        fun _ t => t.Settled ∧ t.config = e.config from hpoll h rfl
  induction left generalizing spent with
  | zero =>
    intro u hu hconfig
    refine Proc.Ends.bind (hcheck hu hconfig) ?_
    intro r t ht
    rcases r with _ | _
    · exact Proc.Ends.pure ht
    · exact Proc.Ends.pure ht
  | succ left ih =>
    intro u hu hconfig
    refine Proc.Ends.bind (hcheck hu hconfig) ?_
    rintro (_ | _) t ⟨ht, htconfig⟩
    · apply Proc.Ends.step run_pause
      exact ih (spent + 1) ⟨ht.control, ht.depth_pos, ht.quiet, ht.stuck, ht.shows⟩ htconfig
    · exact Proc.Ends.pure ⟨ht, htconfig⟩

theorem Settled.ends_waitUntilReady (h : e.Settled) :
    Attempt.Ends block b.waitUntilReady e (fun _ t => t.Settled ∧ t.config = e.config)
      (fun _ _ => True) := by
  rw [Bus.waitUntilReady, Bus.await_eq]
  refine Attempt.Ends.bind_lift (h.ends_poll hb hi hroom b.budget.intervalUs 0 _) ?_
  intro r t ht
  rcases r with _ | _
  · apply Attempt.Ends.step run_log
    exact Attempt.Ends.throw trivial
  · exact Attempt.Ends.pure ht

/-- An ID that is recognised is the one that the chips have. -/
theorem Settled.ends_identify (h : e.Settled) :
    Attempt.Ends block b.identify e
      (fun r t => e.config.vendor? = some r.1 ∧ r.1.capacity? e.config.capacityCode = some r.2 ∧
        ∃ response, Answered i [Opcode.readId, 0, 0, 0, 0] true e response t)
      (fun _ t => (e.chip i).busy = 0 →
        (∃ v n, e.config.vendor? = some v ∧ v.capacity? e.config.capacityCode = some n) →
        ∃ bytes, Refused i [Opcode.readId, 0, 0, 0, 0] true e bytes t) := by
  refine Attempt.Ends.bind (h.ends_exchange hb hi (by simp) ?_) (fun _ _ hr _ _ => hr) ?_
  · exact hroom
  intro response t hpost
  obtain ⟨hanswered, hresponse⟩ := hpost
  -- a busy chip answers no ID read, so there is nothing to learn from its bytes
  by_cases hidle : (e.chip i).busy = 0
  · rw [Chip.react_readId _ hidle] at hresponse
    subst hresponse
    have hvendor : e.config.vendor? = Vendor.ofId? e.config.vendorId := rfl
    have hid : [0, e.config.vendorId, e.config.deviceType, e.config.capacityCode, 0].getD 1 0 =
        e.config.vendorId := rfl
    have hcode : [0, e.config.vendorId, e.config.deviceType, e.config.capacityCode, 0].getD 3 0 =
        e.config.capacityCode := rfl
    rw [hid, hcode]
    dsimp only
    cases hv : Vendor.ofId? e.config.vendorId with
    | none =>
      apply Attempt.Ends.step run_log
      refine Attempt.Ends.throw ?_
      rintro - ⟨v, n, hknown, -⟩
      rw [hvendor, hv] at hknown
      cases hknown
    | some v =>
      dsimp only
      cases hn : v.capacity? e.config.capacityCode with
      | none =>
        apply Attempt.Ends.step run_log
        refine Attempt.Ends.throw ?_
        rintro - ⟨v', n, hknown, hcapacity⟩
        rw [hvendor, hv] at hknown
        cases hknown
        rw [hn] at hcapacity
        cases hcapacity
      | some n =>
        apply Attempt.Ends.step run_log
        exact Attempt.Ends.pure ⟨hvendor.trans hv, hn, _, hanswered⟩
  · have hbusy : 0 < (e.chip i).busy := UInt32.pos_iff_ne_zero.mpr hidle
    rw [Chip.react_of_busy hbusy (by decide)] at hresponse
    subst hresponse
    apply Attempt.Ends.step run_log
    exact Attempt.Ends.throw fun hzero => absurd hzero hidle

end Commands

end Emulator

/-! ## Attaching -/

theorem maxSlaves_pos : 0 < maxSlaves := by decide

/-- The slave that a driver addresses first. -/
def firstChip : Fin maxSlaves := ⟨0, maxSlaves_pos⟩

/-- The controller of a flash that was just identified. -/
def Controller.identified (tuning : Tuning) (bus : Bus) (vendor : Vendor) (capacity : Nat) :
    Controller where
  bus
  scratch := Bytes.filled bus.fifoDepth 0
  sector := sectorNone
  vendor
  capacity
  tuning

/-- A driver with this tuning can attach to the emulator. -/
structure Attachable (tuning : Tuning) (e : Emulator) : Prop where
  known : ∃ v n, e.config.vendor? = some v ∧ v.capacity? e.config.capacityCode = some n
  overhead_lt : Opcode.headerLen + tuning.readDummyLen < e.config.fifoDepth
  depth_le : e.config.fifoDepth ≤ Bus.probeLimit
  unarmed : e.armed = none
  patient : (e.chip firstChip).busy.toNat ≤ tuning.pollBudget.maxPolls

/-- What attaching to `e` leads to. -/
structure Engaged (tuning : Tuning) (e : Emulator) (c : Controller) (t : Emulator) : Prop where
  ready : Ready c t firstChip
  tuning : c.tuning = tuning
  config : t.config = e.config
  contents : SameContents e t
  clear : Unarmed e.armed → ¬ t.Blocked ∧ Unarmed t.armed

/-- The wait and the ID read of a controller that knows its FIFO depth. -/
theorem Emulator.Fresh.ends_identification (h : e.Fresh) (hc : e.control = idleControl)
    (tuning : Tuning) (hdepth : e.config.fifoDepth ≤ Bus.probeLimit)
    (hroom : Opcode.headerLen + tuning.readDummyLen < e.config.fifoDepth) {b : Bus}
    (hb : b = { budget := tuning.pollBudget, fifoDepth := e.config.fifoDepth }) :
    Attempt.Ends Emulator.block (b.waitUntilReady >>= fun _ => b.identify) e
      (fun r t => Engaged tuning e (.identified tuning b r.1 r.2) t)
      (fun _ _ => ¬ Attachable tuning e) := by
  subst hb
  have hs := h.settled hc (by omega)
  by_cases hknown : ∃ v n, e.config.vendor? = some v ∧ v.capacity? e.config.capacityCode = some n
  -- no controller is attached to chips that it does not know
  case neg =>
    refine Attempt.Ends.bind (hs.ends_waitUntilReady (i := firstChip) rfl rfl ?_) ?_ ?_
    · dsimp only
      omega
    · exact fun _ _ _ ha => hknown ha.known
    intro _ t hpost
    obtain ⟨ht, hconfig⟩ := hpost
    refine (ht.ends_identify (i := firstChip) (by rw [hconfig]) rfl ?_).mono ?_ ?_
    · dsimp only
      omega
    · intro r u hpost
      obtain ⟨v, n⟩ := r
      obtain ⟨hv, hn, -⟩ := hpost
      rw [hconfig] at hv hn
      exact absurd ⟨v, n, hv, hn⟩ hknown
    · exact fun _ _ _ ha => hknown ha.known
  obtain ⟨v, n, hv, hn⟩ := hknown
  have hattached : Attached (.identified tuning
      { budget := tuning.pollBudget, fifoDepth := e.config.fifoDepth } v n) e :=
    ⟨hs, rfl, hdepth, hroom, Bytes.length_filled _ _, rfl, firstChip.isLt, hv, hn, h.sizes,
      fun hne => absurd rfl hne⟩
  refine Attempt.Ends.bind (hattached.ends_waitUntilReady (i := firstChip) rfl) ?_ ?_
  · intro _ t hout ha
    rcases hout.stopped.cause ha.patient with hb | hn
    · exact h.free hb
    · exact hn (Unarmed.spares ha.unarmed)
  intro _ m hw
  have hran := hw.ran (i := firstChip) rfl
  have hconfig := hran.kept.config
  have hop : Opcode.readId ∈ Emulator.plainOpcodes := by decide
  refine (hran.kept.attached.settled.ends_identify (i := firstChip) (by rw [hconfig]) rfl
    ?_).mono ?_ ?_
  · dsimp only
    omega
  · intro r t hpost
    obtain ⟨v', n'⟩ := r
    obtain ⟨hv', hn', response, hanswered⟩ := hpost
    rw [hconfig, hv] at hv'
    cases hv'
    rw [hconfig, hn] at hn'
    cases hn'
    have hr := Chip.react_readId m.config hran.idle
    have hkept := hran.kept.attached.kept_of_carried (i := firstChip) rfl hanswered.toFired
      hanswered.toCarried hr rfl rfl nofun nofun
    have hpassed := hran.passed.trans (hanswered.toFired.passed hop)
    have hchips : t.chips = m.chips := by
      rw [hanswered.chips, hr]
      exact Vector.set_getElem_self firstChip.isLt
    refine ⟨⟨hkept.attached, rfl, ?_⟩, rfl, hkept.config.trans hconfig,
      hw.contents.trans (.of_chips hchips), ?_⟩
    · rw [Emulator.chip_of_chips hchips]
      exact hran.idle
    · intro hunarmed
      obtain ⟨hfree, harmed⟩ := hpassed.clear h.free hunarmed.spares
      exact ⟨hfree, harmed.trans hunarmed⟩
  · intro _ t hrefused ha
    obtain ⟨bytes, hr⟩ := hrefused hran.idle ⟨v, n, by rw [hconfig, hv], by rw [hconfig, hn]⟩
    obtain ⟨hfree, harmed⟩ := hran.passed.clear h.free (Unarmed.spares ha.unarmed)
    rcases hr.cause with hb | hstrike
    · exact hfree hb
    · rw [harmed, ha.unarmed] at hstrike
      exact hstrike rfl

/-- **Attaching** leads to an attached controller, or fails for a reason. -/
theorem Emulator.Fresh.ends_attach (h : e.Fresh) (tuning : Tuning)
    (hcount : Opcode.headerLen + tuning.readDummyLen < wordLimit) :
    Attempt.Ends Emulator.block (Controller.attach tuning) e (Engaged tuning e)
      (fun _ _ => ¬ Attachable tuning e) := by
  rw [Controller.attach]
  -- both ways through the soft reset lead to a fresh emulator
  refine Attempt.Ends.join (M := fun t => t.Fresh ∧ t.config = e.config ∧ t.chips = e.chips ∧
    t.armed = e.armed) (fun _ => ⟨h, rfl, rfl, rfl⟩) ?_ fun _ hrest => ?_
  case refine_2 =>
    apply Attempt.Ends.step run_log
    apply Attempt.Ends.step run_store
    exact hrest _ ⟨h.softReset, rfl, rfl, rfl⟩
  intro u hpost
  obtain ⟨hu, hconfig, hchips, harmed⟩ := hpost
  apply Attempt.Ends.step run_setControl
  rw [hu.writeControl_initState]
  have hm : ({ u with control := idleControl } : Emulator).Fresh :=
    ⟨hu.tx, hu.rx, hu.errors, hu.rxStuck, hu.shows, hu.sizes⟩
  have hcontrol : ({ u with control := idleControl } : Emulator).control = idleControl := rfl
  have hsame : ∀ m : Emulator, m = { u with control := idleControl } →
      m.config = e.config ∧ m.chips = e.chips ∧ m.armed = e.armed := by
    rintro _ rfl
    exact ⟨hconfig, hchips, harmed⟩
  generalize hu' : ({ u with control := idleControl } : Emulator) = m at *
  obtain ⟨hconfig, hchips, harmed⟩ := hsame m rfl
  have hattachable : Attachable tuning e → Attachable tuning m := by
    intro ha
    exact ⟨hconfig ▸ ha.known, hconfig ▸ ha.overhead_lt, hconfig ▸ ha.depth_le,
      harmed.trans ha.unarmed, (Emulator.chip_of_chips hchips _).symm ▸ ha.patient⟩
  refine Attempt.Ends.bind (hm.ends_discoverFifoDepth hcontrol _ _) ?_ ?_
  · intro _ t hn ha
    obtain ⟨hcause, -⟩ := hn
    have := (hattachable ha).overhead_lt
    have := (hattachable ha).depth_le
    omega
  intro bus _ hpost
  obtain ⟨rfl, hbus, hpos, hdepth⟩ := hpost
  have hdepth' : bus.fifoDepth = m.config.fifoDepth := by rw [hbus]
  apply Attempt.Ends.step (Proc.run_count hcount)
  by_cases hroom : bus.fifoDepth ≤ Opcode.headerLen + tuning.readDummyLen
  · rw [if_pos hroom]
    apply Attempt.Ends.step run_log
    refine Attempt.Ends.throw fun ha => ?_
    have := (hattachable ha).overhead_lt
    omega
  rw [if_neg hroom, ← bind_assoc]
  refine Attempt.Ends.bind (hm.ends_identification hcontrol tuning hdepth (by omega)
    hbus) (fun _ _ hn ha => hn (hattachable ha)) ?_
  intro r t hengaged
  obtain ⟨v, n⟩ := r
  refine Attempt.Ends.step run_log (Attempt.Ends.pure ?_)
  refine ⟨hengaged.ready, rfl, hengaged.config.trans hconfig, ?_, ?_⟩
  · exact fun j => (hengaged.contents j).trans (SameContents.of_chips hchips j)
  · exact fun hunarmed => hengaged.clear (harmed.trans hunarmed)

end NorFlash
