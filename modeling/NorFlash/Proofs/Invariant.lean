import NorFlash.Proofs.Location
import NorFlash.Proofs.Transaction

/-!
# Invariant — an attached controller and its emulator

`Attached` ties what a controller believes to what its emulator is; every
operation keeps it, whether it fails or not. `Kept` adds what no operation
changes. `Passed` and `Stopped` follow the plan for a fault along a run: an
operation that ends well has not met it, one that fails has a cause.
-/

namespace NorFlash

/-! ## The plan for a fault -/

namespace Emulator

variable {e m t : Emulator} {K L : Option ArmedFault → Prop} {P Q : Prop}

/-- Every opcode of the driver but the one that programs. -/
def plainOpcodes : List UInt8 :=
  [Opcode.readStatus, Opcode.writeEnable, Opcode.readId, Opcode.writeSector, Opcode.quadRead,
    Opcode.erase4K, Opcode.erase32K, Opcode.erase64K]

/-- The plan waits for a program command, if for anything. -/
def Spares (armed : Option ArmedFault) : Prop :=
  ∀ op ∈ plainOpcodes, strike armed op = (none, armed)

/-- Nothing is planned. -/
def Unarmed (armed : Option ArmedFault) : Prop := armed = none

theorem Unarmed.spares {armed : Option ArmedFault} (h : Unarmed armed) : Spares armed := by
  intro op _
  rw [show armed = none from h]
  rfl

/-- A plan that struck is spent. -/
theorem strike_spent {armed : Option ArmedFault} {op : UInt8} (h : (strike armed op).1 ≠ none) :
    (strike armed op).2 = none := by
  rw [strike.eq_def] at *
  split at h
  · exact absurd rfl h
  · split at h
    · split at h
      · rename_i hop _ hskip
        simp only [hop, if_true]
      · exact absurd rfl h
    · exact absurd rfl h

/-- There is nothing to plan any more once the FIFOs are stuck. -/
def Lone (e : Emulator) : Prop := e.Blocked → e.armed = none

/-- A run that may go on: the plan, if it lets the run through, is as it was. -/
structure Passed (K : Option ArmedFault → Prop) (e t : Emulator) : Prop where
  lone : e.Lone → t.Lone
  clear : ¬ e.Blocked → K e.armed → ¬ t.Blocked ∧ t.armed = e.armed

/-- A run that failed. Under `P` the plan is the cause, or a blocked emulator,
and a plan that struck is spent. -/
structure Stopped (K : Option ArmedFault → Prop) (P : Prop) (e t : Emulator) : Prop where
  cause : P → e.Blocked ∨ ¬ K e.armed
  spent : P → e.Lone → t.armed = none

theorem Passed.refl (K : Option ArmedFault → Prop) (e : Emulator) : Passed K e e :=
  ⟨id, fun hfree _ => ⟨hfree, rfl⟩⟩

theorem Passed.trans (h : Passed K e m) (hm : Passed K m t) : Passed K e t := by
  refine ⟨fun hl => hm.lone (h.lone hl), fun hfree hk => ?_⟩
  obtain ⟨hmfree, hmarmed⟩ := h.clear hfree hk
  obtain ⟨htfree, htarmed⟩ := hm.clear hmfree (hmarmed ▸ hk)
  exact ⟨htfree, htarmed.trans hmarmed⟩

theorem Passed.mono (h : Passed K e t) (hk : ∀ a, L a → K a) : Passed L e t :=
  ⟨h.lone, fun hfree hl => h.clear hfree (hk _ hl)⟩

theorem Passed.stopped (h : Passed K e m) (hm : Stopped K P m t) : Stopped K P e t := by
  refine ⟨fun hp => ?_, fun hp hl => hm.spent hp (h.lone hl)⟩
  by_cases hb : e.Blocked
  · exact .inl hb
  · refine .inr fun hk => ?_
    obtain ⟨hmfree, hmarmed⟩ := h.clear hb hk
    rcases hm.cause hp with hmb | hmk
    · exact hmfree hmb
    · exact hmk (hmarmed ▸ hk)

theorem Stopped.mono (h : Stopped K P e t) (hk : ∀ a, L a → K a) (hp : Q → P) :
    Stopped L Q e t :=
  ⟨fun hq => (h.cause (hp hq)).imp_right fun hn hl => hn (hk _ hl), fun hq => h.spent (hp hq)⟩

/-- A failure for a reason that `P` excludes. -/
theorem Stopped.of_not (hp : ¬ P) : Stopped K P e t :=
  ⟨fun h => absurd h hp, fun h => absurd h hp⟩

theorem Fired.lone {op : UInt8} (h : Fired op e t) : e.Lone → t.Lone := by
  intro hl htb
  by_cases hb : e.Blocked
  · rw [(h.stays hb).2]
    exact hl hb
  · obtain ⟨harmed, hfree⟩ := h.fires hb
    rw [harmed]
    exact strike_spent fun hnone => hfree hnone htb

/-- A transaction that a plan spares leaves the plan as it was. -/
theorem Fired.passed {op : UInt8} (h : Fired op e t) (hop : op ∈ plainOpcodes) :
    Passed Spares e t := by
  refine ⟨h.lone, fun hb hk => ?_⟩
  obtain ⟨harmed, hfree⟩ := h.fires hb
  rw [hk op hop] at harmed hfree
  exact ⟨hfree rfl, harmed⟩

theorem Fired.unarmed {op : UInt8} (h : Fired op e t) (harmed : e.armed = none) :
    t.armed = none := by
  by_cases hb : e.Blocked
  · rw [(h.stays hb).2, harmed]
  · rw [(h.fires hb).1, harmed]
    rfl

theorem Refused.spent {i : Fin maxSlaves} {command bytes : Bytes} {wanted : Bool}
    (h : Refused i command wanted e bytes t) (hl : e.Lone) : t.armed = none := by
  by_cases hb : e.Blocked
  · rw [(h.stays hb).2]
    exact hl hb
  · rw [(h.fires hb).1]
    exact strike_spent (h.cause.resolve_left hb)

/-- What is left of a plan that spares the plain commands spares them, too. -/
theorem Spares.rest {armed : Option ArmedFault} (h : Spares armed) (op : UInt8) :
    Spares (strike armed op).2 := by
  cases armed with
  | none => exact h
  | some plan =>
    have hother : ∀ x ∈ plainOpcodes, plan.opcode.all (· == x) = false := by
      intro x hx
      have hs := h x hx
      rw [strike] at hs
      cases hall : plan.opcode.all (· == x) with
      | false => rfl
      | true =>
        rw [hall] at hs
        obtain ⟨fault, opcode, skip⟩ := plan
        cases skip <;> simp at hs
    rw [strike]
    split
    · split
      · exact Unarmed.spares rfl
      · intro x hx
        rw [strike]
        simp only [hother x hx]
        rfl
    · exact h

theorem Spares.strike_eq {armed : Option ArmedFault} {op : UInt8} (hop : op ∈ plainOpcodes)
    (h : Spares armed) : (strike armed op).1 = none := by
  rw [h op hop]

/-- A transaction failed: no plan that lets its command through is to blame. -/
theorem Refused.stopped {i : Fin maxSlaves} {command bytes : Bytes} {wanted : Bool}
    (h : Refused i command wanted e bytes t)
    (hk : ∀ a, K a → (strike a (command.headD 0)).1 = none) : Stopped K True e t :=
  ⟨fun _ => h.cause.imp_right fun hne hka => hne (hk _ hka), fun _ => h.spent⟩

theorem Refused.stopped_of_plain {i : Fin maxSlaves} {command bytes : Bytes} {wanted : Bool}
    (h : Refused i command wanted e bytes t) (hop : command.headD 0 ∈ plainOpcodes) :
    Stopped Spares True e t :=
  h.stopped fun _ => Spares.strike_eq hop

end Emulator

/-! ## Attached controllers -/

open Emulator (SameRecord Carried Untouched)

variable {c c' c'' : Controller} {e e' e'' : Emulator} {i : Fin maxSlaves}

/-- What a controller believes is true of its emulator. The cached sector, if
there is one, is the one that the active slave has selected. -/
structure Attached (c : Controller) (e : Emulator) : Prop where
  settled : e.Settled
  depth : c.bus.fifoDepth = e.config.fifoDepth
  depth_le : e.config.fifoDepth ≤ Bus.probeLimit
  overhead_lt : Opcode.headerLen + c.tuning.readDummyLen < e.config.fifoDepth
  scratch : c.scratch.length = e.config.fifoDepth
  budget : c.bus.budget = c.tuning.pollBudget
  slave_lt : c.bus.slave.toNat < maxSlaves
  vendor : e.config.vendor? = some c.vendor
  capacity : c.vendor.capacity? e.config.capacityCode = some c.capacity
  sizes : ∀ i : Fin maxSlaves, (e.chip i).contents.capacity = e.config.capacity
  cache : c.sector ≠ sectorNone →
    ∀ i : Fin maxSlaves, c.bus.slave.toNat = i.val → (e.chip i).sector = c.sector

/-- What no operation changes, and what every operation keeps to. A chip that
gets ready in time stays such a chip. -/
structure Kept (c : Controller) (e : Emulator) (c' : Controller) (e' : Emulator) : Prop where
  attached : Attached c' e'
  tuning : c'.tuning = c.tuning
  config : e'.config = e.config
  unarmed : e.armed = none → e'.armed = none
  stays : e.Blocked → e'.Blocked
  harmless : e.Harmless → e'.Harmless
  timely : ∀ (i : Fin maxSlaves) polls, e.config.busyPolls.toNat ≤ polls →
    (e.chip i).busy.toNat ≤ polls → (e'.chip i).busy.toNat ≤ polls
  commandsWhileBusy : e'.stats.commandsWhileBusy = e.stats.commandsWhileBusy
  rejectedCommands : e'.stats.rejectedCommands = e.stats.rejectedCommands

/-- Commands go to chip `i`, which is not busy. -/
structure Ready (c : Controller) (e : Emulator) (i : Fin maxSlaves) : Prop where
  attached : Attached c e
  slave : c.bus.slave.toNat = i.val
  idle : (e.chip i).busy = 0

theorem Attached.kept (h : Attached c e) : Kept c e c e :=
  ⟨h, rfl, rfl, id, id, id, fun _ _ _ => id, rfl, rfl⟩

theorem Kept.trans (h : Kept c e c' e') (h' : Kept c' e' c'' e'') : Kept c e c'' e'' where
  attached := h'.attached
  tuning := h'.tuning.trans h.tuning
  config := h'.config.trans h.config
  unarmed ha := h'.unarmed (h.unarmed ha)
  stays hb := h'.stays (h.stays hb)
  harmless hh := h'.harmless (h.harmless hh)
  timely i polls hconfig hbusy :=
    h'.timely i polls (h.config ▸ hconfig) (h.timely i polls hconfig hbusy)
  commandsWhileBusy := h'.commandsWhileBusy.trans h.commandsWhileBusy
  rejectedCommands := h'.rejectedCommands.trans h.rejectedCommands

/-- The ID still names the same vendor. -/
theorem Kept.vendor_eq (h : Kept c e c' e') (ha : Attached c e) : c'.vendor = c.vendor := by
  have h1 := h.attached.vendor
  rw [h.config, ha.vendor] at h1
  exact (Option.some.inj h1).symm

namespace Attached

theorem capacity_eq (h : Attached c e) : c.capacity = e.config.capacity := by
  rw [EmulatorConfig.capacity, h.vendor, Option.bind_some, h.capacity]
  rfl

/-- The chips hold whole sectors, at most sixteen of them. -/
theorem capacity_bounds (h : Attached c e) :
    e.config.capacity % sectorSize = 0 ∧ 0 < e.config.capacity ∧
      e.config.capacity ≤ 16 * sectorSize :=
  h.capacity_eq ▸ Vendor.capacity_bounds h.capacity

theorem maxPolls_eq (h : Attached c e) : c.bus.budget.maxPolls = c.tuning.pollBudget.maxPolls := by
  rw [h.budget]

/-- The active chip changes and keeps its size, and the cached sector is the
one it has selected then. -/
theorem update (h : Attached c e) (hi : c.bus.slave.toNat = i.val) {t : Emulator} {chip : Chip}
    {sector : UInt8} (hs : t.Settled) (hconfig : t.config = e.config)
    (hchips : t.chips = e.chipsWith i chip)
    (hcapacity : chip.contents.capacity = (e.chip i).contents.capacity)
    (hsector : sector ≠ sectorNone → chip.sector = sector) : Attached { c with sector } t := by
  refine ⟨hs, ?_, ?_, ?_, ?_, h.budget, h.slave_lt, ?_, ?_, ?_, ?_⟩
  · rw [hconfig]; exact h.depth
  · rw [hconfig]; exact h.depth_le
  · rw [hconfig]; exact h.overhead_lt
  · rw [hconfig]; exact h.scratch
  · rw [hconfig]; exact h.vendor
  · rw [hconfig]; exact h.capacity
  · intro j
    rw [Emulator.chip_of_chipsWith hchips, hconfig]
    split
    · rw [hcapacity, h.sizes]
    · exact h.sizes j
  · intro hne j hj
    have hij : i = j := Fin.ext (hi.symm.trans hj)
    rw [Emulator.chip_of_chipsWith hchips, if_pos hij]
    exact hsector hne

end Attached

end NorFlash
