import NorFlash.Proofs.Recovery

/-!
# Dialogue — exact runs on an emulator at rest

An emulator at rest answers each transaction and is at rest again, so what a
driver learns from it by status reads and ID reads depends on its chips only.
-/

namespace NorFlash

open Emulator (idleControl)

variable {e m t : Emulator} {b : Bus} {i : Fin maxSlaves} {command : Bytes}

/-- A status read or an ID read of chip `i`. -/
structure Delivery.Asks (d : Delivery) (i : Fin maxSlaves) : Prop where
  slave : d.slave = i
  command : d.command = [Opcode.readStatus, 0] ∨ d.command = [Opcode.readId, 0, 0, 0, 0]

/-! ## The ID -/

namespace EmulatorConfig

variable {config : EmulatorConfig}

/-- What a driver makes of the ID of the chips: vendor and capacity, or what it
does not know. -/
def identity (config : EmulatorConfig) : Except Error (Vendor × Nat) :=
  match config.vendor? with
  | none => .error (.unknownVendor config.vendorId)
  | some vendor =>
    match vendor.capacity? config.capacityCode with
    | none => .error (.unknownCapacity config.capacityCode)
    | some capacity => .ok (vendor, capacity)

/-- A capacity that the driver makes out is the one of the chips. -/
theorem capacity_of_identity {v : Vendor} {n : Nat} (h : config.identity = .ok (v, n)) :
    n = config.capacity := by
  rw [identity] at h
  split at h
  · cases h
  · rename_i v' hv
    split at h
    · cases h
    · rename_i n' hn
      cases h
      rw [capacity, hv, Option.bind_some, hn, Option.getD_some]

end EmulatorConfig

namespace Emulator

/-! ## Emulators at rest -/

theorem selected?_none (h : e.slaveSelect &&& 0b11 = 0b11) : e.selected? = none := by
  rw [selected?, h]
  decide

/-- An emulator between two transactions, with nothing left over from the first
and nothing planned for the second. -/
structure Rested (e : Emulator) : Prop where
  control : e.control = idleControl
  depth_pos : 0 < e.config.fifoDepth
  tx : e.tx = .empty
  rx : e.rx = .empty
  errors : e.errors = 0
  loose : e.rxStuck = false
  unarmed : e.armed = none
  deselected : e.selected? = none

theorem Rested.recoverable (h : e.Rested) : e.Recoverable where
  depth_pos := h.depth_pos
  running := by rw [h.control]; decide
  released := by rw [h.control, Control.Released]; decide
  loose := h.loose
  visible := by rw [h.errors]; exact UInt32.zero_and
  unarmed := h.unarmed

/-- An emulator at rest is at rest after each transaction. -/
theorem Rested.answered (h : e.Rested) (i : Fin maxSlaves) (command : Bytes) :
    (e.answered i command).Rested where
  control := by
    show e.control ||| Control.transInhibit = idleControl
    rw [h.control, idleControl_or_inhibit]
  depth_pos := h.depth_pos
  tx := rfl
  rx := rfl
  errors := rfl
  loose := (h.recoverable.answered i command).loose
  unarmed := rfl
  deselected := selected?_none (by show slaveSelectNone &&& 0b11 = 0b11; decide)

/-- Chip `i` answered the command, and the emulator is at rest again with every
select line released. -/
structure Told (i : Fin maxSlaves) (command : Bytes) (e t : Emulator) : Prop where
  rested : t.Rested
  released : t.slaveSelect = slaveSelectNone
  config : t.config = e.config
  chips : t.chips = e.chipsWith i ((e.chip i).react e.config command).chip

section Transactions

variable (h : e.Rested) (hb : b.fifoDepth = e.config.fifoDepth) (hi : b.slave.toNat = i.val)
  (hne : command ≠ []) (hfit : command.length ≤ b.fifoDepth)

include h hb hi hne hfit

/-- **A transaction at rest is one burst**, which the chip answers. -/
theorem Rested.goes_transaction :
    ∃ t, (b.transaction command true).Goes e [⟨i, e.chip i, command⟩]
      ⟨((e.chip i).react e.config command).response, .ok ()⟩ t ∧ Told i command e t :=
  ⟨e.answered i command, h.recoverable.goes_transaction hb hne hfit hi true,
    h.answered i command, rfl, rfl, rfl⟩

/-- The response to a command, which is as long as the command. -/
theorem Rested.goes_exchange :
    ∃ t, (b.exchange command).run.Goes e [⟨i, e.chip i, command⟩]
      (.ok ((e.chip i).react e.config command).response) t ∧ Told i command e t := by
  obtain ⟨t, hgoes, htold⟩ := h.goes_transaction hb hi hne hfit
  have hinto : Arrival.into ⟨((e.chip i).react e.config command).response, .ok ()⟩ command =
      ((e.chip i).react e.config command).response := by
    simp [Arrival.into, Chip.length_react_response]
  refine ⟨t, .last_ok hgoes.lift ?_, htold⟩
  dsimp only
  rw [hinto]
  exact .pure

end Transactions

/-! ## Questions -/

/-- Chip `i` was asked `ds`, and all that changed of the chips is for how long
they stay busy. -/
structure Asked (i : Fin maxSlaves) (e : Emulator) (ds : List Delivery) (t : Emulator) : Prop where
  rested : t.Rested
  config : t.config = e.config
  contents : SameContents e t
  questions : ∀ d ∈ ds, d.Asks i

theorem Asked.trans {ds ds' : List Delivery} (h : Asked i e ds m) (hm : Asked i m ds' t) :
    Asked i e (ds ++ ds') t where
  rested := hm.rested
  config := hm.config.trans h.config
  contents := h.contents.trans hm.contents
  questions := by
    intro d hd
    rcases List.mem_append.mp hd with hd | hd
    · exact h.questions d hd
    · exact hm.questions d hd

/-- A question that leaves the contents of the chip alone. -/
theorem Told.asked {chip : Chip} (h : Told i command e t)
    (hcommand : command = [Opcode.readStatus, 0] ∨ command = [Opcode.readId, 0, 0, 0, 0])
    (hsame : ((e.chip i).react e.config command).chip.contents = (e.chip i).contents) :
    Asked i e [⟨i, chip, command⟩] t where
  rested := h.rested
  config := h.config
  contents := .of_set h.chips hsame
  questions := by
    intro d hd
    rw [List.mem_singleton] at hd
    subst hd
    exact ⟨rfl, hcommand⟩

theorem Rested.goes_pause (h : e.Rested) (us : UInt32) :
    ∃ t, (Proc.pause us).Goes e [] () t ∧ Asked i e [] t ∧ t.chip i = e.chip i :=
  ⟨_, .silent (.pause us) run_pause rfl,
    ⟨⟨h.control, h.depth_pos, h.tx, h.rx, h.errors, h.loose, h.unarmed, h.deselected⟩, rfl,
      .refl e, nofun⟩, rfl⟩

section Questions

variable (h : e.Rested) (hb : b.fifoDepth = e.config.fifoDepth) (hi : b.slave.toNat = i.val)
  (hroom : Opcode.headerLen < b.fifoDepth)

include h hb hi hroom

/-- A status read tells whether the chip is ready, and brings it one step nearer. -/
theorem Rested.goes_isReady {n : Nat} (hbusy : (e.chip i).busy.toNat = n) :
    ∃ ds t, b.isReady.Goes e ds (decide (n = 0)) t ∧ Asked i e ds t ∧
      (t.chip i).busy.toNat = n - 1 := by
  have hne : [Opcode.readStatus, 0] ≠ [] := by simp
  obtain ⟨t, hgoes, htold⟩ := h.goes_exchange hb hi hne
    (Nat.le_trans (by decide) (Nat.le_of_lt hroom))
  obtain ⟨hchip, hready, -⟩ := Chip.react_readStatus e.config (e.chip i)
  refine ⟨_, t, .last hgoes ?_, htold.asked (.inl rfl) (by rw [hchip]), ?_⟩
  · have hanswer : (((e.chip i).react e.config [Opcode.readStatus, 0]).response.getD 1 0 &&&
        Opcode.busyBit == 0) = decide (n = 0) := by
      rw [Bool.eq_iff_iff, beq_iff_eq, hready, decide_eq_true_iff, ← hbusy, ← UInt32.toNat_inj]
      rfl
    dsimp only
    rw [hanswer]
    exact .pure
  · rw [chip_of_chipsWith htold.chips, if_pos rfl, Chip.toNat_busy_readStatus, hbusy]

/-- Polling ends when the chip is ready, after as many pauses as it was busy for,
or when the budget is used up. -/
theorem Rested.goes_poll {n : Nat} (hbusy : (e.chip i).busy.toNat = n) (us : UInt32)
    (spent left : Nat) :
    ∃ ds t, (PollBudget.poll b.isReady (Proc.pause us) PollBudget.unlimited spent left).Goes e ds
        (if n ≤ left then some (spent + n) else none) t ∧
      Asked i e ds t ∧ (n ≤ left → (t.chip i).busy = 0) := by
  -- each round but the last is a check and a pause
  induction left generalizing e n spent with
  | zero =>
    obtain ⟨ds, t, hgoes, hasked, hrest⟩ := h.goes_isReady hb hi hroom hbusy
    refine ⟨ds, t, .last hgoes ?_, hasked, fun hn => UInt32.toNat_inj.mp (show _ = 0 by omega)⟩
    by_cases hready : n = 0
    · subst hready
      exact .pure
    · rw [decide_eq_false hready, if_neg (show ¬ n ≤ 0 by omega)]
      exact .pure
  | succ left ih =>
    obtain ⟨ds, m, hgoes, hasked, hrest⟩ := h.goes_isReady hb hi hroom hbusy
    by_cases hready : n = 0
    · subst hready
      exact ⟨ds, m, .last hgoes .pure, hasked, fun _ => UInt32.toNat_inj.mp hrest⟩
    · obtain ⟨m', hpause, hpaused, hchip⟩ := hasked.rested.goes_pause (i := i) us
      obtain ⟨ds', t, hrun, hpolled, hdone⟩ := ih hpaused.rested
        (by rw [hpaused.config, hasked.config, hb]) (hchip ▸ hrest) (spent + 1)
      rw [decide_eq_false hready] at hgoes
      refine ⟨ds ++ ds', t, ?_, hasked.trans (hpaused.trans hpolled), fun hn => hdone (by omega)⟩
      have hcount : (if n - 1 ≤ left then some (spent + 1 + (n - 1)) else none) =
          if n ≤ left + 1 then some (spent + n) else none := by
        by_cases hn : n ≤ left + 1
        · rw [if_pos (by omega), if_pos hn, show spent + 1 + (n - 1) = spent + n by omega]
        · rw [if_neg (by omega), if_neg hn]
      exact .bind hgoes (.step hpause (hcount ▸ hrun))

theorem Rested.goes_waitUntilReady {n : Nat} (hbusy : (e.chip i).busy.toNat = n) :
    ∃ ds t, b.waitUntilReady.run.Goes e ds
        (if n ≤ b.budget.maxPolls then .ok () else .error (.timeout .deviceReady)) t ∧
      Asked i e ds t ∧ (n ≤ b.budget.maxPolls → (t.chip i).busy = 0) := by
  obtain ⟨ds, t, hgoes, hasked, hdone⟩ :=
    h.goes_poll hb hi hroom hbusy b.budget.intervalUs 0 b.budget.maxPolls
  rw [Bus.waitUntilReady, Bus.await_eq]
  refine ⟨ds, t, .last_ok hgoes.lift ?_, hasked, hdone⟩
  by_cases hn : n ≤ b.budget.maxPolls
  · rw [if_pos hn, if_pos hn]
    exact .pure
  · rw [if_neg hn, if_neg hn]
    exact .step_lift goes_log .pure

/-- **A chip that is ready is recognised by its ID**, or the driver says why not. -/
theorem Rested.goes_identify (hidle : (e.chip i).busy = 0) :
    ∃ ds t, b.identify.run.Goes e ds e.config.identity t ∧ Asked i e ds t ∧
      t.slaveSelect = slaveSelectNone := by
  have hne : [Opcode.readId, 0, 0, 0, 0] ≠ [] := by simp
  obtain ⟨t, hgoes, htold⟩ := h.goes_exchange hb hi hne hroom
  have hreact := Chip.react_readId e.config hidle
  rw [hreact] at hgoes
  refine ⟨_, t, .last_ok hgoes ?_, htold.asked (.inr rfl) (by rw [hreact]), htold.released⟩
  have hid : [0, e.config.vendorId, e.config.deviceType, e.config.capacityCode, 0].getD 1 0 =
      e.config.vendorId := rfl
  have hcode : [0, e.config.vendorId, e.config.deviceType, e.config.capacityCode, 0].getD 3 0 =
      e.config.capacityCode := rfl
  rw [hid, hcode, EmulatorConfig.identity, EmulatorConfig.vendor?]
  dsimp only
  cases Vendor.ofId? e.config.vendorId with
  | none => exact .step_lift goes_log .pure
  | some v =>
    dsimp only
    cases v.capacity? e.config.capacityCode with
    | none => exact .step_lift goes_log .pure
    | some n => exact .step_lift goes_log .pure

/-- Waiting for a chip and reading its ID. If the ID was read, every select line is
released. -/
theorem Rested.goes_waitAndIdentify :
    ∃ ds t, (b.waitUntilReady >>= fun _ => b.identify).run.Goes e ds
        (if b.budget.maxPolls < (e.chip i).busy.toNat then .error (.timeout .deviceReady)
          else e.config.identity) t ∧
      Asked i e ds t ∧
      (¬ b.budget.maxPolls < (e.chip i).busy.toNat → t.slaveSelect = slaveSelectNone) := by
  obtain ⟨ds, m, hwait, hasked, hidle⟩ := h.goes_waitUntilReady hb hi hroom rfl
  by_cases hpatient : (e.chip i).busy.toNat ≤ b.budget.maxPolls
  · rw [if_pos hpatient] at hwait
    rw [if_neg (Nat.not_lt.mpr hpatient), ← hasked.config]
    obtain ⟨ds', t, hidentify, hid, hreleased⟩ :=
      hasked.rested.goes_identify (by rw [hasked.config, hb]) hi hroom (hidle hpatient)
    exact ⟨_, t, .bind_ok hwait hidentify, hasked.trans hid, fun _ => hreleased⟩
  · rw [if_neg hpatient] at hwait
    have hlate := Nat.lt_of_not_le hpatient
    rw [if_pos hlate]
    exact ⟨ds, m, .bind_error hwait, hasked, fun h => absurd hlate h⟩

end Questions

end Emulator

end NorFlash
