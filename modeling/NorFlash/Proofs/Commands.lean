import NorFlash.Proofs.Landing

/-!
# Commands — waiting for a chip, its write enable latch and its sector

The commands ahead of a read, a program or an erase. A chip takes all of them
but the status read only while it is not busy, which is what waiting for it
establishes.
-/

namespace NorFlash

open Emulator (Answered Refused Fired Carried Untouched Passed Stopped Spares SameRecord)

variable {c : Controller} {e t : Emulator} {i : Fin maxSlaves}

/-- No byte of a chip changed. -/
def SameContents (e t : Emulator) : Prop :=
  ∀ j : Fin maxSlaves, (t.chip j).contents = (e.chip j).contents

theorem SameContents.refl (e : Emulator) : SameContents e e := fun _ => rfl

theorem SameContents.trans {m : Emulator} (h : SameContents e m) (hm : SameContents m t) :
    SameContents e t :=
  fun j => (hm j).trans (h j)

theorem SameContents.of_chips (h : t.chips = e.chips) : SameContents e t :=
  fun j => by rw [Emulator.chip_of_chips h]

theorem SameContents.of_set {chip : Chip} (h : t.chips = e.chipsWith i chip)
    (hc : chip.contents = (e.chip i).contents) : SameContents e t := by
  intro j
  rw [Emulator.chip_of_chipsWith h]
  split
  · rename_i hij
    rw [hc, hij]
  · rfl

/-- No chip but `i` changed, and that one is left with these contents, busy this long. -/
def Leaves (i : Fin maxSlaves) (contents : PageStore) (busy : UInt32) (e t : Emulator) : Prop :=
  ∃ writeEnabled sector, t.chips = e.chipsWith i { contents, busy, writeEnabled, sector }

namespace Leaves

variable {m : Emulator} {contents contents' : PageStore} {busy busy' : UInt32}

theorem of_set {chip : Chip} (h : t.chips = e.chipsWith i chip) (hc : chip.contents = contents)
    (hb : chip.busy = busy) : Leaves i contents busy e t := by
  subst hc hb
  exact ⟨chip.writeEnabled, chip.sector, h⟩

theorem of_chips (h : t.chips = e.chips) : Leaves i (e.chip i).contents (e.chip i).busy e t :=
  of_set (h.trans Emulator.chipsWith_chip.symm) rfl rfl

/-- What chip `i` becomes next is all that it is left with. -/
theorem trans (h : Leaves i contents busy e m) (h' : Leaves i contents' busy' m t) :
    Leaves i contents' busy' e t := by
  obtain ⟨_, _, hm⟩ := h
  obtain ⟨_, _, ht⟩ := h'
  rw [Emulator.chipsWith_of_chipsWith hm] at ht
  exact of_set ht rfl rfl

theorem chip_eq (h : Leaves i contents busy e t) :
    (t.chip i).contents = contents ∧ (t.chip i).busy = busy := by
  obtain ⟨_, _, ht⟩ := h
  rw [Emulator.chip_of_chipsWith ht, if_pos rfl]
  exact ⟨rfl, rfl⟩

theorem chip_of_ne (h : Leaves i contents busy e t) {j : Fin maxSlaves} (hij : i ≠ j) :
    t.chip j = e.chip j := by
  obtain ⟨_, _, ht⟩ := h
  rw [Emulator.chip_of_chipsWith ht, if_neg hij]

theorem trans_set {chip : Chip} (h : Leaves i contents busy e m)
    (ht : t.chips = m.chipsWith i chip) (hc : chip.contents = (m.chip i).contents)
    (hb : chip.busy = busy') : Leaves i contents busy' e t :=
  h.trans (of_set ht (hc.trans h.chip_eq.1) hb)

theorem trans_same (h : Leaves i contents busy e m)
    (h' : Leaves i (m.chip i).contents busy' m t) : Leaves i contents busy' e t := by
  rw [h.chip_eq.1] at h'
  exact h.trans h'

theorem trans_chips (h : Leaves i contents busy e m) (ht : t.chips = m.chips) :
    Leaves i contents busy e t := by
  obtain ⟨latch, sector, hm⟩ := h
  exact ⟨latch, sector, ht.trans hm⟩

theorem sameContents (h : Leaves i (e.chip i).contents busy e t) : SameContents e t := by
  obtain ⟨_, _, ht⟩ := h
  exact .of_set ht rfl

end Leaves

namespace Attached

/-! ## After one transaction -/

/-- Short commands fit the FIFO. -/
theorem fits (h : Attached c e) {command : Bytes}
    (hlen : command.length ≤ Opcode.headerLen + 1) : command.length ≤ c.bus.fifoDepth := by
  have := h.overhead_lt
  rw [h.depth]
  omega

theorem kept_of_untouched {op : UInt8} (h : Attached c e) (hf : Fired op e t)
    (hu : Untouched e t) : Kept c e c t where
  attached := by
    refine ⟨hf.settled, ?_, ?_, ?_, ?_, h.budget, h.slave_lt, ?_, ?_, ?_, ?_⟩
    · rw [hf.config]; exact h.depth
    · rw [hf.config]; exact h.depth_le
    · rw [hf.config]; exact h.overhead_lt
    · rw [hf.config]; exact h.scratch
    · rw [hf.config]; exact h.vendor
    · rw [hf.config]; exact h.capacity
    · intro i
      rw [hf.config, Emulator.chip_of_chips hu.chips]
      exact h.sizes i
    · intro hcached i hi
      rw [Emulator.chip_of_chips hu.chips]
      exact h.cache hcached i hi
  tuning := rfl
  config := hf.config
  unarmed := hf.unarmed
  stays hb := (hf.stays hb).1
  harmless := hf.harmless
  timely i _ _ hbusy := by
    rwa [Emulator.chip_of_chips hu.chips]
  commandsWhileBusy := hu.record.commandsWhileBusy
  rejectedCommands := hu.record.rejectedCommands

/-- A command that the chip takes and that keeps its size and its sector. -/
theorem kept_of_carried {op : UInt8} {command : Bytes} (h : Attached c e)
    (hi : c.bus.slave.toNat = i.val) (hf : Fired op e t) (hc : Carried i command e t)
    {reaction : Chip.Reaction} (hr : (e.chip i).react e.config command = reaction)
    (hcapacity : reaction.chip.contents.capacity = (e.chip i).contents.capacity)
    (hsector : reaction.chip.sector = (e.chip i).sector) (hbusy : reaction.effect ≠ .whileBusy)
    (hlatch : reaction.effect ≠ .rejected) : Kept c e c t := by
  subst hr
  -- only these two effects count as misuse
  have hrecord : ∀ {effect : Chip.Effect}, effect ≠ .whileBusy → effect ≠ .rejected →
      (Emulator.observe e.stats i effect).commandsWhileBusy = e.stats.commandsWhileBusy ∧
        (Emulator.observe e.stats i effect).rejectedCommands = e.stats.rejectedCommands := by
    intro effect h1 h2
    cases effect with
    | whileBusy => exact absurd rfl h1
    | rejected => exact absurd rfl h2
    | _ => exact ⟨rfl, rfl⟩
  obtain ⟨hb, hr⟩ := hrecord hbusy hlatch
  exact {
    attached := h.update hi hf.settled hf.config hc.chips hcapacity
      fun hne => hsector.trans (h.cache hne i hi)
    tuning := rfl
    config := hf.config
    unarmed := hf.unarmed
    stays := fun hb => (hf.stays hb).1
    harmless := hf.harmless
    timely := fun _ _ => hc.timely
    commandsWhileBusy := hc.record.commandsWhileBusy.trans hb
    rejectedCommands := hc.record.rejectedCommands.trans hr }

/-! ## Status reads -/

/-- A status check on chip `i`: it tells readiness, and unless a fault struck
it, it brings a busy chip one step nearer to ready. -/
structure Checked (c : Controller) (i : Fin maxSlaves) (e : Emulator) (ready : Bool)
    (t : Emulator) : Prop where
  kept : Kept c e c t
  passed : Passed Spares e t
  chips : t.chips = e.chipsWith i { e.chip i with busy := (t.chip i).busy }
  step : (e.chip i).busy.toNat ≤ (t.chip i).busy.toNat + 1
  idle : ready = true → (e.chip i).busy = 0 ∧ (t.chip i).busy = 0 ∧ ¬ t.Blocked
  clear : ready = false → ¬ e.Blocked → Spares e.armed →
    (t.chip i).busy.toNat + 1 ≤ (e.chip i).busy.toNat
  spent : ready = false → e.Lone →
    t.armed = none ∨ (t.chip i).busy.toNat + 1 ≤ (e.chip i).busy.toNat

theorem ends_isReady (h : Attached c e) (hi : c.bus.slave.toNat = i.val) :
    c.bus.isReady.Ends Emulator.block e fun ready t => Checked c i e ready t := by
  obtain ⟨hchip, hbit, heffect⟩ := Chip.react_readStatus e.config (e.chip i)
  have hop : Opcode.readStatus ∈ Emulator.plainOpcodes := by decide
  -- the chip as a status read leaves it
  have hcarried : ∀ t, Fired Opcode.readStatus e t → Carried i [Opcode.readStatus, 0] e t →
      Kept c e c t ∧ t.chips = e.chipsWith i { e.chip i with busy := (t.chip i).busy } ∧
        (t.chip i).busy.toNat = (e.chip i).busy.toNat - 1 := by
    intro t hf hc
    have hget : (t.chip i).busy =
        if 0 < (e.chip i).busy then (e.chip i).busy - 1 else (e.chip i).busy := by
      rw [Emulator.chip_of_chipsWith hc.chips, if_pos rfl, hchip]
    refine ⟨h.kept_of_carried hi hf hc rfl ?_ ?_ ?_ ?_, ?_, ?_⟩
    · rw [hchip]
    · rw [hchip]
    · rw [heffect]; nofun
    · rw [heffect]; nofun
    · rw [hget, hc.chips, hchip]
    · rw [hget]
      split
      · rename_i hpos
        have hone : (1 : UInt32) ≤ (e.chip i).busy :=
          UInt32.le_iff_toNat_le.mpr (UInt32.lt_iff_toNat_lt.mp hpos)
        exact UInt32.toNat_sub_of_le _ _ hone
      · rename_i hpos
        rw [UInt32.lt_iff_toNat_lt] at hpos
        have h0 : (0 : UInt32).toNat = 0 := rfl
        omega
  -- the same if the command never reached it
  have hsame : ∀ t, Fired Opcode.readStatus e t → Untouched e t →
      Kept c e c t ∧ t.chips = e.chipsWith i { e.chip i with busy := (t.chip i).busy } ∧
        (t.chip i).busy.toNat = (e.chip i).busy.toNat := by
    intro t hf hu
    refine ⟨h.kept_of_untouched hf hu, ?_, ?_⟩
    · rw [Emulator.chip_of_chips hu.chips, hu.chips]
      exact Emulator.chipsWith_chip.symm
    · rw [Emulator.chip_of_chips hu.chips]
  refine Proc.Ends.bind (h.settled.ends_exchange h.depth hi (by simp)
    (h.fits (by decide))) ?_
  intro r t ht
  rcases r with error | response
  · obtain ⟨bytes, hr⟩ := ht
    have hboth : Kept c e c t ∧ t.chips = e.chipsWith i { e.chip i with busy := (t.chip i).busy } ∧
        (e.chip i).busy.toNat ≤ (t.chip i).busy.toNat + 1 := by
      rcases hr.effect with hu | ⟨-, hc⟩
      · obtain ⟨hk, hset, hbusy⟩ := hsame t hr.toFired hu
        exact ⟨hk, hset, by omega⟩
      · obtain ⟨hk, hset, hbusy⟩ := hcarried t hr.toFired hc
        exact ⟨hk, hset, by omega⟩
    obtain ⟨hk, hset, hstep⟩ := hboth
    refine Proc.Ends.step Emulator.run_log (Proc.Ends.pure ?_)
    refine ⟨hk, hr.toFired.passed hop, hset, hstep, nofun, ?_, ?_⟩
    · intro _ hfree hspares
      rcases (hr.stopped_of_plain hop).cause trivial with hb | hn
      · exact absurd hb hfree
      · exact absurd hspares hn
    · exact fun _ hl => .inl (hr.spent hl)
  · obtain ⟨ha, rfl⟩ := ht
    obtain ⟨hk, hset, hbusy⟩ := hcarried t ha.toFired ha.toCarried
    have hnearer : ((((e.chip i).react e.config [Opcode.readStatus, 0]).response.getD 1 0 &&&
        Opcode.busyBit) == 0) = false → (t.chip i).busy.toNat + 1 ≤ (e.chip i).busy.toNat := by
      intro hno
      have hpos : (e.chip i).busy.toNat ≠ 0 := by
        intro hzero
        rw [beq_iff_eq.mpr (hbit.mpr (UInt32.toNat_inj.mp hzero))] at hno
        cases hno
      omega
    refine Proc.Ends.pure ⟨hk, ha.toFired.passed hop, hset, by omega, ?_, ?_, ?_⟩
    · intro hyes
      have hzero := hbit.mp (beq_iff_eq.mp hyes)
      refine ⟨hzero, ?_, ?_⟩
      · rw [← UInt32.toNat_inj, hbusy, hzero]
        rfl
      · refine (ha.fires ha.free).2 ?_
        cases hs : (Emulator.strike e.armed _).1 with
        | none => rfl
        | some f => cases (ha.passed f hs).1
    · exact fun hno _ _ => hnearer hno
    · exact fun hno _ => .inr (hnearer hno)

/-! ## Waiting -/

/-- Chip `i` is ready, after at most `polls` further status reads. -/
structure Waited (c : Controller) (i : Fin maxSlaves) (polls : Nat) (e t : Emulator) : Prop where
  kept : Kept c e c t
  passed : Passed Spares e t
  chips : t.chips = e.chipsWith i { e.chip i with busy := 0 }
  free : ¬ t.Blocked
  patient : (e.chip i).busy.toNat ≤ polls

/-- Chip `i` did not get ready in time. -/
structure TimedOut (c : Controller) (i : Fin maxSlaves) (polls : Nat) (e t : Emulator) :
    Prop where
  kept : Kept c e c t
  stopped : Stopped Spares ((e.chip i).busy.toNat ≤ polls) e t
  chips : t.chips = e.chipsWith i { e.chip i with busy := (t.chip i).busy }

theorem Checked.waited (h : Checked c i e true t) (polls : Nat) : Waited c i polls e t := by
  obtain ⟨hidle, hidle', hfree⟩ := h.idle rfl
  refine ⟨h.kept, h.passed, hidle' ▸ h.chips, hfree, ?_⟩
  rw [hidle]
  exact Nat.zero_le _

theorem Checked.timedOut (h : Checked c i e false t) : TimedOut c i 0 e t := by
  refine ⟨h.kept, ⟨fun hzero => ?_, fun hzero hl => ?_⟩, h.chips⟩
  · by_cases hb : e.Blocked
    · exact .inl hb
    · refine .inr fun hspares => ?_
      have := h.clear rfl hb hspares
      omega
  · rcases h.spent rfl hl with harmed | hnear
    · exact harmed
    · omega

theorem kept_atTime {t : Emulator} (h : Kept c e c t) (time : Nat) : Kept c e c (t.atTime time) :=
  ⟨⟨⟨h.attached.settled.control, h.attached.settled.depth_pos, h.attached.settled.quiet,
      h.attached.settled.stuck, h.attached.settled.shows⟩, h.attached.depth, h.attached.depth_le,
      h.attached.overhead_lt, h.attached.scratch, h.attached.budget, h.attached.slave_lt,
      h.attached.vendor, h.attached.capacity, h.attached.sizes, h.attached.cache⟩,
    h.tuning, h.config, h.unarmed, h.stays,
    fun hh => ⟨(h.harmless hh).free, (h.harmless hh).plan⟩, h.timely, h.commandsWhileBusy,
    h.rejectedCommands⟩

/-- A check that found the chip busy, with the pause after it, is one step of a wait. -/
theorem Checked.again {m : Emulator} {time left : Nat} (hm : Checked c i e false m) :
    (Waited c i left (m.atTime time) t → Waited c i (left + 1) e t) ∧
      (TimedOut c i left (m.atTime time) t → TimedOut c i (left + 1) e t) := by
  have hk := kept_atTime hm.kept time
  have hp : Passed Spares e (m.atTime time) := ⟨hm.passed.lone, hm.passed.clear⟩
  -- two settings of the busy count of one chip are one
  have hset : ∀ {b : UInt32}, t.chips = (m.atTime time).chipsWith i
      { (m.atTime time).chip i with busy := b } →
      t.chips = e.chipsWith i { e.chip i with busy := b } := by
    intro b ht
    have hmi : (m.atTime time).chips = e.chipsWith i { e.chip i with busy := (m.chip i).busy } :=
      hm.chips
    rw [ht, Emulator.chip_of_chipsWith hmi, if_pos rfl, Emulator.chipsWith_of_chipsWith hmi]
  have hstep : (e.chip i).busy.toNat ≤ ((m.atTime time).chip i).busy.toNat + 1 := hm.step
  constructor
  · intro ht
    have := ht.patient
    exact ⟨hk.trans ht.kept, hp.trans ht.passed, hset ht.chips, ht.free, by omega⟩
  · intro ht
    refine ⟨hk.trans ht.kept, ⟨fun hpolls => ?_, fun hpolls hl => ?_⟩, hset ht.chips⟩
    · by_cases hb : e.Blocked
      · exact .inl hb
      · refine .inr fun hspares => ?_
        have hnear : ((m.atTime time).chip i).busy.toNat + 1 ≤ (e.chip i).busy.toNat :=
          hm.clear rfl hb hspares
        rcases (hp.stopped ht.stopped).cause (by omega) with hb' | hn
        · exact hb hb'
        · exact hn hspares
    · rcases hm.spent rfl hl with harmed | hnear
      · exact ht.kept.unarmed harmed
      · have hnear : ((m.atTime time).chip i).busy.toNat + 1 ≤ (e.chip i).busy.toNat := hnear
        exact ht.stopped.spent (by omega) (hp.lone hl)

theorem ends_poll_isReady (h : Attached c e) (hi : c.bus.slave.toNat = i.val) (us : UInt32)
    (spent left : Nat) :
    (PollBudget.poll c.bus.isReady (Proc.pause us) PollBudget.unlimited spent left).Ends
      Emulator.block e fun polls t =>
        match polls with
        | some _ => Waited c i left e t
        | none => TimedOut c i left e t := by
  induction left generalizing spent e with
  | zero =>
    refine Proc.Ends.bind (h.ends_isReady hi) ?_
    intro r t ht
    rcases r with _ | _
    · exact Proc.Ends.pure ht.timedOut
    · exact Proc.Ends.pure (ht.waited 0)
  | succ left ih =>
    refine Proc.Ends.bind (h.ends_isReady hi) ?_
    intro r m hm
    rcases r with _ | _
    · apply Proc.Ends.step Emulator.run_pause
      refine (ih (kept_atTime hm.kept _).attached (spent + 1)).mono ?_
      intro r t ht
      rcases r with _ | _
      · exact hm.again.2 ht
      · exact hm.again.1 ht
    · exact Proc.Ends.pure (hm.waited _)

/-- A wait succeeds within the budget, or fails for a reason. -/
theorem ends_waitUntilReady (h : Attached c e) (hi : c.bus.slave.toNat = i.val) :
    Attempt.Ends Emulator.block c.bus.waitUntilReady e
      (fun _ t => Waited c i c.tuning.pollBudget.maxPolls e t)
      (fun _ t => TimedOut c i c.tuning.pollBudget.maxPolls e t) := by
  rw [← h.maxPolls_eq, Bus.waitUntilReady, Bus.await_eq]
  refine Attempt.Ends.bind_lift (h.ends_poll_isReady hi c.bus.budget.intervalUs 0 _) ?_
  intro r t ht
  rcases r with _ | _
  · apply Attempt.Ends.step Emulator.run_log
    exact Attempt.Ends.throw ht
  · exact Attempt.Ends.pure ht

end Attached

/-! ## Runs of operations on one chip -/

/-- An operation on chip `i` that went through: the chip is ready again. -/
structure Ran (K : Option ArmedFault → Prop) (i : Fin maxSlaves) (c : Controller) (e : Emulator)
    (c' : Controller) (t : Emulator) : Prop where
  kept : Kept c e c' t
  passed : Passed K e t
  slave : c'.bus.slave.toNat = i.val
  idle : (t.chip i).busy = 0

/-- An operation that failed, for a reason if `P` holds. -/
structure Failed (K : Option ArmedFault → Prop) (P : Prop) (c : Controller) (e : Emulator)
    (c' : Controller) (t : Emulator) : Prop where
  kept : Kept c e c' t
  stopped : Stopped K P e t

section Runs

variable {K L : Option ArmedFault → Prop} {P Q : Prop} {m : Emulator} {c' c'' : Controller}

theorem Ran.ready (h : Ran K i c e c' t) : Ready c' t i :=
  ⟨h.kept.attached, h.slave, h.idle⟩

theorem Ready.ran (h : Ready c e i) : Ran K i c e c e :=
  ⟨h.attached.kept, .refl K e, h.slave, h.idle⟩

theorem Ran.trans (h : Ran K i c e c' m) (h' : Ran K i c' m c'' t) : Ran K i c e c'' t :=
  ⟨h.kept.trans h'.kept, h.passed.trans h'.passed, h'.slave, h'.idle⟩

theorem Ran.mono (h : Ran K i c e c' t) (hk : ∀ a, L a → K a) : Ran L i c e c' t :=
  ⟨h.kept, h.passed.mono hk, h.slave, h.idle⟩

theorem Ran.failed (h : Ran K i c e c' m) (h' : Failed K P c' m c'' t) : Failed K P c e c'' t :=
  ⟨h.kept.trans h'.kept, h.passed.stopped h'.stopped⟩

theorem Ran.of_kept (hk : Kept c e c' e) (h : Ran K i c' e c'' t) : Ran K i c e c'' t :=
  ⟨hk.trans h.kept, h.passed, h.slave, h.idle⟩

theorem Failed.of_kept (hk : Kept c e c' e) (h : Failed K P c' e c'' t) : Failed K P c e c'' t :=
  ⟨hk.trans h.kept, h.stopped⟩

theorem Failed.mono (h : Failed K P c e c' t) (hk : ∀ a, L a → K a) (hp : Q → P) :
    Failed L Q c e c' t :=
  ⟨h.kept, h.stopped.mono hk hp⟩

/-- A failure whose cause is a fault, whatever else holds. -/
theorem Failed.any (h : Failed K True c e c' t) : Failed K P c e c' t :=
  h.mono (fun _ hk => hk) fun _ => trivial

end Runs

namespace Attached

theorem Waited.ran {polls : Nat} (h : Waited c i polls e t) (hi : c.bus.slave.toNat = i.val) :
    Ran Spares i c e c t := by
  refine ⟨h.kept, h.passed, hi, ?_⟩
  rw [Emulator.chip_of_chipsWith h.chips, if_pos rfl]

theorem Waited.contents {polls : Nat} (h : Waited c i polls e t) : SameContents e t :=
  .of_set h.chips rfl

theorem TimedOut.failed {polls : Nat} (h : TimedOut c i polls e t) :
    Failed Spares ((e.chip i).busy.toNat ≤ polls) c e c t :=
  ⟨h.kept, h.stopped⟩

theorem TimedOut.contents {polls : Nat} (h : TimedOut c i polls e t) : SameContents e t :=
  .of_set h.chips rfl

/-- A command that is only sent, and that fails, did not reach the chip. -/
theorem failed_of_refused {command bytes : Bytes} (h : Attached c e)
    (hf : Refused i command false e bytes t) (hop : command.headD 0 ∈ Emulator.plainOpcodes) :
    Failed Spares True c e c t ∧ t.chips = e.chips := by
  have hu := hf.effect.resolve_right fun hw => Bool.false_ne_true hw.1
  exact ⟨⟨h.kept_of_untouched hf.toFired hu, hf.stopped_of_plain hop⟩, hu.chips⟩

/-- A wait as an operation of the controller. -/
theorem ends_wait (h : Attached c e) (hi : c.bus.slave.toNat = i.val) :
    Drive.Ends Emulator.block Controller.waitUntilReady c e
      (fun _ c' t => c = c' ∧ Waited c i c.tuning.pollBudget.maxPolls e t)
      (fun _ c' t => c = c' ∧ TimedOut c i c.tuning.pollBudget.maxPolls e t) := by
  refine Drive.Ends.bind_get (Drive.Ends.attempt ?_)
  exact (h.ends_waitUntilReady hi).mono (fun _ _ hw => ⟨rfl, hw⟩) fun _ _ hw => ⟨rfl, hw⟩

end Attached

namespace Leaves

variable {m : Emulator} {contents : PageStore} {busy : UInt32} {polls : Nat}

theorem waited (h : Leaves i contents busy e m) (hw : Attached.Waited c i polls m t) :
    Leaves i contents 0 e t :=
  h.trans_set hw.chips rfl rfl

theorem timedOut (h : Leaves i contents busy e m) (hout : Attached.TimedOut c i polls m t) :
    Leaves i contents (t.chip i).busy e t :=
  h.trans_set hout.chips rfl rfl

end Leaves

/-! ## The write enable latch and the sector -/

namespace Ready

/-- The latch is set, and nothing else changes. -/
theorem ends_enableWrite (h : Ready c e i) :
    Drive.Ends Emulator.block Controller.enableWrite c e
      (fun _ c' t => c = c' ∧ Ran Spares i c e c t ∧
        t.chips = e.chipsWith i { e.chip i with writeEnabled := true })
      (fun _ c' t => c = c' ∧ Failed Spares True c e c t ∧ t.chips = e.chips) := by
  have hop : Opcode.writeEnable ∈ Emulator.plainOpcodes := by decide
  have hr := Chip.react_writeEnable e.config h.idle
  refine Drive.Ends.bind_get (Drive.Ends.attempt ?_)
  refine (h.attached.settled.ends_send h.attached.depth h.slave (by simp)
    (h.attached.fits (by decide))).mono ?_ ?_
  · intro _ t ha
    have hchips := ha.chips
    rw [hr] at hchips
    refine ⟨rfl, ⟨h.attached.kept_of_carried h.slave ha.toFired ha.toCarried hr rfl rfl nofun
      nofun, ha.toFired.passed hop, h.slave, ?_⟩, hchips⟩
    rw [Emulator.chip_of_chipsWith hchips, if_pos rfl]
    exact h.idle
  · intro _ t hpost
    obtain ⟨bytes, hf⟩ := hpost
    exact ⟨rfl, h.attached.failed_of_refused hf hop⟩

/-- A sector select that is sent: the chip takes it and clears its latch, or at
most the latch has changed. -/
theorem ends_changeSector (h : Ready c e i) {sector : UInt8} (hs : c.sector ≠ sector) :
    Drive.Ends Emulator.block (Controller.selectSector sector) c e
      (fun _ c' t => Ran Spares i c e c' t ∧ c' = { c with sector } ∧
        t.chips = e.chipsWith i { e.chip i with writeEnabled := false, sector })
      (fun _ c' t => Failed Spares True c e c' t ∧ c = c' ∧
        ∃ latch, t.chips = e.chipsWith i { e.chip i with writeEnabled := latch }) := by
  apply Drive.Ends.bind_get
  rw [if_neg hs]
  refine Drive.Ends.bind h.ends_enableWrite ?_ ?_
  · intro _ _ t hpost
    obtain ⟨rfl, hfailed, hchips⟩ := hpost
    exact ⟨hfailed, rfl, (e.chip i).writeEnabled, hchips.trans Emulator.chipsWith_chip.symm⟩
  intro _ _ m hpost
  obtain ⟨rfl, hran, hchips⟩ := hpost
  have hm : m.chip i = { e.chip i with writeEnabled := true } := by
    rw [Emulator.chip_of_chipsWith hchips, if_pos rfl]
  have hr := Chip.react_writeSector m.config hran.idle (by rw [hm]) sector
  have hop : Opcode.writeSector ∈ Emulator.plainOpcodes := by decide
  have hattached := hran.kept.attached
  refine Drive.Ends.bind_get (Drive.Ends.bind_attempt (hattached.settled.ends_send
    hattached.depth hran.slave (by simp) (hattached.fits (by simp [Opcode.headerLen]))) ?_ ?_)
  · intro _ t hpost
    obtain ⟨bytes, hf⟩ := hpost
    obtain ⟨hfailed, hchips'⟩ := hattached.failed_of_refused hf hop
    exact ⟨hran.failed hfailed, rfl, true, hchips'.trans hchips⟩
  intro _ t ha
  apply Drive.Ends.step Emulator.run_log
  refine Drive.Ends.modify ?_
  have hset := ha.chips
  rw [hr] at hset
  have hrecord := ha.record
  rw [hr] at hrecord
  have hkept : Kept c m { c with sector } t := {
    attached := hattached.update hran.slave ha.settled ha.config hset rfl fun _ => rfl
    tuning := rfl
    config := ha.config
    unarmed := ha.toFired.unarmed
    stays := fun hb => (ha.stays hb).1
    harmless := ha.harmless
    timely := fun _ _ => ha.toCarried.timely
    commandsWhileBusy := hrecord.commandsWhileBusy
    rejectedCommands := hrecord.rejectedCommands }
  refine ⟨hran.trans ⟨hkept, ha.toFired.passed hop, h.slave, ?_⟩, rfl, ?_⟩
  · rw [Emulator.chip_of_chipsWith hset, if_pos rfl]
    exact hran.idle
  · rw [hset, hm, Emulator.chipsWith_of_chipsWith hchips]

/-- The chip has the sector selected that the request leads to, and it is cached. -/
theorem ends_selectSector (h : Ready c e i) (sector : UInt8) :
    Drive.Ends Emulator.block (Controller.selectSector sector) c e
      (fun _ c' t => Ran Spares i c e c' t ∧ c' = { c with sector } ∧
        ∃ latch, t.chips = e.chipsWith i
          { e.chip i with writeEnabled := latch, sector := c.selected e i sector })
      (fun _ c' t => Failed Spares True c e c' t ∧ c = c' ∧
        ∃ latch, t.chips = e.chipsWith i { e.chip i with writeEnabled := latch }) := by
  by_cases hcached : c.sector = sector
  · have hselected : c.selected e i sector = (e.chip i).sector := by
      rw [Controller.selected]
      split
      · rfl
      · rename_i hsent
        have hne : c.sector ≠ sectorNone := fun hnone => hsent ⟨hcached ▸ hnone, fun _ => hnone⟩
        rw [h.attached.cache hne i h.slave, hcached]
    subst hcached
    apply Drive.Ends.bind_get
    rw [if_pos rfl]
    refine Drive.Ends.pure ⟨h.ran, rfl, (e.chip i).writeEnabled, ?_⟩
    rw [hselected]
    exact Emulator.chipsWith_chip.symm
  · have hselected : c.selected e i sector = sector :=
      if_neg fun hskip => hcached ((hskip.2 h.slave).trans hskip.1.symm)
    rw [hselected]
    refine (h.ends_changeSector hcached).mono ?_ fun _ _ _ hpost => hpost
    intro _ c' t hpost
    obtain ⟨hran, hc, hset⟩ := hpost
    exact ⟨hran, hc, false, hset⟩

end Ready

/-! ## Slaves and headers -/

/-- Another scratch buffer as long as the FIFO is deep. -/
theorem Attached.with_scratch (h : Attached c e) {scratch : Bytes}
    (hlen : scratch.length = c.scratch.length) : Attached { c with scratch } e :=
  { h with scratch := hlen.trans h.scratch }

theorem Kept.with_scratch {c' : Controller} (h : Kept c e c' t) {scratch : Bytes}
    (hlen : scratch.length = c'.scratch.length) : Kept c e { c' with scratch } t :=
  { h with attached := h.attached.with_scratch hlen }

/-- Switching slaves makes no transaction, and forgets the cached sector. -/
theorem Attached.ends_turn (h : Attached c e) (slave : UInt8) :
    Drive.Ends Emulator.block (Controller.setActiveSlave slave) c e
      (fun _ c' t => e = t ∧ Kept c e c' e ∧ c' = c.turnedTo slave ∧ slave.toNat < maxSlaves)
      (fun _ c' t => e = t ∧ c = c' ∧ ¬ slave.toNat < maxSlaves) := by
  rw [Controller.setActiveSlave]
  by_cases hlt : slave.toNat < maxSlaves
  · rw [if_pos hlt, Controller.turnedTo]
    apply Drive.Ends.bind_get
    split
    · exact Drive.Ends.pure ⟨rfl, h.kept, rfl, hlt⟩
    · apply Drive.Ends.step Emulator.run_log
      refine Drive.Ends.set ⟨rfl, { h.kept with attached := ?_ }, rfl, hlt⟩
      exact { h with slave_lt := hlt, cache := fun hne => absurd rfl hne }
  · rw [if_neg hlt]
    exact Drive.Ends.throw ⟨rfl, rfl, hlt⟩

theorem Attached.ends_setActiveSlave (h : Attached c e) (slave : UInt8) :
    Drive.Ends Emulator.block (Controller.setActiveSlave slave) c e
      (fun _ c' t => e = t ∧ Kept c e c' e ∧ c'.bus.slave = slave ∧ slave.toNat < maxSlaves)
      (fun _ c' t => e = t ∧ c = c' ∧ ¬ slave.toNat < maxSlaves) := by
  refine (h.ends_turn slave).mono ?_ fun _ _ _ hpost => hpost
  intro _ _ _ hpost
  obtain ⟨rfl, hkept, rfl, hlt⟩ := hpost
  exact ⟨rfl, hkept, c.slave_turnedTo slave, hlt⟩

/-- The slave of an offset is the active one already. -/
theorem Ready.ends_setActiveSlave (h : Ready c e i) {p : UInt64} {a : Nat} (hp : Locates p i a) :
    Drive.Ends Emulator.block (Controller.setActiveSlave (Address.ofOffset p).slave) c e
      (fun _ c' t => c = c' ∧ e = t) (fun _ _ _ => False) := by
  have hsame : c.bus.slave = (Address.ofOffset p).slave :=
    UInt8.toNat_inj.mp (h.slave.trans hp.slave.symm)
  rw [Controller.setActiveSlave, if_pos (hp.slave ▸ i.isLt)]
  apply Drive.Ends.bind_get
  rw [if_pos hsame]
  exact Drive.Ends.pure ⟨rfl, rfl⟩

/-- Chip `i` is active and ready, it has the sector selected that a request for that of
the address leads to, and the header of the command is in the scratch buffer. -/
structure Aimed (opcode : UInt8) (a : Address) (i : Fin maxSlaves) (c : Controller) (e : Emulator)
    (c' : Controller) (t : Emulator) : Prop where
  ran : Ran Spares i c e c' t
  leaves : Leaves i (e.chip i).contents 0 e t
  sector : (t.chip i).sector = c.selected e i a.sector
  scratch : ∃ rest, c'.scratch = opcode :: a.high :: a.middle :: a.low :: rest

/-- The header of a command names the place where it lands. -/
theorem Aimed.address {opcode : UInt8} {p : UInt64} {c' : Controller}
    (h : Aimed opcode (Address.ofOffset p) i c e c' t) :
    (t.chip i).address (Address.ofOffset p).high (Address.ofOffset p).middle
      (Address.ofOffset p).low = c.landing e i p := by
  rw [Chip.address_ofOffset, h.sector, Controller.landing_eq]

/-- A header is put together for any address of a chip that is ready. -/
theorem Attached.lands_buildHeader (h : Attached c e) {a : Address} (hi : a.slave.toNat = i.val)
    (hidle : (e.chip i).busy = 0) (opcode : UInt8) :
    Drive.Ends Emulator.block (Controller.buildHeader opcode a) c e
      (fun _ c' t => Aimed opcode a i c e c' t)
      (fun _ c' t => Failed Spares True c e c' t ∧ Leaves i (e.chip i).contents 0 e t) := by
  refine Drive.Ends.bind (h.ends_turn a.slave) ?_ ?_
  · intro _ _ _ hpost
    obtain ⟨rfl, rfl, hn⟩ := hpost
    exact absurd (hi ▸ i.isLt) hn
  intro _ c₁ _ hpost
  obtain ⟨rfl, hkept₁, hc₁, -⟩ := hpost
  have hready : Ready c₁ e i := ⟨hkept₁.attached, by rw [hc₁, Controller.slave_turnedTo, hi], hidle⟩
  have hselected : c₁.selected e i a.sector = c.selected e i a.sector := by
    rw [hc₁, Controller.selected_turnedTo _ _ hi]
  refine Drive.Ends.bind (hready.ends_selectSector a.sector) ?_ ?_
  · intro _ _ _ hpost
    obtain ⟨hf, -, latch, hset⟩ := hpost
    exact ⟨hf.of_kept hkept₁, .of_set hset rfl hidle⟩
  intro _ c₂ t hpost
  obtain ⟨hran, -, latch, hset⟩ := hpost
  have hlen : 0 + (opcode :: a.bytes).length ≤ c₂.scratch.length := by
    have h1 := hran.kept.attached.scratch
    have h2 := hran.kept.attached.overhead_lt
    rw [Opcode.headerLen] at h2
    simp only [Address.bytes, List.length_cons, List.length_nil]
    omega
  apply Drive.Ends.bind_get
  apply Drive.Ends.step (Proc.run_overwrite hlen)
  refine Drive.Ends.set ⟨?_, .of_set hset rfl hidle, ?_, _, rfl⟩
  · exact .of_kept hkept₁ ⟨hran.kept.with_scratch (Bytes.length_overwritten hlen), hran.passed,
      hran.slave, hran.idle⟩
  · rw [Emulator.chip_of_chipsWith hset, if_pos rfl, hselected]

/-- In its chip a burst lands where its offset says. -/
theorem Attached.landing_eq (h : Attached c e) {p : UInt64} {a : Nat} (hp : Locates p i a)
    (ha : a < e.config.capacity) : c.landing e i p = a :=
  hp.landing_eq (Nat.lt_of_lt_of_le ha h.capacity_bounds.2.2) c e

/-- The header of a command for the place at `p` is in the scratch buffer, and
the chip has selected its sector. -/
structure Headed (opcode : UInt8) (p : UInt64) (i : Fin maxSlaves) (c : Controller)
    (e : Emulator) : Prop where
  sector : (e.chip i).sector = (Address.ofOffset p).sector
  scratch : ∃ rest, c.scratch = opcode :: (Address.ofOffset p).high ::
    (Address.ofOffset p).middle :: (Address.ofOffset p).low :: rest

theorem Ready.ends_buildHeader (h : Ready c e i) {p : UInt64} {a : Nat} (hp : Locates p i a)
    (ha : a < e.config.capacity) (opcode : UInt8) :
    Drive.Ends Emulator.block (Controller.buildHeader opcode (Address.ofOffset p)) c e
      (fun _ c' t => Ran Spares i c e c' t ∧ SameContents e t ∧ Headed opcode p i c' t)
      (fun _ c' t => Failed Spares True c e c' t ∧ SameContents e t) := by
  have hsector := hp.sector_ne (Nat.lt_of_lt_of_le ha h.attached.capacity_bounds.2.2)
  refine (h.attached.lands_buildHeader hp.slave h.idle opcode).mono ?_ ?_
  · intro _ c' t haimed
    exact ⟨haimed.ran, haimed.leaves.sameContents,
      haimed.sector.trans (c.selected_of_ne e i hsector), haimed.scratch⟩
  · exact fun _ _ _ hf => ⟨hf.1, hf.2.sameContents⟩

/-- Bytes behind the header complete the command. -/
theorem Ran.with_payload {K : Option ArmedFault → Prop} {c' : Controller}
    {opcode high middle low : UInt8} {payload : Bytes} (h : Ran K i c e c' t)
    (hheader : ∃ rest, c'.scratch = opcode :: high :: middle :: low :: rest)
    (hfit : Opcode.headerLen + payload.length ≤ c'.scratch.length) :
    ∃ buffer, c'.scratch.take Opcode.headerLen ++ payload ++
        c'.scratch.drop (Opcode.headerLen + payload.length) = buffer ∧
      buffer.length = c'.scratch.length ∧
      Ran K i c e { c' with scratch := buffer } t ∧
      ∃ rest, buffer = opcode :: high :: middle :: low :: payload ++ rest := by
  refine ⟨_, rfl, Bytes.length_overwritten hfit, ⟨?_, h.passed, h.slave, h.idle⟩,
    c'.scratch.drop (Opcode.headerLen + payload.length), ?_⟩
  · exact h.kept.with_scratch (Bytes.length_overwritten hfit)
  · obtain ⟨rest, hscratch⟩ := hheader
    rw [hscratch]
    rfl

/-! ## Commands from the scratch buffer -/

theorem Attached.ends_runScratch (h : Attached c e) (hi : c.bus.slave.toNat = i.val)
    {command rest : Bytes} (hscratch : c.scratch = command ++ rest) (hne : command ≠ [])
    (wanted : Bool) :
    Drive.Ends Emulator.block (Controller.runScratch command.length wanted) c e
      (fun _ c' t => ∃ bytes, Answered i command wanted e bytes t ∧
        c' = { c with scratch := bytes ++ command.drop bytes.length ++ rest })
      (fun _ c' t => ∃ bytes, Refused i command wanted e bytes t ∧
        c' = { c with scratch := bytes ++ command.drop bytes.length ++ rest }) := by
  have hlen : command.length + rest.length = e.config.fifoDepth := by
    rw [← h.scratch, hscratch, List.length_append]
  apply Drive.Ends.bind_get
  apply Drive.Ends.step (Proc.run_split (by rw [hscratch, List.length_append]; omega))
  rw [hscratch]
  simp only [List.take_left, List.drop_left]
  refine Drive.Ends.bind_lift (h.settled.ends_transaction h.depth hi hne
    (by rw [h.depth]; omega) wanted) ?_
  intro r t ht
  obtain ⟨bytes, outcome⟩ := r
  apply Drive.Ends.bind_set
  cases outcome with
  | ok => exact Drive.Ends.pure ⟨bytes, ht, rfl⟩
  | error error => exact Drive.Ends.throw ⟨bytes, ht, rfl⟩

/-- A command from the scratch buffer whose response does not matter, with what
the chip makes of it. -/
theorem Ready.ends_runDrained (h : Ready c e i) {op : UInt8} {operands rest : Bytes}
    (hscratch : c.scratch = op :: operands ++ rest) {reaction : Chip.Reaction}
    (hr : (e.chip i).react e.config (op :: operands) = reaction)
    (hcapacity : reaction.chip.contents.capacity = (e.chip i).contents.capacity)
    (hsector : reaction.chip.sector = (e.chip i).sector) (hbusy : reaction.effect ≠ .whileBusy)
    (hlatch : reaction.effect ≠ .rejected) :
    Drive.Ends Emulator.block (Controller.runScratch (op :: operands).length false) c e
      (fun _ c' t => Kept c e c' t ∧ c'.bus = c.bus ∧ Fired op e t ∧
        (∀ f, (Emulator.strike e.armed op).1 = some f → f.drops = false) ∧
        t.chips = e.chipsWith i reaction.chip)
      (fun _ c' t => Kept c e c' t ∧ t.chips = e.chips ∧
        ∀ K : Option ArmedFault → Prop, (∀ a, K a → (Emulator.strike a op).1 = none) →
          Stopped K True e t) := by
  have hlen : ∀ bytes : Bytes, bytes.length ≤ (op :: operands).length →
      (bytes ++ (op :: operands).drop bytes.length ++ rest).length = c.scratch.length := by
    intro bytes hb
    simp only [hscratch, List.length_append, List.length_drop]
    omega
  refine (h.attached.ends_runScratch h.slave hscratch (by simp) false).mono ?_ ?_
  · intro _ _ t hpost
    obtain ⟨bytes, ha, rfl⟩ := hpost
    have hbytes : bytes = [] := ha.bytes_eq
    have hkept := h.attached.kept_of_carried h.slave ha.toFired ha.toCarried hr hcapacity hsector
      hbusy hlatch
    refine ⟨hkept.with_scratch (hlen _ ?_), rfl, ha.toFired, fun f hf => (ha.passed f hf).2, ?_⟩
    · rw [hbytes]
      exact Nat.zero_le _
    · rw [ha.chips, hr]
  · intro _ _ t hpost
    obtain ⟨bytes, hf, rfl⟩ := hpost
    have hu := hf.effect.resolve_right fun hw => Bool.false_ne_true hw.1
    exact ⟨(h.attached.kept_of_untouched hf.toFired hu).with_scratch (hlen _ hf.length_le),
      hu.chips, fun K hk => hf.stopped hk⟩

end NorFlash
