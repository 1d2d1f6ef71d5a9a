import NorFlash.Proofs.Burst

/-!
# Transaction — one transaction on the emulator

A transaction on a settled emulator ends with the command carried out on the
selected chip (`Answered`) or with an error (`Refused`); it fails only if the
FIFOs cannot be emptied or an armed fault strikes it.
-/

namespace NorFlash.Emulator

variable {e t : Emulator} {i : Fin maxSlaves} {command : Bytes}

/-! ## Outcomes -/

/-- The same statistics, burst counts and the clock aside. -/
structure SameRecord (s s' : EmulatorStats) : Prop where
  erases : s'.erases = s.erases
  maxProgramLen : s'.maxProgramLen = s.maxProgramLen
  commandsWhileBusy : s'.commandsWhileBusy = s.commandsWhileBusy
  rejectedCommands : s'.rejectedCommands = s.rejectedCommands
  softResets : s'.softResets = s.softResets

/-- The FIFOs can be emptied, and no fault is planned that would change that. -/
structure Harmless (e : Emulator) : Prop where
  free : ¬ e.Blocked
  plan : ∀ plan, e.armed = some plan → plan.fault.clogs = false

/-- The emulator is settled again, and its plan for a fault is the one that a
burst with this opcode leaves: unless the FIFOs could not be emptied, and no
burst ran. -/
structure Fired (op : UInt8) (e t : Emulator) : Prop where
  settled : t.Settled
  config : t.config = e.config
  stays : e.Blocked → t.Blocked ∧ t.armed = e.armed
  fires : ¬ e.Blocked → t.armed = (strike e.armed op).2 ∧
    ((strike e.armed op).1 = none → ¬ t.Blocked)
  harmless : e.Harmless → t.Harmless

/-- Chip `i` carried the command out, and no other chip changed. -/
structure Carried (i : Fin maxSlaves) (command : Bytes) (e t : Emulator) : Prop where
  chips : t.chips = e.chipsWith i ((e.chip i).react e.config command).chip
  record : SameRecord (observe e.stats i ((e.chip i).react e.config command).effect) t.stats

/-- No chip changed. -/
structure Untouched (e t : Emulator) : Prop where
  chips : t.chips = e.chips
  record : SameRecord e.stats t.stats

/-- A transaction that went through. -/
structure Answered (i : Fin maxSlaves) (command : Bytes) (wanted : Bool) (e : Emulator)
    (bytes : Bytes) (t : Emulator) : Prop
    extends Fired (command.headD 0) e t, Carried i command e t where
  free : ¬ e.Blocked
  passed : ∀ f, (strike e.armed (command.headD 0)).1 = some f → wanted = false ∧ f.drops = false
  bytes_eq : bytes = if wanted then ((e.chip i).react e.config command).response else []

/-- A transaction that failed. The command may have been carried out if its
response was wanted. -/
structure Refused (i : Fin maxSlaves) (command : Bytes) (wanted : Bool) (e : Emulator)
    (bytes : Bytes) (t : Emulator) : Prop extends Fired (command.headD 0) e t where
  cause : e.Blocked ∨ (strike e.armed (command.headD 0)).1 ≠ none
  effect : Untouched e t ∨ wanted = true ∧ Carried i command e t
  length_le : bytes.length ≤ command.length

/-- A chip that gets ready in time stays one, whatever command is carried out. -/
theorem Carried.timely (h : Carried i command e t) {j : Fin maxSlaves} {polls : Nat}
    (hconfig : e.config.busyPolls.toNat ≤ polls) (hbusy : (e.chip j).busy.toNat ≤ polls) :
    (t.chip j).busy.toNat ≤ polls := by
  rw [chip_of_chipsWith h.chips]
  split
  · rename_i hij
    subst hij
    exact Chip.busy_react_le _ _ hconfig hbusy
  · exact hbusy

/-! ## The plan for a fault -/

/-- What stays planned is what was planned. -/
theorem strike_rest {Q : Fault → Prop} (hs : ∀ plan, e.armed = some plan → Q plan.fault)
    (op : UInt8) : ∀ plan, (strike e.armed op).2 = some plan → Q plan.fault := by
  intro plan h
  rw [strike.eq_def] at h
  split at h
  · cases h
  · rename_i p hp
    split at h
    · split at h
      · cases h
      · cases h
        exact hs p hp
    · cases h
      exact hs _ hp

/-- The record of a burst is that of its effect. -/
theorem sameRecord_observe (s : EmulatorStats) (i : Fin maxSlaves) (effect : Chip.Effect)
    (bursts longest : Nat) :
    SameRecord (observe s i effect)
      (observe { s with bursts, maxBurstLen := longest } i effect) := by
  cases effect <;> exact ⟨rfl, rfl, rfl, rfl, rfl⟩

section Outcomes

variable {wanted : Bool} {word : UInt32} {arrival : Arrival}

/-- A burst that went through, between its FIFO reset and the deselection. -/
theorem Settled.fired_of_transferred (h : e.Settled) (hfree : ¬ e.Blocked) (word' : UInt32)
    (ht : Transferred i command wanted (strike e.armed (command.headD 0)).1
      (strike e.armed (command.headD 0)).2 { e.emptied with slaveSelect := word } arrival t) :
    Fired (command.headD 0) e { t with slaveSelect := word' } ∧
      Carried i command e { t with slaveSelect := word' } := by
  obtain ⟨⟨q, rfl, hq⟩, _, _, _, _⟩ := ht
  have hloose : e.rxStuck = false := by
    rw [← Bool.not_eq_true]
    exact fun hs => hfree (.inl hs)
  have hstuck : (e.rxStuck || (strike e.armed (command.headD 0)).1 == some .stuckFifo) = true →
      (strike e.armed (command.headD 0)).1 = some .stuckFifo := by
    rw [hloose, Bool.false_or, beq_iff_eq]
    exact id
  refine ⟨⟨⟨h.control, h.depth_pos, ?_, ?_, ?_⟩, rfl, fun hb => absurd hb hfree, ?_, ?_⟩, rfl, ?_⟩
  · exact fun herr => absurd rfl herr
  · exact fun hs => ⟨rfl, hq (hstuck hs)⟩
  · exact strike_rest (Q := Fault.Shows) h.shows _
  · refine fun _ => ⟨rfl, fun hnone => ?_⟩
    intro hpost
    rcases hpost with hs | herr
    · rw [hstuck hs] at hnone
      cases hnone
    · exact herr UInt32.zero_and
  · refine fun hharmless =>
      ⟨?_, strike_rest (Q := fun fault => fault.clogs = false) hharmless.plan _⟩
    intro hpost
    rcases hpost with hs | herr
    · have hclogs := strike_fault (Q := fun fault => fault.clogs = false) hharmless.plan (hstuck hs)
      cases hclogs
    · exact herr UInt32.zero_and
  · exact sameRecord_observe _ _ _ _ _

/-- A burst that was dropped, between its FIFO reset and the deselection. -/
theorem Settled.fired_of_dropped (h : e.Settled) (hfree : ¬ e.Blocked) (word' : UInt32)
    (ht : Dropped (strike e.armed (command.headD 0)).1 (strike e.armed (command.headD 0)).2
      { e.emptied with slaveSelect := word } arrival t) :
    Fired (command.headD 0) e { t with slaveSelect := word' } ∧
      Untouched e { t with slaveSelect := word' } := by
  obtain ⟨⟨tx, bits, time, htx, rfl⟩, hne, _, _⟩ := ht
  refine ⟨⟨⟨h.control, h.depth_pos, ?_, ?_, ?_⟩, rfl, fun hb => absurd hb hfree, ?_, ?_⟩, rfl, ?_⟩
  · refine fun herr => ⟨(htx herr).1, ?_⟩
    change e.emptied.rx.toList = []
    rw [rx_emptied hfree]
    rfl
  · exact fun hs => absurd (.inl hs) hfree
  · exact strike_rest (Q := Fault.Shows) h.shows _
  · exact fun _ => ⟨rfl, fun hnone => absurd hnone hne⟩
  · refine fun hharmless =>
      ⟨?_, strike_rest (Q := fun fault => fault.clogs = false) hharmless.plan _⟩
    intro hpost
    rcases hpost with hs | herr
    · exact hfree (.inl hs)
    · have herr : bits &&& (Status.txFull ||| Status.rxFull) ≠ 0 := herr
      have hbits : bits ≠ 0 := by
        intro hzero
        rw [hzero] at herr
        exact herr UInt32.zero_and
      have hclogs : (Fault.error bits).clogs = false :=
        strike_fault (Q := fun fault => fault.clogs = false) hharmless.plan (htx hbits).2
      exact of_decide_eq_false hclogs herr
  · exact ⟨rfl, rfl, rfl, rfl, rfl⟩

end Outcomes

/-! ## Transactions -/

/-- **Transactions are faithful**: on a settled emulator a transaction ends,
with the command carried out and the right response, or with an error. -/
theorem Settled.ends_transaction (h : e.Settled) {b : Bus}
    (hb : b.fifoDepth = e.config.fifoDepth) (hi : b.slave.toNat = i.val) (hne : command ≠ [])
    (hfit : command.length ≤ b.fifoDepth) (wanted : Bool) :
    (b.transaction command wanted).Ends block e fun arrival t =>
      match arrival.outcome with
      | .ok () => Answered i command wanted e arrival.bytes t
      | .error _ => Refused i command wanted e arrival.bytes t := by
  rw [Bus.transaction, if_neg (Nat.not_lt.mpr hfit)]
  refine Proc.Ends.bind (h.ends_resetFifos b) ?_
  intro r t ht
  rcases r with error | _
  · obtain ⟨hblocked, time, rfl⟩ := ht
    have hs := h.emptied
    exact Proc.Ends.pure ⟨⟨⟨hs.control, hs.depth_pos, hs.quiet, hs.stuck, hs.shows⟩, rfl,
      fun _ => ⟨hblocked, rfl⟩, fun hfree => absurd hblocked hfree,
      fun hharmless => absurd hblocked hharmless.free⟩, .inl hblocked,
      .inl ⟨rfl, rfl, rfl, rfl, rfl, rfl⟩, Nat.zero_le _⟩
  · obtain ⟨hfree, rfl⟩ := ht
    have hslave : b.slave.toNat < maxSlaves := hi ▸ i.isLt
    have hpoised : Poised { e.emptied with slaveSelect := Bus.selectWord b.slave } i command := by
      refine ⟨h.control, rfl, ?_, selected?_eq hi rfl, hne, hb ▸ hfit, h.shows⟩
      change e.emptied.rx.toList = []
      rw [rx_emptied hfree]
      rfl
    have hselect : (Bus.activate (some b.slave)).run block e.emptied =
        (some (), { e.emptied with slaveSelect := Bus.selectWord b.slave }) := by
      rw [Bus.activate_some, if_pos hslave, run_store]
      rfl
    dsimp only
    rw [if_pos hslave]
    apply Proc.Ends.step hselect
    have hstrike : strike e.armed (command.headD 0) =
        ((strike e.armed (command.headD 0)).1, (strike e.armed (command.headD 0)).2) := rfl
    refine Proc.Ends.bind (hpoised.ends_transfer hb hstrike wanted) ?_
    intro arrival t hpost
    rcases hpost with ht | ht
    · obtain ⟨hfired, hcarried⟩ := h.fired_of_transferred hfree slaveSelectNone ht
      refine Proc.Ends.step run_store (Proc.Ends.pure ?_)
      split
      · rename_i hok
        refine ⟨hfired, hcarried, hfree, ?_, ht.bytes hok⟩
        intro f hf
        refine ⟨?_, ht.passed f hf⟩
        rw [← Bool.not_eq_true]
        intro hw
        have hnone := ht.outcome.mp hok hw
        rw [hf] at hnone
        cases hnone
      · rename_i error hfail
        refine ⟨hfired, .inr ?_, .inr ⟨?_, hcarried⟩, ht.length_le⟩
        · intro hnone
          have hdone := ht.outcome.mpr fun _ => hnone
          rw [hfail] at hdone
          cases hdone
        · rw [← Bool.not_eq_false]
          rintro rfl
          have hdone := ht.outcome.mpr nofun
          rw [hfail] at hdone
          cases hdone
    · obtain ⟨hfired, huntouched⟩ := h.fired_of_dropped hfree slaveSelectNone ht
      refine Proc.Ends.step run_store (Proc.Ends.pure ?_)
      split
      · rename_i hok
        exact absurd hok ht.outcome
      · refine ⟨hfired, .inr ht.fault_ne, .inl huntouched, ?_⟩
        rw [ht.bytes]
        exact Nat.zero_le _

section Commands

variable {b : Bus} (h : e.Settled) (hb : b.fifoDepth = e.config.fifoDepth)
  (hi : b.slave.toNat = i.val) (hne : command ≠ []) (hfit : command.length ≤ b.fifoDepth)

include h hb hi hne hfit

/-- A command whose response does not matter. -/
theorem Settled.ends_send :
    Attempt.Ends block (b.send command) e (fun _ t => Answered i command false e [] t)
      (fun _ t => ∃ bytes, Refused i command false e bytes t) := by
  refine Proc.Ends.bind (h.ends_transaction hb hi hne hfit false) ?_
  intro r t ht
  obtain ⟨bytes, outcome⟩ := r
  cases outcome with
  | ok =>
    have hbytes : bytes = [] := ht.bytes_eq
    subst hbytes
    exact Proc.Ends.pure ht
  | error error => exact Proc.Ends.pure ⟨bytes, ht⟩

/-- A command for its response. -/
theorem Settled.ends_exchange :
    Attempt.Ends block (b.exchange command) e
      (fun response t => Answered i command true e response t ∧
        response = ((e.chip i).react e.config command).response)
      (fun _ t => ∃ bytes, Refused i command true e bytes t) := by
  refine Attempt.Ends.bind_lift (h.ends_transaction hb hi hne hfit true) ?_
  intro r t ht
  obtain ⟨bytes, outcome⟩ := r
  cases outcome with
  | ok =>
    have hbytes : bytes = ((e.chip i).react e.config command).response := ht.bytes_eq
    have hinto : Arrival.into ⟨bytes, .ok ()⟩ command = bytes := by
      simp [Arrival.into, hbytes, Chip.length_react_response]
    refine Attempt.Ends.pure ?_
    rw [hinto]
    exact ⟨ht, hbytes⟩
  | error error => exact Attempt.Ends.throw ⟨bytes, ht⟩

end Commands

end NorFlash.Emulator
