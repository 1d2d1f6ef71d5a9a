import NorFlash.Proofs.Access
import NorFlash.Proofs.Reaction

/-!
# Burst — one burst on the emulator, with any fault armed

`Settled` is what every transaction starts from and comes back to. Its FIFOs
can be emptied unless it is blocked; a burst on empty FIFOs is then carried out
by the selected chip, or dropped by a fault.
-/

namespace NorFlash

namespace Fault

/-- The driver can notice the fault: an error fault raises an error bit. -/
def Shows : Fault → Prop
  | .error bits => Status.hasError bits = true
  | _ => True

instance : DecidablePred Shows
  | .error _ => inferInstanceAs (Decidable (_ = true))
  | .stall | .extraRx | .shortRx | .stuckFifo => inferInstanceAs (Decidable True)

/-- The fault keeps the command from the chip. -/
def drops : Fault → Bool
  | .stall | .error _ => true
  | _ => false

/-- The FIFOs cannot be emptied after the fault. -/
def clogs : Fault → Bool
  | .error bits => decide (bits &&& (Status.txFull ||| Status.rxFull) ≠ 0)
  | .stuckFifo => true
  | _ => false

end Fault

namespace Emulator

variable {e t : Emulator} {i : Fin maxSlaves} {command : Bytes}

/-! ## The chips -/

/-- The chip of slave `i`. -/
abbrev chip (e : Emulator) (i : Fin maxSlaves) : Chip :=
  getElem e.chips i i.isLt

/-- The chips of `e` after the one of slave `i` became `chip`. -/
abbrev chipsWith (e : Emulator) (i : Fin maxSlaves) (chip : Chip) : Vector Chip maxSlaves :=
  e.chips.set i chip i.isLt

theorem chip_of_chipsWith {chip : Chip} (h : t.chips = e.chipsWith i chip) (j : Fin maxSlaves) :
    t.chip j = if i = j then chip else e.chip j := by
  rw [Emulator.chip, h]
  simp only [Fin.getElem_fin, Vector.getElem_set, Fin.ext_iff]

theorem chip_of_chips (h : t.chips = e.chips) (j : Fin maxSlaves) : t.chip j = e.chip j := by
  rw [Emulator.chip, h]

theorem chipsWith_chip : e.chipsWith i (e.chip i) = e.chips := Vector.set_getElem_self i.isLt

theorem chipsWith_of_chipsWith {chip chip' : Chip} (h : t.chips = e.chipsWith i chip) :
    t.chipsWith i chip' = e.chipsWith i chip' := by
  rw [chipsWith, h, Vector.set_set]

/-! ## Settled emulators -/

/-- The control word between bursts: transfers are inhibited. -/
def idleControl : UInt32 := Control.initState &&& ~~~Control.fifoResets

/-- The emulator as a transaction finds it. Raised error bits stand over empty
FIFOs, and a stuck RX FIFO holds a byte. -/
structure Settled (e : Emulator) : Prop where
  control : e.control = idleControl
  depth_pos : 0 < e.config.fifoDepth
  quiet : e.errors ≠ 0 → e.tx.toList = [] ∧ e.rx.toList = []
  stuck : e.rxStuck = true → e.errors = 0 ∧ e.rx.toList ≠ []
  shows : ∀ plan, e.armed = some plan → plan.fault.Shows

/-- The emulator after a FIFO reset. -/
def emptied (e : Emulator) : Emulator :=
  { e with tx := .empty, rx := if e.rxStuck then e.rx else .empty }

theorem rx_emptied (hfree : ¬ e.Blocked) : e.emptied.rx = .empty :=
  if_neg fun hs => hfree (.inl hs)

/-- Empty FIFOs stay empty. -/
theorem emptied_eq (htx : e.tx.toList = []) (hrx : e.rx.toList = []) : e.emptied = e := by
  obtain ⟨config, chips, control, slaveSelect, tx, rx, errors, rxStuck, armed, stats⟩ := e
  obtain rfl : tx = .empty := Fifo.eq_empty htx
  obtain rfl : rx = .empty := Fifo.eq_empty hrx
  simp only [emptied, ite_self]

theorem Settled.emptied (h : e.Settled) : e.emptied.Settled where
  control := h.control
  depth_pos := h.depth_pos
  quiet he := by
    refine ⟨rfl, ?_⟩
    rw [Emulator.emptied]
    split
    · exact (h.quiet he).2
    · rfl
  stuck hs := by
    have hs : e.rxStuck = true := hs
    rw [Emulator.emptied, hs]
    exact h.stuck hs
  shows := h.shows

/-- The FIFOs report empty when they are, unless something is in the way. -/
theorem Settled.isIdle_iff (h : e.Settled) :
    Status.isIdle e.status = true ↔ e.tx.toList = [] ∧ e.rx.toList = [] ∧ ¬ e.Blocked := by
  have hempty : e.tx.toList = [] → e.rx.toList = [] →
      (Status.isIdle e.status = true ↔ ¬ e.Blocked) := by
    intro htx hrx
    rw [status_of_empty h.depth_pos htx hrx, isIdle_or_fifosEmpty, Blocked, not_or,
      Classical.not_not]
    constructor
    · intro hbits
      exact ⟨fun hs => (h.stuck hs).2 hrx, hbits⟩
    · exact And.right
  by_cases herr : e.errors = 0
  · constructor
    · intro hidle
      obtain ⟨htx, hrx⟩ := empty_of_isIdle_status herr hidle
      exact ⟨htx, hrx, (hempty htx hrx).mp hidle⟩
    · intro hpost
      obtain ⟨htx, hrx, hfree⟩ := hpost
      exact (hempty htx hrx).mpr hfree
  · obtain ⟨htx, hrx⟩ := h.quiet herr
    simp only [htx, hrx, true_and]
    exact hempty htx hrx

/-! ## Control words -/

theorem writeControl_resets (hc : e.control = idleControl) :
    e.writeControl (idleControl ||| Control.fifoResets) = e.emptied := by
  have htx : hasAll (idleControl ||| Control.fifoResets) Control.txFifoReset = true := by decide
  have hrx : hasAll (idleControl ||| Control.fifoResets) Control.rxFifoReset = true := by decide
  have hinhibit : hasAll (idleControl ||| Control.fifoResets) Control.transInhibit = true := by
    decide
  have hword : (idleControl ||| Control.fifoResets) &&& ~~~Control.fifoResets = idleControl := by
    decide
  obtain ⟨config, chips, control, slaveSelect, tx, rx, errors, rxStuck, armed, stats⟩ := e
  subst hc
  simp only [writeControl, resetFifos, startsBurst, htx, hrx, hinhibit, hword, emptied]
  cases rxStuck <;> rfl

theorem writeControl_idle (e : Emulator) :
    e.writeControl idleControl = { e with control := idleControl } := by
  have htx : hasAll idleControl Control.txFifoReset = false := by decide
  have hrx : hasAll idleControl Control.rxFifoReset = false := by decide
  have hinhibit : hasAll idleControl Control.transInhibit = true := by decide
  have hword : idleControl &&& ~~~Control.fifoResets = idleControl := by decide
  simp only [writeControl, resetFifos, startsBurst, htx, hrx, hinhibit, hword]
  simp

theorem idleControl_or_inhibit : idleControl ||| Control.transInhibit = idleControl := by decide

theorem run_setControl_idle (hc : e.control = idleControl) :
    (Proc.setControl idleControl).run block e = (some (), e) := by
  rw [run_setControl, writeControl_idle, ← hc]

/-- The word that lifts the inhibit bit resets no FIFO. -/
theorem resetFifos_start (e : Emulator) :
    e.resetFifos (idleControl &&& ~~~Control.transInhibit) = e := by
  have htx : hasAll (idleControl &&& ~~~Control.transInhibit) Control.txFifoReset = false := by
    decide
  have hrx : hasAll (idleControl &&& ~~~Control.transInhibit) Control.rxFifoReset = false := by
    decide
  simp [resetFifos, htx, hrx]

theorem startsBurst_start (hc : e.control = idleControl) (htx : e.tx.toList ≠ []) :
    e.startsBurst (idleControl &&& ~~~Control.transInhibit) = true := by
  have hinhibited : hasAll idleControl Control.transInhibit = true := by decide
  have hmaster : hasAll (idleControl &&& ~~~Control.transInhibit)
      (Control.enabled ||| Control.masterMode) = true := by decide
  have hlifted : hasAll (idleControl &&& ~~~Control.transInhibit) Control.transInhibit = false := by
    decide
  have hwaits : e.tx.isEmpty = false := by
    rw [← Bool.not_eq_true, Fifo.isEmpty_iff]
    exact htx
  simp [startsBurst, hc, hinhibited, hmaster, hlifted, hwaits]

/-- Lifting the inhibit bit runs the bytes that wait. -/
theorem writeControl_start (hc : e.control = idleControl) (htx : e.tx.toList ≠ []) :
    e.writeControl (idleControl &&& ~~~Control.transInhibit) =
      { e with control := idleControl &&& ~~~Control.transInhibit }.runBurst := by
  have hword : (idleControl &&& ~~~Control.transInhibit) &&& ~~~Control.fifoResets =
      idleControl &&& ~~~Control.transInhibit := by decide
  rw [writeControl, resetFifos_start, startsBurst_start hc htx, if_pos rfl, hword]

/-! ## Emptying the FIFOs -/

theorem Settled.ends_resetFifos (h : e.Settled) (b : Bus) :
    Attempt.Ends block b.resetFifos e (fun _ t => ¬ e.Blocked ∧ t = e.emptied)
      (fun _ t => e.Blocked ∧ ∃ time, t = e.emptied.atTime time) := by
  apply Attempt.Ends.step (watches_fifosIdle e)
  split
  · rename_i hyes
    obtain ⟨htx, hrx, hfree⟩ := h.isIdle_iff.mp hyes
    exact Attempt.Ends.pure ⟨hfree, (emptied_eq htx hrx).symm⟩
  · apply Attempt.Ends.step run_control
    apply Attempt.Ends.step run_setControl
    rw [h.control, writeControl_resets h.control]
    cases hidle : Status.isIdle e.emptied.status with
    | true =>
      apply Attempt.Ends.step (run_await watches_fifosIdle b hidle)
      exact Attempt.Ends.pure ⟨(h.emptied.isIdle_iff.mp hidle).2.2, rfl⟩
    | false =>
      -- after a reset the RX FIFO can only hold what is stuck in it
      have hb : e.Blocked := by
        refine Classical.byContradiction fun hfree => ?_
        have hrx : e.emptied.rx.toList = [] := by rw [rx_emptied hfree]; rfl
        rw [h.emptied.isIdle_iff.mpr ⟨rfl, hrx, hfree⟩] at hidle
        cases hidle
      obtain ⟨time, hr⟩ := run_await_never watches_fifosIdle b hidle
      apply Attempt.Ends.step hr
      apply Attempt.Ends.step run_status
      apply Attempt.Ends.step run_log
      exact Attempt.Ends.throw ⟨hb, time, rfl⟩

/-! ## Bursts -/

theorem selected?_eq {slave : UInt8} (hi : slave.toNat = i.val)
    (hs : e.slaveSelect = Bus.selectWord slave) : e.selected? = some i := by
  have hslave : slave = UInt8.ofNat i.val := by
    rw [← hi, UInt8.ofNat_toNat]
  have h0 : Bus.selectWord 0 &&& 0b11 = 0b10 := by decide
  have h1 : Bus.selectWord 1 &&& 0b11 ≠ 0b10 := by decide
  have h2 : Bus.selectWord 1 &&& 0b11 = 0b01 := by decide
  rw [selected?, hs, hslave]
  match i with
  | ⟨0, _⟩ => exact if_pos h0
  | ⟨1, _⟩ => exact (if_neg h1).trans (if_pos h2)

/-- The emulator after its selected chip carried the waiting bytes out. -/
def carryOut (e : Emulator) (i : Fin maxSlaves) (command : Bytes) (fault : Option Fault)
    (armed : Option ArmedFault) : Emulator :=
  let reaction := (e.chip i).react e.config command
  { e with
    errors := 0
    armed
    tx := .empty
    rx := arrive e.rx reaction.response fault
    rxStuck := e.rxStuck || fault == some .stuckFifo
    chips := e.chipsWith i reaction.chip
    stats := observe { e.stats with
      bursts := e.stats.bursts + 1
      maxBurstLen := max e.stats.maxBurstLen command.length } i reaction.effect }

/-- The emulator after a burst that a fault, or none, strikes. -/
def afterBurst (e : Emulator) (i : Fin maxSlaves) (command : Bytes) :
    Option Fault → Option ArmedFault → Emulator
  | some .stall, armed => { e with errors := 0, armed }
  | some (.error bits), armed => { e with errors := bits, armed, tx := .empty }
  | fault, armed => e.carryOut i command fault armed

/-- A burst is dropped or carried out, as the fault that strikes it says. -/
theorem runBurst_eq (htx : e.tx.toList = command) (hsel : e.selected? = some i)
    {fault : Option Fault} {armed : Option ArmedFault}
    (hs : strike e.armed (command.headD 0) = (fault, armed)) :
    e.runBurst = e.afterBurst i command fault armed := by
  have hsel' : ∀ (bits : UInt32) (armed : Option ArmedFault) (tx : Fifo) (stats : EmulatorStats),
      { e with errors := bits, armed, tx, stats }.selected? = some i := fun _ _ _ _ => hsel
  subst htx
  rw [runBurst, hs]
  cases fault with
  | none => simp only [execute, hsel']; rfl
  | some fault => cases fault <;> simp only [execute, hsel'] <;> rfl

theorem run_push {bytes : Bytes} (hfit : e.tx.size + bytes.length ≤ e.config.fifoDepth) :
    ∃ q : Fifo, q.toList = e.tx.toList ++ bytes ∧
      (Bus.push bytes).run block e = (some (), { e with tx := q }) := by
  induction bytes generalizing e with
  | nil => exact ⟨e.tx, (List.append_nil _).symm, rfl⟩
  | cons v rest ih =>
    rw [List.length_cons] at hfit
    have hsend : (Proc.sendByte v).run block e = (some (), { e with tx := e.tx.push v }) := by
      rw [Proc.sendByte, run_store, write, if_pos (by omega), UInt8.toUInt8_toUInt32]
    obtain ⟨q, hq, hr⟩ := ih (e := { e with tx := e.tx.push v }) (by
      change e.tx.size + 1 + rest.length ≤ e.config.fifoDepth
      omega)
    refine ⟨q, ?_, ?_⟩
    · rw [hq, Fifo.toList_push, List.append_assoc]
      rfl
    · rw [Bus.push, Proc.bind_eq, Proc.run_bind, hsend]
      exact hr

/-- A burst of `command` on chip `i` can start: the FIFOs are empty and the
bytes fit. -/
structure Poised (e : Emulator) (i : Fin maxSlaves) (command : Bytes) : Prop where
  control : e.control = idleControl
  tx : e.tx.toList = []
  rx : e.rx.toList = []
  selected : e.selected? = some i
  command_ne : command ≠ []
  fits : command.length ≤ e.config.fifoDepth
  shows : ∀ plan, e.armed = some plan → plan.fault.Shows

/-- The bytes of the command fill the TX FIFO. -/
theorem Poised.run_push (h : e.Poised i command) :
    ∃ q : Fifo, q.toList = command ∧
      (Bus.push command).run block e = (some (), { e with tx := q }) := by
  have hsize : e.tx.size + command.length ≤ e.config.fifoDepth := by
    rw [Fifo.size_eq_length, h.tx]
    simpa using h.fits
  obtain ⟨q, hq, hpush⟩ := Emulator.run_push hsize
  rw [h.tx, List.nil_append] at hq
  exact ⟨q, hq, hpush⟩

/-- The fault that strikes is the one that is planned. -/
theorem strike_fault {Q : Fault → Prop} (hs : ∀ plan, e.armed = some plan → Q plan.fault)
    {op : UInt8} {fault : Fault} (h : (strike e.armed op).1 = some fault) : Q fault := by
  rw [strike.eq_def] at h
  split at h
  · cases h
  · rename_i plan hplan
    split at h
    · split at h
      · cases h
        exact hs plan hplan
      · cases h
    · cases h

theorem ends_checkErrors {A : Unit → Emulator → Prop} {E : Error → Emulator → Prop}
    (hclear : Status.hasError e.status = false → A () e)
    (hraised : Status.hasError e.status = true → ∀ error, E error e) :
    Attempt.Ends block Bus.checkErrors e A E := by
  apply Attempt.Ends.step run_status
  cases h : Status.hasError e.status with
  | false => exact Attempt.Ends.pure (hclear h)
  | true =>
    apply Attempt.Ends.step run_log
    exact Attempt.Ends.throw (hraised h _)

/-- A burst is carried out, unless a fault drops it. -/
theorem Poised.ends_transmit (h : e.Poised i command) {b : Bus}
    (hb : b.fifoDepth = e.config.fifoDepth) {fault : Option Fault} {armed : Option ArmedFault}
    (hs : strike e.armed (command.headD 0) = (fault, armed)) :
    Attempt.Ends block (b.transmit command) e
      (fun _ t => (∀ f, fault = some f → f.drops = false) ∧ t = e.carryOut i command fault armed)
      (fun _ t => fault ≠ none ∧ ∃ tx bits time,
        (bits ≠ 0 → tx.toList = [] ∧ fault = some (.error bits)) ∧
          t = { e with errors := bits, armed, tx }.atTime time) := by
  obtain ⟨q, hq, hpush⟩ := h.run_push
  have hstart := writeControl_start (e := { e with tx := q }) h.control
    (by rw [hq]; exact h.command_ne)
  have hrun := runBurst_eq (i := i)
    (e := { e with tx := q, control := idleControl &&& ~~~Control.transInhibit }) hq h.selected hs
  -- once the burst ran, the control word is restored whatever came of it
  have hidle : ∀ u : Emulator, (Proc.setControl idleControl).run block u =
      (some (), { u with control := idleControl }) := by
    intro u
    rw [run_setControl, writeControl_idle]
  rw [Bus.transmit, if_neg (by have := h.fits; omega)]
  apply Attempt.Ends.step run_control
  rw [h.control, idleControl_or_inhibit]
  apply Attempt.Ends.step (run_setControl_idle h.control)
  apply Attempt.Ends.step hpush
  apply Attempt.Ends.step run_setControl
  rw [hstart, hrun]
  match fault with
  | some .stall =>
    -- the bytes wait in the TX FIFO for ever
    have hwaits : hasAny ({ e with
        tx := q, control := idleControl &&& ~~~Control.transInhibit }.afterBurst i command
          (some .stall) armed).status (Status.txEmpty ||| Status.errors) = false := by
      rw [← Bool.not_eq_true, txSettled_status rfl]
      exact fun hnil => h.command_ne (hq ▸ hnil)
    obtain ⟨time, hr⟩ := run_await_never watches_txSettled b hwaits
    apply Attempt.Ends.step hr
    apply Attempt.Ends.step (hidle _)
    apply Attempt.Ends.step run_status
    rw [hasError_status rfl]
    apply Attempt.Ends.step run_log
    refine Attempt.Ends.throw ⟨nofun, q, 0, time, nofun, ?_⟩
    rw [← h.control]
    rfl
  | some (.error bits) =>
    have hshows : Status.hasError bits = true := strike_fault h.shows (congrArg Prod.fst hs)
    have hraised : ∀ u : Emulator, u.errors = bits → Status.hasError u.status = true :=
      fun u hu => hasAny_status (by rw [hu]; exact hshows)
    apply Attempt.Ends.step (run_await watches_txSettled b (hasAny_mask_or (hraised _ rfl)))
    apply Attempt.Ends.step (hidle _)
    refine ends_checkErrors (fun hclear => ?_) fun _ _ =>
      ⟨nofun, .empty, bits, e.stats.delayedUs, fun _ => ⟨rfl, rfl⟩, ?_⟩
    · rw [hraised _ rfl] at hclear
      cases hclear
    · rw [← h.control]
      rfl
  | none | some .extraRx | some .shortRx | some .stuckFifo =>
    apply Attempt.Ends.step (run_await watches_txSettled b ((txSettled_status rfl).mpr rfl))
    apply Attempt.Ends.step (hidle _)
    refine ends_checkErrors (fun _ => ⟨?_, ?_⟩) fun hraised => ?_
    · intro f hf
      cases hf <;> rfl
    · rw [← h.control]
      rfl
    · rw [hasError_status rfl] at hraised
      cases hraised

/-! ## Responses -/

/-- As many bytes are pulled as there are, up to the expected count, and it is
an error if there are more or fewer. -/
theorem ends_pull (herr : e.errors = 0) (expected left : Nat) (got : Bytes) :
    (Bus.pull expected none left got.length got).Ends block e fun arrival t =>
      ∃ q : Fifo, t = { e with rx := q } ∧ q.toList = e.rx.toList.drop left ∧
        arrival.bytes = got.reverse ++ e.rx.toList.take left ∧
        (arrival.outcome = .ok () ↔ e.rx.toList.length = left) := by
  -- a status without error bits shows what the FIFO holds
  have hempty : ∀ {u : Emulator}, u.errors = 0 →
      Bus.rxEmpty.run block u = (some (decide (u.rx.toList = [])), u) := by
    intro u hu
    rw [watches_rxEmpty u]
    exact congrArg (fun v => (some v, u))
      (Bool.eq_iff_iff.mpr ((rxEmpty_status hu).trans decide_eq_true_iff.symm))
  induction left generalizing e got with
  | zero =>
    apply Proc.Ends.step (hempty herr)
    by_cases hrx : e.rx.toList = []
    · rw [decide_eq_true hrx]
      refine Proc.Ends.bind (ends_checkErrors (A := fun _ t => t = e) (E := fun _ _ => False)
        (fun _ => rfl) fun hraised => ?_) ?_
      · rw [hasError_status herr] at hraised
        cases hraised
      · intro r t ht
        rcases r with _ | _
        · exact ht.elim
        · refine Proc.Ends.pure ⟨e.rx, ht, rfl, by simp, ?_⟩
          simp [hrx]
    · rw [decide_eq_false hrx]
      apply Proc.Ends.step run_log
      refine Proc.Ends.pure ⟨e.rx, rfl, rfl, by simp, ?_⟩
      simp [hrx]
  | succ left ih =>
    apply Proc.Ends.step (hempty herr)
    by_cases hrx : e.rx.toList = []
    · rw [decide_eq_true hrx]
      refine Proc.Ends.pure ⟨e.rx, rfl, by simp [hrx], by simp [hrx], ?_⟩
      simp [hrx]
    · rw [decide_eq_false hrx]
      cases hpop : e.rx.pop? with
      | none => exact absurd ((Fifo.pop?_eq_none_iff _).mp hpop) hrx
      | some head =>
        obtain ⟨v, q⟩ := head
        have hlist := Fifo.toList_of_pop? hpop
        apply Proc.Ends.step (run_pullByte hpop)
        refine (ih (e := { e with rx := q }) herr (v :: got)).mono ?_
        intro arrival t hpost
        obtain ⟨r, ht, hr, hbytes, hok⟩ := hpost
        refine ⟨r, ht, ?_, ?_, ?_⟩
        · rw [hr, hlist, List.drop_succ_cons]
        · rw [hbytes, hlist, List.take_succ_cons, List.reverse_cons, List.append_assoc]
          rfl
        · rw [hok, hlist, List.length_cons, Nat.succ_inj]

theorem toList_arrive {rx : Fifo} (hrx : rx.toList = []) (response : Bytes)
    (fault : Option Fault) :
    (arrive rx response fault).toList =
      match fault with
      | some .extraRx | some .stuckFifo => response ++ [0]
      | some .shortRx => response.dropLast
      | _ => response := by
  rcases fault with _ | (_ | _ | _ | _ | _) <;> simp [arrive, hrx]

/-- A burst that went through: the chip carried the command out, and a wanted
response is taken if it has the right length. -/
structure Transferred (i : Fin maxSlaves) (command : Bytes) (wanted : Bool) (fault : Option Fault)
    (armed : Option ArmedFault) (e : Emulator) (arrival : Arrival) (t : Emulator) : Prop where
  state : ∃ q : Fifo, t = { e.carryOut i command fault armed with rx := q } ∧
    (fault = some .stuckFifo → q.toList ≠ [])
  passed : ∀ f, fault = some f → f.drops = false
  outcome : arrival.outcome = .ok () ↔ (wanted = true → fault = none)
  bytes : arrival.outcome = .ok () →
    arrival.bytes = if wanted then ((e.chip i).react e.config command).response else []
  length_le : arrival.bytes.length ≤ command.length

/-- A burst that a fault kept from the chip. -/
structure Dropped (fault : Option Fault) (armed : Option ArmedFault) (e : Emulator)
    (arrival : Arrival) (t : Emulator) : Prop where
  state : ∃ tx bits time, (bits ≠ 0 → tx.toList = [] ∧ fault = some (.error bits)) ∧
    t = { e with errors := bits, armed, tx }.atTime time
  fault_ne : fault ≠ none
  outcome : arrival.outcome ≠ .ok ()
  bytes : arrival.bytes = []

/-- One burst with its response. -/
theorem Poised.ends_transfer (h : e.Poised i command) {b : Bus}
    (hb : b.fifoDepth = e.config.fifoDepth) {fault : Option Fault} {armed : Option ArmedFault}
    (hs : strike e.armed (command.headD 0) = (fault, armed)) (wanted : Bool) :
    (b.transfer command wanted).Ends block e fun arrival t =>
      Transferred i command wanted fault armed e arrival t ∨ Dropped fault armed e arrival t := by
  refine Proc.Ends.bind (h.ends_transmit hb hs) ?_
  intro r t ht
  rcases r with error | _
  · obtain ⟨hfault, hstate⟩ := ht
    exact Proc.Ends.pure (.inr ⟨hstate, hfault, nofun, rfl⟩)
  · obtain ⟨hpassed, rfl⟩ := ht
    have hlen := Chip.length_react_response e.config (e.chip i) command
    have hpos : 0 < command.length := List.length_pos_iff.mpr h.command_ne
    have hrx := toList_arrive h.rx ((e.chip i).react e.config command).response fault
    have hpull := ends_pull (e := e.carryOut i command fault armed) rfl command.length
      command.length []
    generalize hresponse : ((e.chip i).react e.config command).response = response at hlen hrx
    have hcarried : (e.carryOut i command fault armed).rx = arrive e.rx response fault := by
      rw [← hresponse]
      rfl
    -- the faults that pass change how many bytes come back, and nothing else does
    have hfull : (arrive e.rx response fault).toList.length = command.length ↔ fault = none := by
      rw [hrx]
      rcases fault with _ | (_ | _ | _ | _ | _)
      · simp [hlen]
      · cases hpassed _ rfl
      · cases hpassed _ rfl
      all_goals simp; omega
    have hstuck : fault = some .stuckFifo →
        (arrive e.rx response fault).toList.drop command.length ≠ [] := by
      rintro rfl
      rw [hrx, ← hlen]
      simp
    rw [hcarried] at hpull
    cases wanted with
    | true =>
      rw [Bus.receive_self]
      refine hpull.mono ?_
      intro arrival t hpost
      obtain ⟨q, rfl, hq, hbytes, hok⟩ := hpost
      refine .inl ⟨⟨q, rfl, fun hf => hq ▸ hstuck hf⟩, hpassed, ?_, ?_, ?_⟩
      · rw [hok, hfull]
        exact ⟨fun hf _ => hf, fun hf => hf rfl⟩
      · intro hdone
        rw [hfull.mp (hok.mp hdone)] at hrx
        rw [hbytes, hfull.mp (hok.mp hdone), hrx, hresponse, ← hlen]
        simp
      · rw [hbytes]
        simp only [List.reverse_nil, List.nil_append, List.length_take]
        exact Nat.min_le_left _ _
    | false =>
      refine Proc.Ends.bind (Proc.Ends.bind hpull fun arrival t hp => Proc.Ends.pure
        (A := fun _ u => ∃ q : Fifo, u = { e.carryOut i command fault armed with rx := q } ∧
          q.toList = (arrive e.rx response fault).toList.drop command.length) ?_) ?_
      · obtain ⟨q, ht, hq, _⟩ := hp
        exact ⟨q, ht, hq⟩
      · intro outcome t hpost
        obtain ⟨q, rfl, hq⟩ := hpost
        have hdone : Transferred i command false fault armed e ⟨[], .ok ()⟩
            { e.carryOut i command fault armed with rx := q } :=
          ⟨⟨q, rfl, fun hf => hq ▸ hstuck hf⟩, hpassed, ⟨nofun, fun _ => rfl⟩, fun _ => rfl,
            Nat.zero_le _⟩
        cases outcome with
        | ok => exact Proc.Ends.pure (.inl hdone)
        | error error =>
          apply Proc.Ends.step run_log
          exact Proc.Ends.pure (.inl hdone)

end Emulator

end NorFlash
