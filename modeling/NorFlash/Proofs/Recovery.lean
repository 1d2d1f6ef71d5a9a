import NorFlash.Proofs.Discipline
import NorFlash.Proofs.NorRules
import NorFlash.Proofs.Orders

/-!
# Recovery — a transaction from whatever a failed one left

Where no fault is armed a run is determined. `Proc.Goes` says in which value and
state it ends and which commands it delivers, and that no other burst is run.

A failed burst may leave bytes in both FIFOs, raised errors, a selected slave and
an open inhibit bit behind. As long as the controller runs as a master and its FIFOs
can be reset, the next transaction is one burst of its own bytes all the same.
-/

namespace NorFlash

open Emulator (block strike)

variable {α β : Type} {e m t : Emulator} {b : Bus} {i : Fin maxSlaves} {command : Bytes}
  {word : UInt32}

/-! ## Runs and their bursts -/

/-- From `e` the procedure ends in `a` and `t`. Its bursts are the deliveries
`ds`: none misses the chips. -/
structure Proc.Goes (p : Proc α) (e : Emulator) (ds : List Delivery) (a : α) (t : Emulator) :
    Prop where
  run : p.run block e = (some a, t)
  deliveries : p.deliveries e = ds
  bursts : t.stats.bursts = e.stats.bursts + ds.length

namespace Proc.Goes

variable {p : Proc α} {f : α → Proc β} {ds ds' : List Delivery} {a : α} {r : β}

theorem silent (hp : p.Silent) (hrun : p.run block e = (some a, t))
    (hbursts : t.stats.bursts = e.stats.bursts) : p.Goes e [] a t :=
  ⟨hrun, hp e, hbursts⟩

theorem pure : (Pure.pure a : Proc α).Goes e [] a e :=
  silent (.pure a) rfl rfl

theorem bind (hp : p.Goes e ds a m) (hf : (f a).Goes m ds' r t) :
    (p >>= f).Goes e (ds ++ ds') r t where
  run := by
    rw [bind_eq, run_bind, hp.run]
    exact hf.run
  deliveries := by
    rw [deliveries_bind, hp.run, hp.deliveries, ← hf.deliveries]
  bursts := by
    rw [hf.bursts, hp.bursts, List.length_append, Nat.add_assoc]

/-- A first part that runs no burst. -/
theorem step (hp : p.Goes e [] a m) (hf : (f a).Goes m ds r t) : (p >>= f).Goes e ds r t :=
  bind hp hf

/-- A last part that runs no burst. -/
theorem last (hp : p.Goes e ds a m) (hf : (f a).Goes m [] r t) : (p >>= f).Goes e ds r t := by
  have h := bind hp hf
  rwa [List.append_nil] at h

/-! ### Attempts -/

theorem lift (hp : p.Goes e ds a t) : (liftM p : Attempt α).run.Goes e ds (.ok a) t :=
  hp.last pure

variable {x : Attempt α} {g : α → Attempt β} {o : Except Error β}

theorem bind_ok (hx : x.run.Goes e ds (.ok a) m) (hg : (g a).run.Goes m ds' o t) :
    (x >>= g).run.Goes e (ds ++ ds') o t :=
  bind hx hg

theorem bind_error {error : Error} (hx : x.run.Goes e ds (.error error) t) :
    (x >>= g).run.Goes e ds (.error error) t :=
  last hx pure

/-- A last part of an attempt that runs no burst. -/
theorem last_ok (hx : x.run.Goes e ds (.ok a) m) (hg : (g a).run.Goes m [] o t) :
    (x >>= g).run.Goes e ds o t :=
  last hx hg

/-- A first step of an attempt that cannot fail and runs no burst. -/
theorem step_lift {g : α → Attempt β} (hp : p.Goes e [] a m) (hg : (g a).run.Goes m ds o t) :
    (liftM p >>= g).run.Goes e ds o t :=
  bind_ok hp.lift hg

end Proc.Goes

/-! ## Control words -/

namespace Control

/-- No FIFO reset bit is set. The bits clear themselves, so the control register never
shows one. -/
def Released (word : UInt32) : Prop :=
  word &&& fifoResets = 0

namespace Released

theorem of_cleared (word : UInt32) : Released (word &&& ~~~fifoResets) := by
  have hcleared : ~~~fifoResets &&& fifoResets = 0 := by decide
  rw [Released, UInt32.and_assoc, hcleared, UInt32.and_zero]

theorem inhibit (h : Released word) : Released (word ||| transInhibit) := by
  rw [Released, or_and_distrib, h]
  decide

theorem lift (h : Released word) : Released (word &&& ~~~transInhibit) := by
  rw [Released, UInt32.and_assoc, UInt32.and_comm _ fifoResets, ← UInt32.and_assoc, h,
    UInt32.zero_and]

/-- Clearing the reset bits changes nothing. -/
theorem cleared (h : Released word) : word &&& ~~~fifoResets = word := by
  have hsplit := or_and_distrib fifoResets (~~~fifoResets) word
  rw [UInt32.or_not_self, UInt32.neg_one_and, UInt32.and_comm fifoResets, h, UInt32.zero_or,
    UInt32.and_comm] at hsplit
  exact hsplit.symm

theorem cleared_or (h : Released word) : (word ||| fifoResets) &&& ~~~fifoResets = word := by
  rw [or_and_distrib, h.cleared, UInt32.and_not_self, UInt32.or_zero]

theorem hasAll_eq_false (h : Released word) (bit : UInt32) (hbit : fifoResets &&& bit = bit)
    (hne : bit ≠ 0) : hasAll word bit = false := by
  have hclear : word &&& bit = 0 := by
    rw [← hbit, ← UInt32.and_assoc, h, UInt32.zero_and]
  rw [hasAll, hclear, beq_eq_false_iff_ne]
  exact hne.symm

end Released

end Control

namespace Emulator

theorem resetFifos_released (h : Control.Released word) (e : Emulator) :
    e.resetFifos word = e := by
  have htx := h.hasAll_eq_false Control.txFifoReset (by decide) (by decide)
  have hrx := h.hasAll_eq_false Control.rxFifoReset (by decide) (by decide)
  simp [resetFifos, htx, hrx]

theorem resetFifos_resets (word : UInt32) (e : Emulator) :
    e.resetFifos (word ||| Control.fifoResets) = e.emptied := by
  have hbit : ∀ bit, Control.fifoResets &&& bit = bit →
      hasAll (word ||| Control.fifoResets) bit = true := by
    intro bit hbit
    rw [hasAll, ← hbit, ← UInt32.and_assoc, beq_iff_eq.mp (hasAll_or_self word _)]
    simp
  simp only [resetFifos, emptied, hbit Control.txFifoReset (by decide),
    hbit Control.rxFifoReset (by decide)]
  cases e.rxStuck <;> rfl

/-- Empty TX FIFOs hold nothing that a burst could run. -/
theorem startsBurst_of_empty (htx : e.tx.toList = []) (word : UInt32) :
    e.startsBurst word = false := by
  rw [startsBurst, (Fifo.isEmpty_iff _).mpr htx]
  simp

theorem startsBurst_of_inhibits (h : Inhibits word) (e : Emulator) :
    e.startsBurst word = false := by
  rw [startsBurst, h]
  simp

theorem control_runBurst (e : Emulator) : e.runBurst.control = e.control := by
  rw [runBurst]
  generalize strike e.armed (e.tx.toList.headD 0) = struck
  obtain ⟨fault, armed⟩ := struck
  rcases fault with _ | (_ | _ | _ | _ | _) <;> simp only [execute] <;> try split <;> rfl

theorem control_writeControl (e : Emulator) (word : UInt32) :
    (e.writeControl word).control = word &&& ~~~Control.fifoResets := by
  rw [writeControl]
  split
  · exact control_runBurst _
  · rfl

theorem released_afterReset : Control.Released controlAfterReset := by
  rw [Control.Released]
  decide

/-- **Reset bits clear themselves**: no traffic leaves one in the control register. -/
theorem Arises.released (h : Arises e) : Control.Released e.control := by
  induction h with
  | fresh => exact released_afterReset
  | @loaded e _ slave offset data ih =>
    rcases load_eq e slave offset data with heq | ⟨j, contents, -, heq⟩
    · rw [heq]
      exact ih
    · rw [heq]
      exact ih
  | occupied _ ht ih =>
    obtain ⟨j, rfl⟩ := setBusy?_eq ht
    exact ih
  | armed _ plan ih => exact ih
  | delayed _ us ih => exact ih
  | @accessed e _ a ih =>
    cases a with
    | read offset =>
      show Control.Released (block.read offset e).2.control
      rw [block]
      dsimp only
      split
      · rename_i r _
        cases r with
        | rx =>
          rw [read]
          split <;> exact ih
        | _ => exact ih
      · exact ih
    | write offset value =>
      show Control.Released (block.write offset value e).control
      rw [block]
      dsimp only
      split
      · rename_i r _
        cases r with
        | control =>
          rw [write, control_writeControl]
          exact .of_cleared value
        | reset | tx =>
          rw [write]
          split
          · first | exact ih | exact released_afterReset
          · exact ih
        | _ => exact ih
      · exact ih

/-! ## Single accesses -/

theorem goes_status : Proc.status.Goes e [] e.status e :=
  .silent .status run_status rfl

theorem goes_control : Proc.control.Goes e [] e.control e :=
  .silent .control run_control rfl

theorem goes_log {message : Message} : (Proc.log message).Goes e [] () e :=
  .silent (.log _) run_log rfl

theorem goes_await {condition : Proc Bool} {f : UInt32 → Bool} (hp : condition.Passive)
    (hc : Watches condition f) (b : Bus) (hyes : f e.status = true) :
    (b.await condition).Goes e [] (some 0) e :=
  .silent (Bus.passive_await hp b).silent (run_await hc b hyes) rfl

/-- A control word that starts no burst. -/
theorem goes_setControl (word : UInt32) (h : (e.resetFifos word).startsBurst word = false) :
    (Proc.setControl word).Goes e [] ()
      { e.resetFifos word with control := word &&& ~~~Control.fifoResets } := by
  refine ⟨?_, ?_, ?_⟩
  · rw [run_setControl, writeControl, h]
    rfl
  · rw [Proc.setControl, Proc.deliveries_store, delivery?, h]
    rfl
  · rfl

/-- Inhibiting transfers changes nothing else. -/
theorem goes_inhibit (h : Control.Released word) :
    (Proc.setControl (word ||| Control.transInhibit)).Goes e [] ()
      { e with control := word ||| Control.transInhibit } := by
  have hgoes := goes_setControl (e := e) _ (startsBurst_of_inhibits (inhibits_or word) _)
  rwa [resetFifos_released h.inhibit, h.inhibit.cleared] at hgoes

theorem bursts_carryOut (e : Emulator) (i : Fin maxSlaves) (command : Bytes)
    (fault : Option Fault) (armed : Option ArmedFault) :
    (e.carryOut i command fault armed).stats.bursts = e.stats.bursts + 1 := by
  rw [carryOut]
  cases ((e.chip i).react e.config command).effect <;> rfl

/-- A control word that lets the waiting bytes run, as one burst. -/
theorem goes_start (hword : Control.Released word) (hstart : e.startsBurst word = true)
    (harmed : e.armed = none) (hselected : e.selected? = some i) (htx : e.tx.toList = command) :
    (Proc.setControl word).Goes e [⟨i, e.chip i, command⟩] ()
      { e.carryOut i command none none with control := word } := by
  have hs : strike e.armed (command.headD 0) = (none, none) := by rw [harmed]; rfl
  have hburst := runBurst_eq (i := i) (e := { e with control := word }) htx hselected hs
  refine ⟨?_, ?_, bursts_carryOut e i command none none⟩
  · rw [run_setControl, writeControl, resetFifos_released hword, hstart, if_pos rfl,
      hword.cleared, hburst]
    rfl
  · rw [Proc.setControl, Proc.deliveries_store, delivery?, resetFifos_released hword,
      hstart, if_pos rfl, burst?, harmed, hselected, htx]
    rfl

/-! ## Emulators that a transaction brings to rest -/

/-- The controller runs as a master, and nothing keeps its FIFOs from being reset: no fault
is armed, the RX FIFO is not stuck, and no raised error looks like a FIFO bit. The reset bits
are low, as they are in every emulator that arises (`Arises.released`). What the FIFOs hold,
which errors are raised, whether transfers are inhibited and which slave is selected is
open. -/
structure Recoverable (e : Emulator) : Prop where
  depth_pos : 0 < e.config.fifoDepth
  running : hasAll e.control (Control.enabled ||| Control.masterMode) = true
  released : Control.Released e.control
  loose : e.rxStuck = false
  visible : e.errors &&& Status.fifoMask = 0
  unarmed : e.armed = none

/-- The emulator after a command that chip `i` carried out, with its response pulled. -/
def answered (e : Emulator) (i : Fin maxSlaves) (command : Bytes) : Emulator :=
  { e.carryOut i command none none with
    control := e.control ||| Control.transInhibit
    rx := .empty
    slaveSelect := slaveSelectNone }

/-- Errors that hide no FIFO bit leave the status word to tell when the FIFOs are empty. -/
theorem isIdle_status_iff (hdepth : 0 < e.config.fifoDepth)
    (hvisible : e.errors &&& Status.fifoMask = 0) :
    Status.isIdle e.status = true ↔ e.tx.toList = [] ∧ e.rx.toList = [] := by
  have hbits : ∀ word, Status.isIdle (e.errors ||| word) = Status.isIdle word := by
    intro word
    rw [Status.isIdle, Status.fifoBits, or_and_distrib, hvisible, UInt32.zero_or]
    rfl
  have hstatus : Status.isIdle e.status = Status.isIdle { e with errors := 0 }.status := by
    simp only [status, UInt32.or_assoc, hbits, UInt32.zero_or]
  rw [hstatus]
  constructor
  · exact empty_of_isIdle_status (e := { e with errors := 0 }) rfl
  · intro hempty
    rw [status_of_empty (e := { e with errors := 0 }) hdepth hempty.1 hempty.2]
    show Status.isIdle (0 ||| Status.fifosEmpty) = true
    decide

/-- As many bytes come back as were sent. -/
theorem goes_pull (herr : e.errors = 0) (len : Nat) (hlen : e.rx.toList.length = len) :
    (Bus.pull len none len 0 []).Goes e [] ⟨e.rx.toList, .ok ()⟩ { e with rx := .empty } := by
  obtain ⟨⟨bytes, outcome⟩, t, hrun, q, rfl, hq, hbytes, hok⟩ := ends_pull herr len len []
  rw [← hlen, List.take_length, List.reverse_nil, List.nil_append] at hbytes
  rw [← hlen, List.drop_length] at hq
  obtain rfl : q = .empty := Fifo.eq_empty hq
  obtain rfl : bytes = e.rx.toList := hbytes
  obtain rfl : outcome = .ok () := hok.mpr hlen
  exact .silent (Bus.passive_pull _ _ []).silent hrun rfl

namespace Recoverable

section Transactions

variable (h : e.Recoverable)

include h

/-- The FIFOs are empty, or a reset empties them. -/
theorem goes_resetFifos (b : Bus) : b.resetFifos.run.Goes e [] (.ok ()) e.emptied := by
  refine .step_lift (.silent Bus.passive_fifosIdle.silent (watches_fifosIdle e) rfl) ?_
  cases hidle : Status.isIdle e.status with
  | true =>
    obtain ⟨htx, hrx⟩ := (isIdle_status_iff h.depth_pos h.visible).mp hidle
    rw [emptied_eq htx hrx]
    exact .pure
  | false =>
    have hreset := goes_setControl (e := e) (e.control ||| Control.fifoResets)
      (startsBurst_of_empty (by rw [resetFifos_resets]; rfl) _)
    rw [resetFifos_resets, h.released.cleared_or] at hreset
    have hrx : e.emptied.rx.toList = [] := by
      rw [emptied, h.loose]
      rfl
    have hidle' : Status.isIdle e.emptied.status = true :=
      (isIdle_status_iff (e := e.emptied) h.depth_pos h.visible).mpr ⟨rfl, hrx⟩
    refine .step_lift goes_control (.step_lift hreset ?_)
    refine .step_lift (goes_await Bus.passive_fifosIdle watches_fifosIdle b hidle') ?_
    exact .pure

variable (hb : b.fifoDepth = e.config.fifoDepth) (hne : command ≠ [])
  (hfit : command.length ≤ b.fifoDepth)

include hb hne hfit

/-- Bytes that are pushed into an empty TX FIFO are what the burst consists of. -/
theorem goes_transmit (htx : e.tx.toList = []) (hselected : e.selected? = some i) :
    (b.transmit command).run.Goes e [⟨i, e.chip i, command⟩] (.ok ())
      { e.carryOut i command none none with control := e.control ||| Control.transInhibit } := by
  have hsize : e.tx.size + command.length ≤ e.config.fifoDepth := by
    rw [Fifo.size_eq_length, htx, ← hb]
    simpa using hfit
  obtain ⟨q, hq, hpush⟩ := run_push
    (e := { e with control := e.control ||| Control.transInhibit }) hsize
  replace hq : q.toList = command := by rw [hq, htx, List.nil_append]
  have hmaster : hasAll (e.control &&& ~~~Control.transInhibit)
      (Control.enabled ||| Control.masterMode) = true := by
    have hrunning := beq_iff_eq.mp h.running
    rw [hasAll, UInt32.and_assoc, UInt32.and_comm (~~~Control.transInhibit), ← UInt32.and_assoc,
      hrunning]
    decide
  have hlifted : hasAll (e.control &&& ~~~Control.transInhibit) Control.transInhibit = false :=
    Bool.eq_false_iff.mpr (not_inhibits_and_not e.control)
  have hwaits : q.isEmpty = false := by
    rw [← Bool.not_eq_true, Fifo.isEmpty_iff, hq]
    exact hne
  have hstart : ({ e with control := e.control ||| Control.transInhibit, tx := q }).startsBurst
      (e.control &&& ~~~Control.transInhibit) = true := by
    simp only [startsBurst, hasAll_or_self, hmaster, hlifted, hwaits]
    decide
  rw [Bus.transmit, if_neg (Nat.not_lt.mpr hfit)]
  refine .step_lift goes_control ?_
  refine .step_lift (goes_inhibit h.released) ?_
  refine .step_lift (.silent (Bus.silent_push _) hpush rfl) ?_
  refine .last_ok (goes_start h.released.lift hstart h.unarmed hselected hq).lift ?_
  refine .step_lift (goes_await Bus.passive_txSettled watches_txSettled b
    ((txSettled_status rfl).mpr rfl)) ?_
  refine .step_lift (goes_inhibit h.released) ?_
  -- the burst took all bytes and lowered the errors, so the check at the end passes
  refine .step_lift goes_status ?_
  rw [hasError_status rfl]
  exact .pure

theorem goes_transfer (htx : e.tx.toList = []) (hrx : e.rx.toList = [])
    (hselected : e.selected? = some i) (wanted : Bool) :
    (b.transfer command wanted).Goes e [⟨i, e.chip i, command⟩]
      ⟨if wanted then ((e.chip i).react e.config command).response else [], .ok ()⟩
      { e.carryOut i command none none with
        control := e.control ||| Control.transInhibit, rx := .empty } := by
  have hsent := h.goes_transmit hb hne hfit htx hselected
  obtain ⟨u, hu⟩ : ∃ u : Emulator, u = { e.carryOut i command none none with
    control := e.control ||| Control.transInhibit } := ⟨_, rfl⟩
  have hresponse : u.rx.toList = ((e.chip i).react e.config command).response := by
    rw [hu]
    exact toList_arrive hrx _ none
  have hpull := goes_pull (e := u) (by rw [hu]; rfl) command.length
    (by rw [hresponse, Chip.length_react_response])
  rw [hresponse] at hpull
  have hpulled : { u with rx := .empty } = { e.carryOut i command none none with
      control := e.control ||| Control.transInhibit, rx := .empty } := by rw [hu]
  rw [← hu] at hsent
  rw [← hpulled]
  cases wanted with
  | true =>
    refine .last hsent ?_
    show (Bus.receive command.length command.length).Goes u [] _ _
    rw [Bus.receive_self]
    exact hpull
  | false => exact .last hsent (.step (.step hpull .pure) .pure)

/-- **A transaction is one burst of its own bytes**, whatever was left behind. -/
theorem goes_transaction (hi : b.slave.toNat = i.val) (wanted : Bool) :
    (b.transaction command wanted).Goes e [⟨i, e.chip i, command⟩]
      ⟨if wanted then ((e.chip i).react e.config command).response else [], .ok ()⟩
      (e.answered i command) := by
  have hslave : b.slave.toNat < maxSlaves := hi ▸ i.isLt
  have hselect : (Bus.activate (some b.slave)).Goes e.emptied [] ()
      { e.emptied with slaveSelect := Bus.selectWord b.slave } := by
    refine .silent (Bus.silent_activate _) ?_ rfl
    rw [Bus.activate_some, if_pos hslave, run_store]
    rfl
  have hready : ({ e.emptied with slaveSelect := Bus.selectWord b.slave }).Recoverable :=
    ⟨h.depth_pos, h.running, h.released, h.loose, h.visible, h.unarmed⟩
  have hrx : e.emptied.rx.toList = [] := by
    rw [emptied, h.loose]
    rfl
  rw [Bus.transaction, if_neg (Nat.not_lt.mpr hfit)]
  refine .step (h.goes_resetFifos b) ?_
  dsimp only
  rw [if_pos hslave]
  refine .step hselect (.last (hready.goes_transfer hb hne hfit rfl hrx
    (selected?_eq hi rfl) wanted) ?_)
  exact .step (.silent (Bus.silent_activate _) run_store rfl) .pure

end Transactions

/-- What a transaction may start from is what it leaves. -/
theorem answered (h : e.Recoverable) (i : Fin maxSlaves) (command : Bytes) :
    (e.answered i command).Recoverable where
  depth_pos := h.depth_pos
  running := by
    show hasAll (e.control ||| Control.transInhibit) _ = true
    rw [hasAll, or_and_distrib, beq_iff_eq.mp h.running]
    decide
  released := h.released.inhibit
  loose := by
    show (e.rxStuck || _) = false
    rw [h.loose]
    rfl
  visible := UInt32.zero_and
  unarmed := rfl

end Recoverable

/-- How a transaction from `e` ended, and the emulator after it: chip `i` carried the
command out, the response is in the buffer if it was wanted, and nothing is left over. -/
structure Recovered (i : Fin maxSlaves) (command : Bytes) (wanted : Bool) (e : Emulator)
    (arrival : Arrival) (t : Emulator) : Prop where
  outcome : arrival.outcome = .ok ()
  buffer : arrival.into command =
    if wanted then ((e.chip i).react e.config command).response else command
  chip : t.chip i = ((e.chip i).react e.config command).chip
  others : ∀ j, j ≠ i → t.chip j = e.chip j
  tx : t.tx.toList = []
  rx : t.rx.toList = []
  errors : t.errors = 0
  inhibited : Inhibits t.control
  deselected : t.slaveSelect = slaveSelectNone
  recoverable : t.Recoverable

/-- **A failed transaction does not poison the next one.** Whatever the FIFOs hold, whichever
errors are raised, whether or not transfers are inhibited and whatever is selected: the
transaction succeeds, its one burst is `command` on chip `i`, and the emulator is clean
afterwards. -/
theorem Recoverable.transaction_recovers (h : e.Recoverable)
    (hb : b.fifoDepth = e.config.fifoDepth) (hi : b.slave.toNat = i.val) (hne : command ≠ [])
    (hfit : command.length ≤ b.fifoDepth) (wanted : Bool) :
    ∃ arrival t, (b.transaction command wanted).Goes e [⟨i, e.chip i, command⟩] arrival t ∧
      Recovered i command wanted e arrival t := by
  have hchips : (e.answered i command).chips =
      e.chipsWith i ((e.chip i).react e.config command).chip := rfl
  refine ⟨_, _, h.goes_transaction hb hne hfit hi wanted, ?_⟩
  exact {
    outcome := rfl
    buffer := by
      cases wanted with
      | true => simp [Arrival.into, Chip.length_react_response]
      | false => rfl
    chip := by rw [chip_of_chipsWith hchips, if_pos rfl]
    others := by
      intro j hj
      rw [chip_of_chipsWith hchips, if_neg (Ne.symm hj)]
    tx := rfl
    rx := rfl
    errors := rfl
    inhibited := inhibits_or e.control
    deselected := rfl
    recoverable := h.answered i command }

/-- The chip of slave 1. -/
abbrev secondChip : Fin maxSlaves := Fin.last 1

/-- The default emulator with bytes in both FIFOs, two errors raised, both slaves selected
and transfers not inhibited. -/
def littered : Emulator :=
  { Emulator.ofConfig {} with
    control := Control.enabled ||| Control.masterMode
    slaveSelect := 0
    tx := .ofList [Opcode.writeEnable, 0]
    rx := .ofList [0x5a]
    errors := Status.commandError ||| Status.modeError }

theorem transaction_recovers_littered :
    littered.Recoverable ∧
      ∃ arrival t, (Bus.transaction { budget := ⟨1, 10⟩, fifoDepth := 256, slave := 1 }
          [Opcode.readStatus, 0] true).Goes littered
          [⟨secondChip, littered.chip secondChip, [Opcode.readStatus, 0]⟩] arrival t ∧
        Recovered secondChip [Opcode.readStatus, 0] true littered arrival t := by
  have h : littered.Recoverable :=
    ⟨by decide, by decide, by rw [Control.Released]; decide, rfl, by decide, rfl⟩
  exact ⟨h, h.transaction_recovers rfl rfl (by simp) (by decide) true⟩

end Emulator

end NorFlash
