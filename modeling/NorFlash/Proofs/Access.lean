import NorFlash.Emulator
import NorFlash.Proofs.Outcome

/-!
# Access — single register accesses of the emulator

What one access does, when the emulator's FIFOs report empty, and how a wait
for a condition ends that looks at the registers only: at once, or never.
-/

namespace NorFlash

/-- A queue without bytes is the empty queue. -/
theorem Fifo.eq_empty {q : Fifo} (h : q.toList = []) : q = .empty := by
  obtain ⟨front, back, size, hsize⟩ := q
  simp only [toList, List.append_eq_nil_iff, List.reverse_eq_nil_iff] at h
  obtain ⟨rfl, rfl⟩ := h
  subst hsize
  rfl

theorem or_and_distrib (x y mask : UInt32) : (x ||| y) &&& mask = x &&& mask ||| y &&& mask :=
  UInt32.toNat_inj.mp (Nat.and_or_distrib_right x.toNat y.toNat mask.toNat)

namespace Emulator

/-! ## One access -/

section Runs

variable {e : Emulator} {us word : UInt32}

theorem run_status : Proc.status.run block e = (some e.status, e) := rfl

theorem run_control : Proc.control.run block e = (some e.control, e) := rfl

theorem run_setControl : (Proc.setControl word).run block e = (some (), e.writeControl word) :=
  rfl

theorem run_store {r : Register} : (Proc.store r word).run block e = (some (), e.write word r) := by
  cases r <;> rfl

theorem run_log {m : Message} : (Proc.log m).run block e = (some (), e) := rfl

theorem run_giveWay : Proc.giveWay.run block e = (some (), e) := rfl

/-- The emulator at another time on its clock. -/
def atTime (e : Emulator) (us : Nat) : Emulator :=
  { e with stats := { e.stats with delayedUs := us } }

theorem run_pause :
    (Proc.pause us).run block e = (some (), e.atTime (e.stats.delayedUs + us.toNat)) :=
  rfl

theorem run_pullByte {v : UInt8} {rx : Fifo} (hpop : e.rx.pop? = some (v, rx)) :
    Proc.pullByte.run block e = (some v, { e with rx }) := by
  have hread : e.read .rx = (v.toUInt32, { e with rx }) := by
    simp only [read, hpop]
  change (some (e.read .rx).1.toUInt8, (e.read .rx).2) = _
  rw [hread, UInt8.toUInt8_toUInt32]

end Runs

/-! ## The status word -/

/-- A FIFO that does not report empty cannot be emptied: a reset leaves the
response of a burst in it, or an error bit of a burst hides that it is. -/
def Blocked (e : Emulator) : Prop :=
  e.rxStuck = true ∨ e.errors &&& (Status.txFull ||| Status.rxFull) ≠ 0

theorem status_of_empty {e : Emulator} (hdepth : 0 < e.config.fifoDepth)
    (htx : e.tx.toList = []) (hrx : e.rx.toList = []) :
    e.status = e.errors ||| Status.fifosEmpty := by
  have hfull : ¬ e.config.fifoDepth ≤ 0 := by omega
  rw [status, Fifo.eq_empty htx, Fifo.eq_empty hrx]
  simp only [Fifo.isEmpty, Fifo.empty, hfull, beq_self_eq_true, if_true, if_false,
    UInt32.or_assoc]
  rfl

theorem isIdle_or_fifosEmpty (x : UInt32) :
    Status.isIdle (x ||| Status.fifosEmpty) = true ↔
      x &&& (Status.txFull ||| Status.rxFull) = 0 := by
  -- only the four FIFO bits of `x` count, so sixteen words stand for all
  have hlow : ∀ y < 16, (UInt32.ofNat y ||| 5 = 5 ↔ UInt32.ofNat y &&& 10 = 0) := by decide
  have hbits : x &&& 15 = UInt32.ofNat (x &&& 15).toNat := UInt32.ofNat_toNat.symm
  have hlt : (x &&& 15).toNat < 16 := by
    rw [UInt32.toNat_and]
    exact Nat.lt_succ_of_le Nat.and_le_right
  have hl : (x ||| 5) &&& 15 = (x &&& 15) ||| 5 := or_and_distrib x 5 15
  have hr : x &&& 10 = (x &&& 15) &&& 10 := by
    rw [UInt32.and_assoc]
    rfl
  change ((x ||| 5) &&& 15 == 5) = true ↔ x &&& 10 = 0
  rw [beq_iff_eq, hl, hr, hbits]
  exact hlow _ hlt

/-- Without error bits the status word tells the state of the two FIFOs. -/
theorem status_of_errors {e : Emulator} (herr : e.errors = 0) :
    ∃ full full' : Bool, e.status =
      (if e.rx.isEmpty then Status.rxEmpty else 0) ||| (if full then Status.rxFull else 0) |||
        (if e.tx.isEmpty then Status.txEmpty else 0) ||| (if full' then Status.txFull else 0) := by
  refine ⟨decide (e.config.fifoDepth ≤ e.rx.size), decide (e.config.fifoDepth ≤ e.tx.size), ?_⟩
  rw [status, herr, UInt32.zero_or]
  simp only [decide_eq_true_eq]

section Clear

variable {e : Emulator} (herr : e.errors = 0)

include herr

theorem empty_of_isIdle_status (h : Status.isIdle e.status = true) :
    e.tx.toList = [] ∧ e.rx.toList = [] := by
  revert h
  obtain ⟨full, full', h⟩ := status_of_errors herr
  rw [h, ← Fifo.isEmpty_iff, ← Fifo.isEmpty_iff]
  cases e.rx.isEmpty <;> cases e.tx.isEmpty <;> cases full <;> cases full' <;> decide

theorem hasError_status : Status.hasError e.status = false := by
  obtain ⟨full, full', h⟩ := status_of_errors herr
  rw [h]
  cases e.rx.isEmpty <;> cases e.tx.isEmpty <;> cases full <;> cases full' <;> decide

theorem txSettled_status :
    hasAny e.status (Status.txEmpty ||| Status.errors) = true ↔ e.tx.toList = [] := by
  obtain ⟨full, full', h⟩ := status_of_errors herr
  rw [h, ← Fifo.isEmpty_iff]
  cases e.rx.isEmpty <;> cases e.tx.isEmpty <;> cases full <;> cases full' <;> decide

theorem rxEmpty_status : hasAll e.status Status.rxEmpty = true ↔ e.rx.toList = [] := by
  obtain ⟨full, full', h⟩ := status_of_errors herr
  rw [h, ← Fifo.isEmpty_iff]
  cases e.rx.isEmpty <;> cases e.tx.isEmpty <;> cases full <;> cases full' <;> decide

end Clear

theorem hasAny_or {x y mask : UInt32} (h : hasAny x mask = true) :
    hasAny (x ||| y) mask = true := by
  simp only [hasAny, bne_iff_ne, ne_eq] at *
  intro h0
  apply h
  rw [or_and_distrib, ← UInt32.toNat_inj, UInt32.toNat_or] at h0
  exact UInt32.toNat_inj.mp (Nat.or_eq_zero_iff.mp h0).1

theorem hasAny_mask_or {x mask more : UInt32} (h : hasAny x mask = true) :
    hasAny x (more ||| mask) = true := by
  have hcomm : ∀ y, hasAny x y = hasAny y x := fun y => by rw [hasAny, hasAny, UInt32.and_comm]
  rw [hcomm] at *
  rw [UInt32.or_comm]
  exact hasAny_or h

/-- A raised error bit shows in the status word. -/
theorem hasAny_status {e : Emulator} {mask : UInt32} (h : hasAny e.errors mask = true) :
    hasAny e.status mask = true :=
  hasAny_or (hasAny_or (hasAny_or (hasAny_or h)))

/-! ## Waits -/

/-- A condition that looks at the status word only. -/
def Watches (condition : Proc Bool) (f : UInt32 → Bool) : Prop :=
  ∀ e : Emulator, condition.run block e = (some (f e.status), e)

theorem watches_fifosIdle : Watches Bus.fifosIdle Status.isIdle :=
  fun _ => rfl

theorem watches_txSettled :
    Watches Bus.txSettled fun word => hasAny word (Status.txEmpty ||| Status.errors) :=
  fun _ => rfl

theorem watches_rxEmpty : Watches Bus.rxEmpty fun word => hasAll word Status.rxEmpty :=
  fun _ => rfl

theorem watches_txFull :
    Watches Bus.txFull fun word => hasAny word (Status.txFull ||| Status.errors) :=
  fun _ => rfl

section Waits

variable {condition : Proc Bool} {f : UInt32 → Bool} {e : Emulator}

/-- A wait for what holds already ends at once. -/
theorem run_await (hc : Watches condition f) (b : Bus) (hyes : f e.status = true) :
    (b.await condition).run block e = (some (some 0), e) := by
  have hcheck : condition.run block e = (some true, e) := by rw [hc, hyes]
  rw [Bus.await_eq, PollBudget.wait, PollBudget.waitCounting]
  cases b.budget.maxPolls with
  | zero | succ => rw [PollBudget.poll, Proc.bind_eq, Proc.run_bind, hcheck]; rfl

/-- Time passes, and the status word stays what it is. -/
theorem run_poll_never (hc : Watches condition f) (hno : f e.status = false) (us : UInt32)
    (spent left time : Nat) :
    ∃ time', (PollBudget.poll condition (Proc.pause us) PollBudget.unlimited spent left).run block
      (e.atTime time) = (some none, e.atTime time') := by
  have hcheck : ∀ time, condition.run block (e.atTime time) = (some false, e.atTime time) := by
    intro time
    rw [hc, show (e.atTime time).status = e.status from rfl, hno]
  induction left generalizing spent time with
  | zero =>
    refine ⟨time, ?_⟩
    rw [PollBudget.poll, Proc.bind_eq, Proc.run_bind, hcheck]
    rfl
  | succ left ih =>
    obtain ⟨time', hr⟩ := ih (spent + 1) (time + us.toNat)
    refine ⟨time', ?_⟩
    rw [PollBudget.poll, Proc.bind_eq, Proc.run_bind, hcheck]
    exact hr

/-- A wait for what the registers do not show uses the budget up. -/
theorem run_await_never (hc : Watches condition f) (b : Bus) (hno : f e.status = false) :
    ∃ time, (b.await condition).run block e = (some none, e.atTime time) := by
  rw [Bus.await_eq]
  exact run_poll_never hc hno b.budget.intervalUs 0 b.budget.maxPolls e.stats.delayedUs

end Waits

end Emulator

end NorFlash
