import NorFlash.Proofs.Totality

/-!
# Polling — bounded waits are exact

Whatever is waited for, and however a look at it changes it: a wait looks first, pauses
between two looks, stops at the first look that succeeds and gives up after as many pauses
as its budget allows. The looks of a wait on a register block may be whole transactions.
-/

namespace NorFlash

/-- Something that can be looked at and left alone for a while. Both may change it. -/
structure PollTarget (τ : Type) where
  look : StateM τ Bool
  pause : UInt32 → StateM τ Unit

/-- What a wait does. -/
inductive PollEvent where
  | looked (yes : Bool)
  | paused (us : UInt32)
  deriving DecidableEq, Repr

namespace PollEvent

/-- The time that was asked for. -/
def requestedUs : List PollEvent → Nat
  | [] => 0
  | looked _ :: rest => requestedUs rest
  | paused us :: rest => us.toNat + requestedUs rest

/-- Looks that failed, each with the pause after it. -/
def rounds (us : UInt32) : Nat → List PollEvent
  | 0 => []
  | k + 1 => looked false :: paused us :: rounds us k

theorem requestedUs_rounds (us : UInt32) (k : Nat) (yes : Bool) :
    requestedUs (rounds us k ++ [looked yes]) = k * us.toNat := by
  induction k with
  | zero => simp [rounds, requestedUs]
  | succ k ih => simp [rounds, requestedUs, ih, Nat.succ_mul, Nat.add_comm]

theorem count_paused_rounds (us : UInt32) (k : Nat) :
    (rounds us k).count (paused us) = k := by
  induction k with
  | zero => rfl
  | succ k ih => simp [rounds, ih]

end PollEvent

namespace PollBudget

/-- The pauses of a wait take no longer than its time. -/
theorem mul_interval_le {b : PollBudget} {k : Nat} (h : k ≤ b.maxPolls) :
    k * b.intervalUs.toNat ≤ b.timeoutUs.toNat := by
  rw [maxPolls] at h
  by_cases hzero : b.intervalUs = 0
  · simp [hzero]
  · rw [if_neg hzero, UInt32.toNat_div] at h
    calc k * b.intervalUs.toNat
      _ ≤ b.timeoutUs.toNat / b.intervalUs.toNat * b.intervalUs.toNat :=
        Nat.mul_le_mul_right _ h
      _ ≤ b.timeoutUs.toNat := Nat.div_mul_le_self _ _

end PollBudget

namespace PollTarget

variable {τ : Type}

/-- Wait until a look succeeds. -/
def wait (t : PollTarget τ) (b : PollBudget) (s : τ) : Option Nat × τ :=
  (b.wait t.look t.pause).run s

/-- The target after `k` looks, each with the pause after it. -/
def after (t : PollTarget τ) (us : UInt32) : (k : Nat) → τ → τ
  | 0, s => s
  | k + 1, s => t.after us k (t.pause us (t.look s).2).2

/-- What look number `k` sees, if every look before it was followed by a pause. -/
def sees (t : PollTarget τ) (us : UInt32) (s : τ) (k : Nat) : Bool :=
  (t.look (t.after us k s)).1

/-- Look number `k` is the first that succeeds. -/
def FirstAt (t : PollTarget τ) (us : UInt32) (s : τ) (k : Nat) : Prop :=
  (∀ j < k, t.sees us s j = false) ∧ t.sees us s k = true

/-- The target with a record of what is done to it. -/
def recorded (t : PollTarget τ) : PollTarget (τ × List PollEvent) where
  look s := ((t.look s.1).1, (t.look s.1).2, s.2 ++ [.looked (t.look s.1).1])
  pause us s := ((), (t.pause us s.1).2, s.2 ++ [.paused us])

variable {t : PollTarget τ} {us : UInt32} {s : τ} {k left spent : Nat}

/-! ## The loop -/

theorem FirstAt.unique {j : Nat} (hj : t.FirstAt us s j) (hk : t.FirstAt us s k) : j = k := by
  rcases Nat.lt_trichotomy j k with h | h | h
  · have hno := hk.1 j h
    rw [hj.2] at hno
    cases hno
  · exact h
  · have hno := hj.1 k h
    rw [hk.2] at hno
    cases hno

/-- How the loop ends: at the first look that succeeds, or after the last one. -/
inductive Polled (t : PollTarget τ) (us : UInt32) (s : τ) (spent left : Nat) :
    Option Nat × τ → Prop where
  | found (k : Nat) (hk : k ≤ left) (hfirst : t.FirstAt us s k) :
    Polled t us s spent left (some (spent + k), (t.look (t.after us k s)).2)
  | missed (hnone : ∀ j ≤ left, t.sees us s j = false) :
    Polled t us s spent left (none, (t.look (t.after us left s)).2)

theorem Polled.zero (h : (t.look s).1 = true) :
    t.Polled us s spent left (some spent, (t.look s).2) :=
  .found 0 (Nat.zero_le left) ⟨fun j hj => absurd hj (Nat.not_lt_zero j), h⟩

/-- A look that fails and a pause go before what is left of the loop. -/
theorem Polled.succ {r : Option Nat × τ} (hno : (t.look s).1 = false)
    (h : t.Polled us (t.pause us (t.look s).2).2 (spent + 1) left r) :
    t.Polled us s spent (left + 1) r := by
  cases h with
  | found k hk hfirst =>
    rw [Nat.add_assoc, Nat.add_comm 1 k]
    refine .found (k + 1) (Nat.succ_le_succ hk) ⟨fun j hj => ?_, hfirst.2⟩
    cases j with
    | zero => exact hno
    | succ j => exact hfirst.1 j (by omega)
  | missed hnone =>
    refine .missed fun j hj => ?_
    cases j with
    | zero => exact hno
    | succ j => exact hnone j (by omega)

theorem run_poll_zero :
    (PollBudget.poll t.look (t.pause us) PollBudget.unlimited spent 0).run s =
      (if (t.look s).1 then some spent else none, (t.look s).2) := rfl

theorem run_poll_succ :
    (PollBudget.poll t.look (t.pause us) PollBudget.unlimited spent (left + 1)).run s =
      if (t.look s).1 then (some spent, (t.look s).2)
      else (PollBudget.poll t.look (t.pause us) PollBudget.unlimited (spent + 1) left).run
        (t.pause us (t.look s).2).2 := by
  rw [PollBudget.poll, StateT.run_bind]
  show (if (t.look s).1 then pure (some spent) else _ : StateM τ (Option Nat)).run
    (t.look s).2 = _
  by_cases h : (t.look s).1 = true
  · rw [if_pos h, if_pos h]
    rfl
  · rw [if_neg h, if_neg h]
    rfl

theorem polled_poll (t : PollTarget τ) (us : UInt32) (s : τ) (spent left : Nat) :
    t.Polled us s spent left
      ((PollBudget.poll t.look (t.pause us) PollBudget.unlimited spent left).run s) := by
  induction left generalizing s spent with
  | zero =>
    rw [run_poll_zero]
    by_cases hyes : (t.look s).1 = true
    · rw [if_pos hyes]
      exact .zero hyes
    · rw [if_neg hyes]
      refine .missed fun j hj => ?_
      obtain rfl : j = 0 := Nat.le_zero.mp hj
      exact Bool.eq_false_iff.mpr hyes
  | succ left ih =>
    rw [run_poll_succ]
    by_cases hyes : (t.look s).1 = true
    · rw [if_pos hyes]
      exact .zero hyes
    · rw [if_neg hyes]
      exact (ih _ _).succ (Bool.eq_false_iff.mpr hyes)

theorem polled_wait (t : PollTarget τ) (b : PollBudget) (s : τ) :
    t.Polled b.intervalUs s 0 b.maxPolls (t.wait b s) :=
  t.polled_poll b.intervalUs s 0 b.maxPolls

theorem wait_of_firstAt {b : PollBudget} (hk : k ≤ b.maxPolls)
    (hfirst : t.FirstAt b.intervalUs s k) :
    t.wait b s = (some k, (t.look (t.after b.intervalUs k s)).2) := by
  have h := t.polled_wait b s
  generalize t.wait b s = r at h
  cases h with
  | found j hj hfirst' => rw [Nat.zero_add, hfirst'.unique hfirst]
  | missed hnone =>
    have hno := hnone k hk
    rw [hfirst.2] at hno
    cases hno

theorem wait_of_never {b : PollBudget}
    (hnone : ∀ j ≤ b.maxPolls, t.sees b.intervalUs s j = false) :
    t.wait b s = (none, (t.look (t.after b.intervalUs b.maxPolls s)).2) := by
  have h := t.polled_wait b s
  generalize t.wait b s = r at h
  cases h with
  | found j hj hfirst =>
    have hno := hnone j hj
    rw [hfirst.2] at hno
    cases hno
  | missed => rfl

/-- Within the budget there is a first look that succeeds, or every look fails. -/
theorem firstAt_or_never (t : PollTarget τ) (b : PollBudget) (s : τ) :
    (∃ k ≤ b.maxPolls, t.FirstAt b.intervalUs s k) ∨
      ∀ j ≤ b.maxPolls, t.sees b.intervalUs s j = false := by
  have h := t.polled_wait b s
  generalize t.wait b s = r at h
  cases h with
  | found k hk hfirst => exact .inl ⟨k, hk, hfirst⟩
  | missed hnone => exact .inr hnone

/-! ## The record -/

theorem recorded_look (s : τ) (log : List PollEvent) :
    t.recorded.look (s, log) = ((t.look s).1, (t.look s).2, log ++ [.looked (t.look s).1]) := rfl

/-- As long as looks fail, they and the pauses take turns. -/
theorem after_recorded {log : List PollEvent} (hno : ∀ j < k, t.sees us s j = false) :
    t.recorded.after us k (s, log) = (t.after us k s, log ++ PollEvent.rounds us k) := by
  induction k generalizing s log with
  | zero => simp [after, PollEvent.rounds]
  | succ k ih =>
    have hfirst : (t.look s).1 = false := hno 0 (Nat.succ_pos k)
    have hrest : ∀ j < k, t.sees us (t.pause us (t.look s).2).2 j = false := fun j hj =>
      hno (j + 1) (Nat.succ_lt_succ hj)
    rw [after, recorded_look, hfirst]
    show t.recorded.after us k ((t.pause us (t.look s).2).2, _) = _
    rw [ih hrest]
    simp [after, PollEvent.rounds]

/-- A recorded target sees what the target sees. -/
theorem sees_recorded (log : List PollEvent) : t.recorded.sees us (s, log) k = t.sees us s k := by
  induction k generalizing s log with
  | zero => rfl
  | succ k ih => exact ih _

/-- The record after the last look. -/
theorem recorded_end {yes : Bool} (hno : ∀ j < k, t.sees us s j = false)
    (hlast : t.sees us s k = yes) :
    (t.recorded.look (t.recorded.after us k (s, []))).2 =
      ((t.look (t.after us k s)).2, PollEvent.rounds us k ++ [.looked yes]) := by
  rw [after_recorded hno, recorded_look, ← hlast]
  rfl

/-! ## Exact waits -/

/-- What a wait comes to. It pauses as often as it answers or, if no look succeeded, as
often as the budget allows. -/
structure Exact (t : PollTarget τ) (b : PollBudget) (s : τ) (result : Option Nat) (final : τ)
    (events : List PollEvent) : Prop where
  found : ∀ k, result = some k ↔ k ≤ b.maxPolls ∧ t.FirstAt b.intervalUs s k
  missed : result = none ↔ ∀ j ≤ b.maxPolls, t.sees b.intervalUs s j = false
  final : final = (t.look (t.after b.intervalUs (result.getD b.maxPolls) s)).2
  alternates : events =
    PollEvent.rounds b.intervalUs (result.getD b.maxPolls) ++ [.looked result.isSome]
  pauses : events.count (.paused b.intervalUs) = result.getD b.maxPolls
  time : PollEvent.requestedUs events ≤ b.timeoutUs.toNat
  counter : result.getD b.maxPolls ≤ b.maxPolls ∧ b.maxPolls < word32Limit

/-- The events say how long the wait took. -/
theorem Exact.of_rounds {b : PollBudget} {result : Option Nat} {final : τ}
    (hfound : ∀ k, result = some k ↔ k ≤ b.maxPolls ∧ t.FirstAt b.intervalUs s k)
    (hmissed : result = none ↔ ∀ j ≤ b.maxPolls, t.sees b.intervalUs s j = false)
    (hfinal : final = (t.look (t.after b.intervalUs (result.getD b.maxPolls) s)).2) :
    t.Exact b s result final
      (PollEvent.rounds b.intervalUs (result.getD b.maxPolls) ++ [.looked result.isSome]) := by
  have hle : result.getD b.maxPolls ≤ b.maxPolls := by
    cases hr : result with
    | none => exact Nat.le_refl _
    | some k => exact ((hfound k).mp hr).1
  refine ⟨hfound, hmissed, hfinal, rfl, ?_, ?_, hle, b.maxPolls_lt⟩
  · simp [PollEvent.count_paused_rounds]
  · rw [PollEvent.requestedUs_rounds]
    exact PollBudget.mul_interval_le hle

/-- **Bounded polling is exact.** For every target, whatever a look and a pause do to it,
and for every budget: looks and pauses take turns, the first look that succeeds ends the
wait, and after the last pause that the time allows one more look decides. Recording a
wait changes nothing about it. -/
theorem wait_exact (t : PollTarget τ) (b : PollBudget) (s : τ) :
    let recorded := t.recorded.wait b (s, [])
    t.Exact b s (t.wait b s).1 (t.wait b s).2 recorded.2.2 ∧
      recorded.1 = (t.wait b s).1 ∧ recorded.2.1 = (t.wait b s).2 := by
  rcases t.firstAt_or_never b s with ⟨k, hk, hfirst⟩ | hnone
  · have hsame : t.recorded.FirstAt b.intervalUs (s, []) k := by
      simpa only [FirstAt, sees_recorded] using hfirst
    rw [wait_of_firstAt hk hfirst, wait_of_firstAt hk hsame, recorded_end hfirst.1 hfirst.2]
    refine ⟨.of_rounds (fun j => ⟨?_, fun h => ?_⟩) ⟨nofun, fun hno => ?_⟩ rfl,
      rfl, rfl⟩
    · rintro ⟨⟩
      exact ⟨hk, hfirst⟩
    · rw [hfirst.unique h.2]
    · exact absurd (hno k hk) (by rw [hfirst.2]; decide)
  · have hsame : ∀ j ≤ b.maxPolls, t.recorded.sees b.intervalUs (s, []) j = false := by
      simpa only [sees_recorded] using hnone
    have hbefore : ∀ j < b.maxPolls, t.sees b.intervalUs s j = false := fun j hj =>
      hnone j (Nat.le_of_lt hj)
    rw [wait_of_never hnone, wait_of_never hsame, recorded_end hbefore (hnone _ (Nat.le_refl _))]
    refine ⟨.of_rounds (fun j => ⟨nofun, fun h => ?_⟩) ⟨fun _ => hnone, ?_⟩ rfl,
      rfl, rfl⟩
    · exact absurd (hnone j h.1) (by rw [h.2.2]; decide)
    · exact fun _ => rfl

/-- A clock that is waited for until it shows 50. -/
example :
    let clock : PollTarget Nat :=
      { look := fun now => (decide (50 ≤ now), now), pause := fun us now => ((), now + us.toNat) }
    clock.wait ⟨5, 1000⟩ 0 = (some 10, 50) := by
  decide

end PollTarget

/-! ## Waits on a register block -/

section Blocks

variable {σ : Type} {condition : Proc Bool}

/-- A register block that a procedure looks at. -/
def RegisterBlock.watched (block : RegisterBlock σ) (condition : Proc Bool) : PollTarget σ where
  look s := ((condition.run block s).1.getD false, (condition.run block s).2)
  pause us s := ((), block.delay us s)

theorem RegisterBlock.watched_look {block : RegisterBlock σ} {s t : σ} {yes : Bool}
    (h : condition.run block s = (some yes, t)) : (block.watched condition).look s = (yes, t) := by
  simp [watched, h]

theorem Bus.run_poll_watched {block : RegisterBlock σ}
    (hends : ∀ s, condition.Ends block s fun _ _ => True) (us : UInt32) (spent left : Nat)
    (s : σ) :
    (PollBudget.poll condition (Proc.pause us) PollBudget.unlimited spent left).run block s =
      Prod.map some id ((PollBudget.poll (block.watched condition).look
        ((block.watched condition).pause us) PollBudget.unlimited spent left).run s) := by
  induction left generalizing spent s with
  | zero =>
    obtain ⟨yes, t, hrun, -⟩ := hends s
    rw [PollTarget.run_poll_zero, PollBudget.poll, Proc.bind_eq, Proc.run_bind, hrun,
      RegisterBlock.watched_look hrun]
    rfl
  | succ left ih =>
    obtain ⟨yes, t, hrun, -⟩ := hends s
    rw [PollTarget.run_poll_succ, PollBudget.poll, Proc.bind_eq, Proc.run_bind, hrun,
      RegisterBlock.watched_look hrun]
    cases yes with
    | true => rfl
    | false => exact ih (spent + 1) (block.delay us t)

/-- A wait on a block is a wait on a target, so it is exact. -/
theorem Bus.run_await_watched {block : RegisterBlock σ}
    (hends : ∀ s, condition.Ends block s fun _ _ => True) (b : Bus) (s : σ) :
    (b.await condition).run block s =
      Prod.map some id ((block.watched condition).wait b.budget s) := by
  rw [await_eq]
  exact run_poll_watched hends _ _ _ s

/-- Waiting for the chip succeeds if one of the status reads that the budget allows finds
it ready, and times out if none does. -/
theorem Bus.ends_waitUntilReady (b : Bus) (block : RegisterBlock σ) (s : σ) :
    Attempt.Ends block b.waitUntilReady s
      (fun _ _ => ∃ k ≤ b.budget.maxPolls,
        (block.watched b.isReady).FirstAt b.budget.intervalUs s k)
      (fun error _ => error = .timeout .deviceReady ∧
        ∀ j ≤ b.budget.maxPolls,
          (block.watched b.isReady).sees b.budget.intervalUs s j = false) := by
  have hends : ∀ s, b.isReady.Ends block s fun _ _ => True := fun s =>
    (abides_isReady (T := .strict) trivial b).ends block s
  have hexact := ((block.watched b.isReady).wait_exact b.budget s).1
  have hrun := run_await_watched hends b s
  generalize (block.watched b.isReady).wait b.budget s = r at hexact hrun
  obtain ⟨result, t⟩ := r
  refine .step (a := result) (t := t) hrun ?_
  cases result with
  | some k => exact .pure ⟨k, (hexact.found k).mp rfl⟩
  | none =>
    exact .bind_lift (M := fun _ _ => True) ⟨(), _, rfl, trivial⟩ fun _ _ _ =>
      .throw ⟨rfl, hexact.missed.mp rfl⟩

end Blocks

end NorFlash
