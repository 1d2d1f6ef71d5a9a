import NorFlash.Proofs.Access
import NorFlash.Proofs.Discipline
import NorFlash.Proofs.Refusals

/-!
# Probing — the FIFO depth is measured on any device

A device may answer the probe with any status words: with a FIFO that is full at once, with
one that never is, or with errors. Probing ends, pushes its filler only where the rule
`probeRule` allows it, puts the control word back that it read, and what it answers is the
number of fillers that it pushed.
-/

namespace NorFlash

variable {α β σ : Type} {past : List Deed} {filler : UInt8}

/-! ## What probing may do -/

/-- Each filler is pushed while transfers are inhibited and right after a status read that
shows neither a full FIFO nor an error. No slave is selected, and no bounds check fails. -/
def probeRule (filler : UInt8) (past : List Deed) : Deed → Prop
  | .write .tx word =>
    word = filler.toUInt32 ∧ Inhibited past ∧
      ∃ status earlier, past = .read .status status :: earlier ∧
        hasAny status Status.txFull = false ∧ Status.hasError status = false
  | .write .slaveSelect _ | .ended => False
  | _ => True

theorem probeRule_passive {d : Deed} (h : d.Passive) : probeRule filler past d := by
  cases d with
  | read | delay | yield | line => trivial
  | attaching | calling | ended | write => exact h.elim

/-- The deed writes the TX register. -/
def Deed.isPush : Deed → Bool
  | .write .tx _ => true
  | _ => false

/-- How often the TX register is written. -/
def pushes (ds : List Deed) : Nat := ds.countP Deed.isPush

@[simp] theorem pushes_nil : pushes [] = 0 := rfl

@[simp] theorem pushes_append (ds ds' : List Deed) : pushes (ds ++ ds') = pushes ds + pushes ds' :=
  List.countP_append

@[simp] theorem pushes_cons (d : Deed) (ds : List Deed) :
    pushes (d :: ds) = pushes ds + if d.isPush then 1 else 0 :=
  List.countP_cons

theorem pushes_passive {ds : List Deed} (h : ∀ d ∈ ds, d.Passive) : pushes ds = 0 := by
  refine List.countP_eq_zero.mpr fun d hd hpush => ?_
  have hpassive := h d hd
  cases d with
  | write => exact hpassive
  | attaching | calling | ended | read | delay | yield | line => cases hpush

/-! ## Procedures by their deeds -/

/-- After this past the procedure keeps to the rule, and it ends in a value and after deeds
with `A`. The newest deed comes first. -/
def Proc.Does (rule : List Deed → Deed → Prop) (p : Proc α) (past : List Deed)
    (A : α → List Deed → Prop) : Prop :=
  p.Leads rule past fun a past' => ∃ done, past' = done ++ past ∧ A a done

namespace Proc.Does

variable {rule : List Deed → Deed → Prop} {p : Proc α} {f : α → Proc β}
  {A M : α → List Deed → Prop} {B : β → List Deed → Prop}

theorem mono (h : p.Does rule past M) (hm : ∀ a done, M a done → A a done) :
    p.Does rule past A := by
  refine Leads.mono h fun a past' hpost => ?_
  obtain ⟨done, hdone, ha⟩ := hpost
  exact ⟨done, hdone, hm a done ha⟩

theorem pure {a : α} (h : A a []) : (Pure.pure a : Proc α).Does rule past A :=
  ⟨[], rfl, h⟩

theorem bind (hp : p.Does rule past M)
    (hf : ∀ a done, M a done →
      (f a).Does rule (done ++ past) fun r more => B r (more ++ done)) :
    (p >>= f).Does rule past B := by
  refine Leads.bind hp fun a past' hpost => ?_
  obtain ⟨done, rfl, ha⟩ := hpost
  refine Leads.mono (hf a done ha) fun r past' hpost => ?_
  obtain ⟨more, rfl, hr⟩ := hpost
  exact ⟨more ++ done, by rw [List.append_assoc], hr⟩

/-- A first step of an attempt that cannot fail. -/
theorem bind_lift {f : α → Attempt β} {B : Except Error β → List Deed → Prop}
    (hp : p.Does rule past M)
    (hf : ∀ a done, M a done →
      (f a).run.Does rule (done ++ past) fun r more => B r (more ++ done)) :
    (liftM p >>= f : Attempt β).run.Does rule past B := by
  have hlift : (liftM p : Attempt α).run.Does rule past fun r done =>
      ∃ a, r = .ok a ∧ M a done := by
    refine hp.bind fun a done ha => ?_
    exact .pure ⟨a, rfl, ha⟩
  refine hlift.bind fun r done hpost => ?_
  obtain ⟨a, rfl, ha⟩ := hpost
  exact hf a done ha

/-- A first step of an operation of the transaction engine. -/
theorem bind_attempt {x : Attempt α} {f : α → BusProc β} {b : Bus}
    {M : Except Error α → List Deed → Prop} {B : Except Error β × Bus → List Deed → Prop}
    (hx : x.run.Does rule past M)
    (herror : ∀ error done, M (.error error) done → B (.error error, b) done)
    (hok : ∀ a done, M (.ok a) done →
      ((f a).run.run b).Does rule (done ++ past) fun r more => B r (more ++ done)) :
    ((liftM x >>= f : BusProc β).run.run b).Does rule past B := by
  rw [Bus.run_bind_attempt]
  refine hx.bind fun r done hr => ?_
  cases r with
  | ok a => exact hok a done hr
  | error error => exact .pure (herror error done hr)

theorem passive (hp : p.Passive) (hrule : ∀ past (d : Deed), d.Passive → rule past d) :
    p.Does rule past fun _ done => ∀ d ∈ done, d.Passive := by
  refine Leads.passive (I := fun past' => ∃ done, past' = done ++ past ∧ ∀ d ∈ done, d.Passive)
    hp hrule ?_ ⟨[], rfl, by simp⟩
  rintro _ d hd ⟨done, rfl, hdone⟩
  exact ⟨d :: done, rfl, by simpa [hd] using hdone⟩

/-- Two steps that push nothing. -/
theorem bind_unpushed {f : α → Attempt β} (hp : p.Does rule past fun _ done => pushes done = 0)
    (hf : ∀ a past, (f a).run.Does rule past fun _ done => pushes done = 0) :
    (liftM p >>= f : Attempt β).run.Does rule past fun _ done => pushes done = 0 := by
  refine hp.bind_lift fun a done hdone => (hf a _).mono fun r more hmore => ?_
  rw [pushes_append, hdone, hmore]

/-- What is done on every block is done on a particular one. -/
theorem on_block (h : p.Does rule past A) (hpast : Obeys rule past)
    (hended : ∀ past, ¬ rule past .ended) (b : RegisterBlock σ) (s : σ) :
    p.Ends b s fun a _ => Obeys rule (p.deeds b s ++ past) ∧ A a (p.deeds b s) := by
  obtain ⟨hobeys, hend⟩ := Leads.obeys h hpast b s
  rcases hrun : p.run b s with ⟨_ | a, t⟩
  · rw [hrun] at hend
    exact absurd hend (hended _)
  · rw [hrun] at hend
    obtain ⟨done, hdone, ha⟩ := hend
    obtain rfl := List.append_cancel_right hdone
    exact ⟨a, t, hrun, hobeys, ha⟩

end Proc.Does

/-- An operation of the transaction engine with a first step that may fail, on a block: what
follows a failed step does nothing, what follows another one does its deeds after those of
the step. -/
theorem Bus.bind_on_block {rule : List Deed → Deed → Prop} {bus : Bus}
    {y : Proc (Except Error β × Bus)} {x : Attempt α} {f : α → BusProc β}
    (hy : y = (liftM x >>= f : BusProc β).run.run bus) {M : Except Error α → List Deed → Prop}
    {B : Except Error β × Bus → List Deed → Prop} (hx : x.run.Does rule [] M)
    (hf : ∀ a past, ((f a).run.run bus).Does rule past B) (hended : ∀ past, ¬ rule past .ended)
    (b : RegisterBlock σ) (s : σ) :
    ∃ first m r t, x.run.run b s = (some first, m) ∧ M first (x.run.deeds b s) ∧
      y.run b s = (some r, t) ∧ Obeys rule (y.deeds b s) ∧
      (∀ error, first = .error error → r = (.error error, bus) ∧
        y.deeds b s = x.run.deeds b s) ∧
      ∀ a, first = .ok a → ∃ done, y.deeds b s = done ++ x.run.deeds b s ∧ B r done := by
  obtain ⟨first, m, hfirst, hobeys, hm⟩ := hx.on_block trivial hended b s
  rw [List.append_nil] at hobeys
  rw [run_bind_attempt] at hy
  -- the continuation of the step, whatever the step came to
  have hrun : y.run b s = ((ExceptT.bindCont f first).run bus).run b m := by
    rw [hy, Proc.run_bind, hfirst]
  have hdeeds : y.deeds b s =
      ((ExceptT.bindCont f first).run bus).deeds b m ++ x.run.deeds b s := by
    rw [hy]
    exact Proc.deeds_bind hfirst
  rw [hdeeds]
  cases first with
  | error error =>
    refine ⟨_, m, _, m, hfirst, hm, hrun, hobeys, fun _ heq => ?_, nofun⟩
    cases heq
    exact ⟨rfl, rfl⟩
  | ok a =>
    obtain ⟨r, t, hr, hall, hb⟩ := (hf a (x.run.deeds b s)).on_block hobeys hended b m
    exact ⟨_, m, r, t, hfirst, hm, hrun.trans hr, hall, nofun, fun _ _ => ⟨_, rfl, hb⟩⟩

namespace Bus

/-! ## The stages -/

theorem does_status : Proc.status.Does (probeRule filler) past fun word done =>
    done = [.read .status word] :=
  fun word => ⟨trivial, [.read .status word], rfl, rfl⟩

theorem does_txFull : txFull.Does (probeRule filler) past fun full done =>
    ∃ word, done = [.read .status word] ∧
      full = hasAny word (Status.txFull ||| Status.errors) :=
  does_status.bind fun word _ hdone => .pure ⟨word, hdone, rfl⟩

theorem does_setControl (word : UInt32) :
    (Proc.setControl word).Does (probeRule filler) past fun _ done =>
      done = [.write .control word] :=
  ⟨trivial, _, rfl, rfl⟩

theorem hasAny_or_eq_false {word mask more : UInt32} (h : hasAny word (mask ||| more) = false) :
    hasAny word mask = false ∧ hasAny word more = false := by
  constructor
  · refine Bool.eq_false_iff.mpr fun hmask => ?_
    rw [UInt32.or_comm, Emulator.hasAny_mask_or hmask] at h
    cases h
  · refine Bool.eq_false_iff.mpr fun hmore => ?_
    rw [Emulator.hasAny_mask_or hmore] at h
    cases h

/-- A filler goes out after a look that found room. -/
theorem does_sendByte (hinhibited : Inhibited past) {word : UInt32}
    (hroom : hasAny word (Status.txFull ||| Status.errors) = false) :
    (Proc.sendByte filler).Does (probeRule filler) (.read .status word :: past) fun _ done =>
      done = [.write .tx filler.toUInt32] :=
  ⟨⟨rfl, Inhibited.lasting past _ trivial hinhibited, word, past, rfl,
    hasAny_or_eq_false hroom⟩, _, rfl, rfl⟩

theorem does_fill (hinhibited : Inhibited past) {left pushed : Nat}
    (hlimit : pushed + left < wordLimit) : (fill filler left pushed).Does (probeRule filler) past
      fun r done => (∀ word, .write .control word ∉ done) ∧ pushes done ≤ left ∧
        ∀ depth, r = some depth → depth = pushed + pushes done := by
  induction left generalizing pushed past with
  | zero =>
    refine does_txFull.bind fun full done hfull => ?_
    obtain ⟨word, rfl, -⟩ := hfull
    refine .pure ⟨by simp, by simp [Deed.isPush], fun depth hdepth => ?_⟩
    cases full with
    | true =>
      cases hdepth
      simp [Deed.isPush]
    | false => cases hdepth
  | succ left ih =>
    rw [fill_succ filler hlimit]
    refine does_txFull.bind fun full done hfull => ?_
    obtain ⟨word, rfl, rfl⟩ := hfull
    cases hfull : hasAny word (Status.txFull ||| Status.errors) with
    | true =>
      refine .pure ⟨by simp, by simp [Deed.isPush], fun depth hdepth => ?_⟩
      cases hdepth
      simp [Deed.isPush]
    | false =>
      refine (does_sendByte hinhibited hfull).bind fun _ done hsent => ?_
      subst hsent
      have hstill : Inhibited ([.write .tx filler.toUInt32] ++ ([.read .status word] ++ past)) :=
        hinhibited
      refine (ih hstill (by omega)).mono fun r done hpost => ?_
      obtain ⟨hcontrol, hcount, hdepth⟩ := hpost
      refine ⟨by simpa using hcontrol, ?_, fun depth hr => ?_⟩
      · simp [Deed.isPush]
        omega
      · rw [hdepth depth hr]
        simp [Deed.isPush]
        omega

theorem does_passive {p : Proc α} (hp : p.Passive) :
    p.Does (probeRule filler) past fun _ done => ∀ d ∈ done, d.Passive :=
  .passive hp fun _ _ => probeRule_passive

/-- A reset of the FIFOs pushes nothing. -/
theorem does_resetFifos (b : Bus) : b.resetFifos.run.Does (probeRule filler) past fun _ done =>
    pushes done = 0 := by
  have hpassive : ∀ {α : Type} {p : Proc α} {past}, p.Passive →
      p.Does (probeRule filler) past fun _ done => pushes done = 0 := fun hp =>
    (does_passive hp).mono fun _ _ => pushes_passive
  have hcontrol : ∀ {word past}, (Proc.setControl word).Does (probeRule filler) past
      fun _ done => pushes done = 0 := fun {word _} =>
    (does_setControl word).mono fun _ _ hdone => by rw [hdone]; rfl
  refine (hpassive passive_fifosIdle).bind_unpushed fun idle _ => ?_
  split
  · exact .pure rfl
  · refine (hpassive .control).bind_unpushed fun control _ => ?_
    refine hcontrol.bind_unpushed fun _ _ => ?_
    refine (hpassive (passive_await passive_fifosIdle b)).bind_unpushed fun waited _ => ?_
    cases waited with
    | some _ => exact .pure rfl
    | none =>
      refine (hpassive .status).bind_unpushed fun status _ => ?_
      exact (hpassive (.log rfl)).bind_unpushed fun _ _ => .pure rfl

/-! ## Measuring -/

/-- What is done behind the first reset: the control word is read and written with transfers
inhibited, the loop runs, and the first control word after the loop is the one that was
read. Every push is in the loop. -/
def Restores (loop done : List Deed) : Prop :=
  ∃ control closing, done = closing ++ .write .control control ::
      (loop ++ [.write .control (control ||| Control.transInhibit), .read .control control]) ∧
    (∀ word, .write .control word ∉ loop) ∧ pushes closing = 0

/-- Passive deeds after the last push belong to the loop. -/
theorem Restores.intro (control : UInt32) {loop more : List Deed}
    (hloop : ∀ word, .write .control word ∉ loop) (hmore : ∀ d ∈ more, d.Passive) :
    Restores (more ++ loop) (.write .control control :: (more ++ loop ++
      [.write .control (control ||| Control.transInhibit), .read .control control])) := by
  refine ⟨control, [], rfl, fun word hmem => ?_, rfl⟩
  rcases List.mem_append.mp hmem with h | h
  · exact hmore _ h
  · exact hloop word h

/-- What is done later pushes nothing. -/
theorem Restores.closed {loop done closing : List Deed} (h : Restores loop done)
    (hclosing : pushes closing = 0) : Restores loop (closing ++ done) := by
  obtain ⟨control, earlier, rfl, hloop, hearlier⟩ := h
  refine ⟨control, closing ++ earlier, (List.append_assoc _ _ _).symm, hloop, ?_⟩
  rw [pushes_append, hclosing, hearlier]

/-- Filling the FIFO puts the control word back, and counts what it pushes. -/
theorem does_measureDepth (filler : UInt8) :
    (measureDepth filler).run.Does (probeRule filler) past fun r done =>
      (∃ loop, Restores loop done) ∧ pushes done ≤ probeLimit ∧
        ∀ depth, r = .ok depth → depth = pushes done := by
  have hread : Proc.control.Does (probeRule filler) past fun word done =>
      done = [.read .control word] := fun word => ⟨trivial, [.read .control word], rfl, rfl⟩
  refine hread.bind_lift fun control done hdone => ?_
  subst hdone
  refine (does_setControl _).bind_lift fun _ done hdone => ?_
  subst hdone
  have hinhibited : Inhibited ([.write .control (control ||| Control.transInhibit)] ++
      ([.read .control control] ++ past)) := ⟨_, rfl, inhibits_or control⟩
  refine (does_fill hinhibited (by decide)).bind_lift fun measured loop hpost => ?_
  obtain ⟨hloop, hcount, hdepth⟩ := hpost
  cases measured with
  | none =>
    refine (does_passive (.log rfl)).bind_lift fun _ line hline => ?_
    refine (does_setControl control).bind_lift fun _ done hdone => ?_
    subst hdone
    refine .pure ⟨⟨line ++ loop, ?_⟩, ?_, nofun⟩
    · simpa using Restores.intro control hloop hline
    · simp [pushes_passive hline, hcount, Deed.isPush]
  | some depth =>
    obtain rfl : depth = pushes loop := by simpa using hdepth depth rfl
    refine (does_passive .status).bind_lift fun status looked hlooked => ?_
    split
    · refine (does_passive (.log rfl)).bind_lift fun _ line hline => ?_
      refine (does_setControl control).bind_lift fun _ done hdone => ?_
      subst hdone
      have hmore : ∀ d ∈ line ++ looked, d.Passive := by
        intro d hd
        rcases List.mem_append.mp hd with h | h
        · exact hline d h
        · exact hlooked d h
      refine .pure ⟨⟨line ++ looked ++ loop, ?_⟩, ?_, nofun⟩
      · simpa using Restores.intro control hloop hmore
      · simp [pushes_passive hline, pushes_passive hlooked, hcount, Deed.isPush]
    · refine (does_setControl control).bind_lift fun _ done hdone => ?_
      subst hdone
      refine .pure ⟨⟨looked ++ loop, ?_⟩, ?_, ?_⟩
      · simpa using Restores.intro control hloop hlooked
      · simp [pushes_passive hlooked, hcount, Deed.isPush]
      · intro depth hdepth
        cases hdepth
        simp [pushes_passive hlooked, Deed.isPush]

/-- The probe stays within its limit. A depth that it finds is what it pushed, and the depth
that the bus has then; without one the bus is as before. -/
structure Tallies (b : Bus) (r : Except Error Nat) (b' : Bus) (ds : List Deed) : Prop where
  bounded : pushes ds ≤ probeLimit
  found : ∀ depth, r = .ok depth →
    depth = pushes ds ∧ 1 ≤ depth ∧ b' = { b with fifoDepth := depth }
  unchanged : ∀ error, r = .error error → b' = b

/-- What follows the loop of a probe that measured a depth: the second reset and a line. -/
theorem does_closing (b : Bus) (depth : Nat) :
    ((do
      (← get).resetFifos
      if depth = 0 then
        throw .fifoProbeFailed
      else
        modify ({ · with fifoDepth := depth })
        Proc.log (.fifoDepth depth)
        return depth : BusProc Nat).run.run b).Does (probeRule filler) past
      fun r closing => pushes closing = 0 ∧ (∀ error, r.1 = .error error → r.2 = b) ∧
        ∀ found, r.1 = .ok found →
          found = depth ∧ 1 ≤ found ∧ r.2 = { b with fifoDepth := found } := by
  rw [run_bind_get]
  refine Proc.Does.bind_attempt b.does_resetFifos (fun _ _ hdone => ⟨hdone, fun _ _ => rfl, nofun⟩)
    fun _ done hdone => ?_
  by_cases hzero : depth = 0
  · rw [if_pos hzero]
    exact .pure ⟨hdone, fun _ _ => rfl, nofun⟩
  · rw [if_neg hzero]
    refine ⟨trivial, [.line (.fifoDepth depth)], rfl, by simpa [Deed.isPush] using hdone, nofun,
      fun found hfound => ?_⟩
    cases hfound
    exact ⟨rfl, Nat.pos_of_ne_zero hzero, rfl⟩

theorem does_discoverFifoDepth (b : Bus) (filler : UInt8) (block : RegisterBlock σ) (s : σ) :
    ∃ reset m r t, b.resetFifos.run.run block s = (some reset, m) ∧
      pushes (b.resetFifos.run.deeds block s) = 0 ∧
      ((discoverFifoDepth filler).run.run b).run block s = (some r, t) ∧
      Obeys (probeRule filler) (((discoverFifoDepth filler).run.run b).deeds block s) ∧
      (∀ error, reset = .error error → r = (.error error, b) ∧
        ((discoverFifoDepth filler).run.run b).deeds block s =
          b.resetFifos.run.deeds block s) ∧
      ∀ a, reset = .ok a → ∃ done, ((discoverFifoDepth filler).run.run b).deeds block s =
          done ++ b.resetFifos.run.deeds block s ∧
        (∃ loop, Restores loop done) ∧ b.Tallies r.1 r.2 done := by
  refine bind_on_block (run_bind_get b _) b.does_resetFifos (fun _ past => ?_) (fun _ => id) block s
  refine (does_measureDepth filler).bind_attempt ?_ ?_
  · rintro error done ⟨hrestores, hbounded, -⟩
    exact ⟨hrestores, hbounded, nofun, fun _ _ => rfl⟩
  · rintro depth done ⟨⟨loop, hrestores⟩, hbounded, hdepth⟩
    obtain rfl := hdepth depth rfl
    refine (b.does_closing (pushes done)).mono ?_
    rintro r closing ⟨hclosing, hunchanged, hfound⟩
    have hsame : pushes (closing ++ done) = pushes done := by
      rw [pushes_append, hclosing, Nat.zero_add]
    exact ⟨⟨loop, hrestores.closed hclosing⟩, hsame ▸ hbounded, hsame ▸ hfound, hunchanged⟩

/-- A probe that ended with `r`, and left the bus `b'`, after the deeds `ds`, the first of
which are those of the first reset. -/
structure Probed (b : Bus) (filler : UInt8) (reset : Except Error Unit) (resetDeeds : List Deed)
    (r : Except Error Nat) (b' : Bus) (ds : List Deed) : Prop extends Tallies b r b' ds where
  lawful : Obeys (probeRule filler) ds
  /-- A reset that fails ends the probe. -/
  refused : ∀ error, reset = .error error → r = .error error ∧ ds = resetDeeds
  restored : reset = .ok () →
    ∃ loop done, ds = done ++ resetDeeds ∧ pushes resetDeeds = 0 ∧ Restores loop done

/-- **Probing measures the FIFO on any device.** Whatever the device answers, whatever the
wait budget and the filler: the probe ends, it keeps to the rule, it pushes at most as often
as its limit, a depth that it answers is how often it pushed and is kept, a probe that fails
leaves the bus as it was, and once it got past the first reset it puts the control word back
that it read. -/
theorem probe_exact (b : Bus) (filler : UInt8) (block : RegisterBlock σ) (s : σ) :
    ∃ reset m r b' t, b.resetFifos.run.run block s = (some reset, m) ∧
      ((discoverFifoDepth filler).run.run b).run block s = (some (r, b'), t) ∧
      b.Probed filler reset (b.resetFifos.run.deeds block s) r b'
        (((discoverFifoDepth filler).run.run b).deeds block s) := by
  obtain ⟨reset, m, ⟨r, b'⟩, t, hreset, hquiet, hrun, hlawful, hfailed, hpast⟩ :=
    b.does_discoverFifoDepth filler block s
  refine ⟨reset, m, r, b', t, hreset, hrun, ?_, hlawful, fun error hr => ?_, fun hok => ?_⟩
  · cases hr : reset with
    | error error =>
      obtain ⟨heq, hds⟩ := hfailed error hr
      cases heq
      refine ⟨?_, nofun, fun _ _ => rfl⟩
      rw [hds, hquiet]
      exact Nat.zero_le _
    | ok a =>
      obtain ⟨done, hds, -, htally⟩ := hpast a hr
      have hpushes : pushes (((discoverFifoDepth filler).run.run b).deeds block s) =
          pushes done := by
        rw [hds, pushes_append, hquiet, Nat.add_zero]
      exact ⟨hpushes ▸ htally.bounded, hpushes ▸ htally.found, htally.unchanged⟩
  · obtain ⟨heq, hds⟩ := hfailed error hr
    cases heq
    exact ⟨rfl, hds⟩
  · obtain ⟨done, hds, ⟨loop, hrestores⟩, -⟩ := hpast () hok
    exact ⟨loop, done, hds, hquiet, hrestores⟩

end Bus

end NorFlash
