import NorFlash.Proofs.Totality

/-!
# Ledger — the bursts of a past

The deeds of a run tell which bursts it ran. A burst begins where a slave is
selected and ends where all of them are deselected; the bytes pushed in between
are what it sent, and the bytes pulled are what it received. A ledger follows this
deed by deed, and with it the sector that the controller has cached, which its log
lines tell.

A transaction adds the burst of its command, unless it failed before it selected a
slave. From there on each operation is followed with the bursts it adds.
-/

namespace NorFlash

open Bus (selectWord)

variable {α β σ : Type}

/-- A burst: the slave-select word it ran under, the sector that was cached then,
and the bytes that it sent and received. -/
structure Burst where
  select : UInt32
  sector : UInt8
  sent : Bytes
  received : Bytes
  deriving DecidableEq, Repr

/-- What the deeds of a run come to: the cached sector, the slave-select word and what
was pushed and pulled under it, and the bursts that ended, the first one first. -/
structure Ledger where
  sector : UInt8
  select : UInt32 := slaveSelectNone
  sent : Bytes := []
  received : Bytes := []
  bursts : List Burst := []
  deriving DecidableEq, Repr

namespace Ledger

/-- The burst that is under way. -/
def burst (l : Ledger) : Burst :=
  ⟨l.select, l.sector, l.sent, l.received⟩

/-- The ledger after one more deed. -/
def after (l : Ledger) : Deed → Ledger
  | .write .slaveSelect word =>
    { l with
      select := word
      sent := []
      received := []
      bursts := if word = slaveSelectNone then l.bursts ++ [l.burst] else l.bursts }
  | .write .tx word => { l with sent := l.sent ++ [word.toUInt8] }
  | .read .rx word => { l with received := l.received ++ [word.toUInt8] }
  | .line (.slaveSwitched _) => { l with sector := sectorNone }
  | .line (.sectorSelected sector) => { l with sector }
  | _ => l

/-- The ledger after the deeds of a list, the newest of which comes first. -/
def afterAll (l : Ledger) : List Deed → Ledger
  | [] => l
  | d :: past => (l.afterAll past).after d

end Ledger

/-! ## Procedures and their entries -/

namespace Proc

/-- From this ledger the procedure goes, whatever it reads, to one with `A`. -/
def Enters (p : Proc α) (l : Ledger) (A : α → Ledger → Prop) : Prop :=
  ∀ start past, Ledger.afterAll start past = l →
    p.Leads Terms.lax.rule past fun a past => A a (start.afterAll past)

/-- The procedure neither pushes nor pulls, and selects nothing. -/
def Quiet (p : Proc α) : Prop :=
  ∀ l, p.Enters l fun _ l' => l' = l

variable {p : Proc α} {f : α → Proc β} {l : Ledger} {A M : α → Ledger → Prop}
  {B : β → Ledger → Prop}

namespace Enters

theorem mono (h : p.Enters l M) (hm : ∀ a l, M a l → A a l) : p.Enters l A :=
  fun start past hl => (h start past hl).mono fun a _ ha => hm a _ ha

theorem pure {a : α} (h : A a l) : (Pure.pure a : Proc α).Enters l A := by
  rintro start past rfl
  exact h

theorem bind (hp : p.Enters l M) (hf : ∀ a l, M a l → (f a).Enters l B) :
    (p >>= f).Enters l B :=
  fun start past hl => Leads.bind (hp start past hl) fun a past ha => hf a _ ha start past rfl

/-- What is known of the value beside the ledger. -/
theorem and_abides {P : α → Prop} (h : p.Enters l A) (hp : p.Abides .lax P) :
    p.Enters l fun a l => P a ∧ A a l :=
  fun start past hl => (h start past hl).and (hp past)

theorem store {r : Register} {word : UInt32} {A : Unit → Ledger → Prop}
    (h : A () (l.after (.write r word))) : (Proc.store r word).Enters l A := by
  rintro start past rfl
  exact ⟨Terms.rule_lax _ _, h⟩

theorem fetch {r : Register} {A : UInt32 → Ledger → Prop}
    (h : ∀ word, A word (l.after (.read r word))) : (Proc.fetch r).Enters l A := by
  rintro start past rfl word
  exact ⟨Terms.rule_lax _ _, h word⟩

theorem log {m : Message} {A : Unit → Ledger → Prop} (h : A () (l.after (.line m))) :
    (Proc.log m).Enters l A := by
  rintro start past rfl
  exact ⟨Terms.rule_lax _ _, h⟩

/-- A step of an attempt that cannot fail. -/
theorem bind_lift {f : α → Attempt β} {B : Except Error β → Ledger → Prop} (hp : p.Enters l M)
    (hf : ∀ a l, M a l → (f a).run.Enters l B) : (liftM p >>= f : Attempt β).run.Enters l B :=
  fun start past hl => Leads.bind_lift (hp start past hl) fun a _ ha => hf a _ ha start _ rfl

/-- What a run ends in, and the ledger of its deeds. -/
theorem of_run (h : p.Enters l A) {b : RegisterBlock σ} {s t : σ} {a : α}
    (hrun : p.run b s = (some a, t)) : A a (l.afterAll (p.deeds b s)) := by
  have hend := ((h l [] rfl).obeys trivial b s).2
  rw [hrun, List.append_nil] at hend
  exact hend

end Enters

namespace Quiet

theorem pure (a : α) : (Pure.pure a : Proc α).Quiet := fun _ => .pure rfl

theorem bind (hp : p.Quiet) (hf : ∀ a, (f a).Quiet) : (p >>= f).Quiet :=
  fun l => .bind (hp l) fun a _ hl => hl ▸ hf a l

theorem enters (hp : p.Quiet) (hf : ∀ a, (f a).Enters l B) : (p >>= f).Enters l B :=
  .bind (hp l) fun a _ hl => hl ▸ hf a

theorem enters_lift {f : α → Attempt β} {B : Except Error β → Ledger → Prop} (hp : p.Quiet)
    (hf : ∀ a, (f a).run.Enters l B) : (liftM p >>= f : Attempt β).run.Enters l B :=
  .bind_lift (hp l) fun a _ hl => hl ▸ hf a

theorem status : Proc.status.Quiet := fun _ => .fetch fun _ => rfl

theorem control : Proc.control.Quiet := fun _ => .fetch fun _ => rfl

theorem setControl (word : UInt32) : (Proc.setControl word).Quiet := fun _ => .store rfl

theorem pause (us : UInt32) : (Proc.pause us).Quiet :=
  fun _ _ _ hl => ⟨Terms.rule_lax _ _, hl⟩

theorem giveWay : Proc.giveWay.Quiet := fun _ _ _ hl => ⟨Terms.rule_lax _ _, hl⟩

theorem checked (o : Option α) : (Proc.checked o).Quiet := fun _ _ _ hl => by
  cases o with
  | none => exact Terms.rule_lax _ _
  | some a => exact hl

theorem count (n : Nat) : (Proc.count n).Quiet := fun _ _ _ hl => by
  rw [Proc.count]
  split
  · exact hl
  · exact Terms.rule_lax _ _

theorem advance (offset : UInt64) (n : Nat) : (Proc.advance offset n).Quiet := fun _ _ _ hl => by
  rw [Proc.advance]
  split
  · exact hl
  · exact Terms.rule_lax _ _

theorem poll {condition : Proc Bool} (h : condition.Quiet) (us : UInt32) (spent left : Nat) :
    (PollBudget.poll condition (Proc.pause us) PollBudget.unlimited spent left).Quiet := by
  induction left generalizing spent with
  | zero =>
    refine bind h fun yes => ?_
    cases yes <;> exact pure _
  | succ left ih =>
    refine bind h fun yes => ?_
    cases yes with
    | true => exact pure _
    | false => exact bind (pause us) fun _ => ih _

theorem lift (hp : p.Quiet) : (liftM p : Attempt α).run.Quiet :=
  bind hp fun _ => pure _

theorem bind_attempt {x : Attempt α} {f : α → Attempt β} (hx : x.run.Quiet)
    (hf : ∀ a, (f a).run.Quiet) : (x >>= f).run.Quiet :=
  bind hx fun r => by
    cases r with
    | ok a => exact hf a
    | error e => exact pure _

end Quiet

end Proc

/-! ## Transactions -/

theorem Arrival.refused_ne_ok (error : Error) : (Arrival.refused error).outcome ≠ .ok () := nofun

namespace Bus

open Proc (Quiet Enters)

variable {l : Ledger}

theorem quiet_await {condition : Proc Bool} (h : condition.Quiet) (b : Bus) :
    (b.await condition).Quiet := by
  rw [await_eq]
  exact .poll h _ _ _

theorem quiet_fifosIdle : fifosIdle.Quiet := .bind .status fun _ => .pure _

theorem quiet_txSettled : txSettled.Quiet := .bind .status fun _ => .pure _

theorem quiet_rxEmpty : rxEmpty.Quiet := .bind .status fun _ => .pure _

theorem quiet_log {m : Message} (h : ∀ l : Ledger, l.after (.line m) = l) : (Proc.log m).Quiet :=
  fun l => .log (h l)

theorem quiet_checkErrors : checkErrors.run.Quiet := by
  refine .bind_attempt (.lift .status) fun status => ?_
  split
  · exact .bind_attempt (.lift (quiet_log fun _ => rfl)) fun _ => .pure _
  · exact .pure _

theorem quiet_resetFifos (b : Bus) : b.resetFifos.run.Quiet := by
  refine .bind_attempt (.lift quiet_fifosIdle) fun idle => ?_
  split
  · exact .pure _
  · refine .bind_attempt (.lift .control) fun control => ?_
    refine .bind_attempt (.lift (.setControl _)) fun _ => ?_
    refine .bind_attempt (.lift (quiet_await quiet_fifosIdle b)) fun waited => ?_
    cases waited with
    | some _ => exact .pure _
    | none => exact .bind_attempt (.lift .status) fun _ =>
        .bind_attempt (.lift (quiet_log fun _ => rfl)) fun _ => .pure _

theorem enters_push (bytes : Bytes) :
    (push bytes).Enters l fun _ l' => l' = { l with sent := l.sent ++ bytes } := by
  induction bytes generalizing l with
  | nil =>
    refine Enters.pure ?_
    rw [List.append_nil]
  | cons byte rest ih =>
    refine Enters.bind (Enters.store (A := fun _ l' => l' = { l with sent := l.sent ++ [byte] })
      ?_) fun _ l' hl => (ih (l := l')).mono fun _ l'' hl' => ?_
    · show ({ l with sent := l.sent ++ [byte.toUInt32.toUInt8] } : Ledger) = _
      rw [UInt8.toUInt8_toUInt32]
    · rw [hl', hl, List.append_assoc]
      rfl

/-- What follows a burst that was transmitted. -/
theorem quiet_settle (settled : Option Nat) :
    (match settled with
      | some _ => checkErrors
      | none => do
        let status ← Proc.status
        if Status.hasError status then
          Proc.log (.burstFailed status)
          throw (.protocol status)
        else
          Proc.log (.burstTimedOut status)
          throw (.timeout .txDrain) : Attempt Unit).run.Quiet := by
  cases settled with
  | some _ => exact quiet_checkErrors
  | none =>
    refine .bind_attempt (.lift .status) fun status => ?_
    split <;> exact .bind_attempt (.lift (quiet_log fun _ => rfl)) fun _ => .pure _

/-- A transmission pushes the bytes of the command and pulls none. -/
theorem enters_transmit (b : Bus) {bytes : Bytes} (hfit : bytes.length ≤ b.fifoDepth) :
    (b.transmit bytes).run.Enters l fun _ l' => l' = { l with sent := l.sent ++ bytes } := by
  rw [transmit, if_neg (Nat.not_lt.mpr hfit)]
  refine Quiet.control.enters_lift fun control => ?_
  refine (Quiet.setControl _).enters_lift fun _ => ?_
  refine Enters.bind_lift (enters_push bytes) fun _ l' hl => ?_
  refine (Quiet.setControl _).enters_lift fun _ => ?_
  refine (quiet_await quiet_txSettled b).enters_lift fun settled => ?_
  refine (Quiet.setControl _).enters_lift fun _ => ?_
  refine (quiet_settle settled l').mono fun _ _ hl' => hl'.trans hl

/-- Pulling brings the bytes that the ledger gains, all that were asked for if it goes
well. -/
theorem enters_pull (expected left : Nat) (got : Bytes) :
    (pull expected none left got.length got).Enters l fun arrival l' =>
      ∃ bytes, l' = { l with received := l.received ++ bytes } ∧
        arrival.bytes = got.reverse ++ bytes ∧
        (arrival.outcome = .ok () → bytes.length = left) := by
  have hnone : l = { l with received := l.received ++ [] } := by rw [List.append_nil]
  induction left generalizing got l with
  | zero =>
    refine quiet_rxEmpty.enters fun empty => ?_
    split
    · refine quiet_checkErrors.enters fun r => Enters.pure ?_
      exact ⟨[], hnone, (List.append_nil _).symm, fun _ => rfl⟩
    · refine (quiet_log fun _ => rfl).enters fun _ => Enters.pure ?_
      exact ⟨[], hnone, (List.append_nil _).symm, nofun⟩
  | succ left ih =>
    refine quiet_rxEmpty.enters fun empty => ?_
    split
    · exact Enters.pure ⟨[], hnone, (List.append_nil _).symm, nofun⟩
    · refine Enters.bind (M := fun byte l' => l' = { l with received := l.received ++ [byte] }) ?_
        fun byte l' hl => ?_
      · exact Enters.bind (Enters.fetch (A := fun word l' =>
          l' = { l with received := l.received ++ [word.toUInt8] }) fun _ => rfl)
          fun _ _ hl => Enters.pure hl
      · refine (ih (l := l') (byte :: got) (by rw [List.append_nil])).mono ?_
        rintro arrival _ ⟨bytes, rfl, hbytes, hlen⟩
        refine ⟨byte :: bytes, ?_, ?_, fun hok => ?_⟩
        · rw [hl, List.append_assoc]
          rfl
        · rw [hbytes, List.reverse_cons, List.append_assoc]
          rfl
        · rw [List.length_cons, hlen hok]

/-- A transfer sends its command. If the response is wanted, it is what was received. -/
theorem enters_transfer (b : Bus) {command : Bytes} (wanted : Bool)
    (hfit : command.length ≤ b.fifoDepth) :
    (b.transfer command wanted).Enters l fun arrival l' => ∃ received,
      l' = { l with sent := l.sent ++ command, received := l.received ++ received } ∧
        (wanted = true → arrival.bytes = received ∧
          (arrival.outcome = .ok () → received.length = command.length)) := by
  refine Enters.bind (b.enters_transmit hfit) fun r l' hl => ?_
  subst hl
  rcases r with error | _
  · exact Enters.pure ⟨[], by rw [List.append_nil], fun _ =>
      ⟨rfl, fun hok => absurd hok (Arrival.refused_ne_ok error)⟩⟩
  cases wanted with
  | true =>
    rw [if_pos rfl, receive_self]
    refine (enters_pull _ _ []).mono ?_
    rintro arrival _ ⟨bytes, rfl, hbytes, hlen⟩
    exact ⟨bytes, rfl, fun _ => ⟨hbytes, hlen⟩⟩
  | false =>
    refine Enters.bind (M := fun _ l' => ∃ received, l' = { l with
      sent := l.sent ++ command, received := l.received ++ received }) ?_ ?_
    · refine Enters.bind (enters_pull _ _ []) ?_
      rintro arrival _ ⟨bytes, rfl, -⟩
      exact Enters.pure ⟨bytes, rfl⟩
    · rintro r _ ⟨bytes, rfl⟩
      have hwanted : ∀ arrival : Arrival, false = true →
          arrival.bytes = bytes ∧ (arrival.outcome = .ok () → bytes.length = command.length) :=
        fun _ hfalse => absurd hfalse Bool.false_ne_true
      cases r with
      | error e =>
        exact (quiet_log fun _ => rfl).enters fun _ => Enters.pure ⟨bytes, rfl, hwanted _⟩
      | ok _ => exact Enters.pure ⟨bytes, rfl, hwanted _⟩

end Bus

/-! ## Bursts that are added -/

namespace Burst

/-- The burst sent this command to this slave, while this sector was cached. -/
structure Carries (x : Burst) (slave sector : UInt8) (command : Bytes) : Prop where
  select : x.select = selectWord slave
  sector : x.sector = sector
  sent : x.sent = command

/-- The response says that the chip is not busy. -/
def Ready (x : Burst) : Prop :=
  x.received.getD 1 0 &&& Opcode.busyBit = 0

end Burst

/-- While this sector is cached the procedure adds bursts with `A`. -/
def Proc.Adds (p : Proc α) (sector : UInt8) (A : α → List Burst → Prop) : Prop :=
  ∀ l : Ledger, l.sector = sector → p.Enters l fun a l' =>
    l'.sector = sector ∧ ∃ added, l'.bursts = l.bursts ++ added ∧ A a added

theorem Proc.Quiet.adds {p : Proc α} {sector : UInt8} (hp : p.Quiet) :
    p.Adds sector fun _ added => added = [] := by
  intro l hl
  refine (hp l).mono ?_
  rintro _ _ rfl
  exact ⟨hl, [], (List.append_nil _).symm, rfl⟩

namespace Proc.Adds

variable {p : Proc α} {f : α → Proc β} {sector : UInt8} {A M : α → List Burst → Prop}
  {B : β → List Burst → Prop}

theorem mono (h : p.Adds sector M) (hm : ∀ a added, M a added → A a added) : p.Adds sector A :=
  fun l hl => (h l hl).mono fun a _ ⟨hs, added, hb, ha⟩ => ⟨hs, added, hb, hm a added ha⟩

/-- What is known of the value beside the bursts. -/
theorem and_abides {P : α → Prop} (h : p.Adds sector A) (hp : p.Abides .lax P) :
    p.Adds sector fun a added => P a ∧ A a added :=
  fun l hl => ((h l hl).and_abides hp).mono
    fun _ _ ⟨hv, hs, added, hb, ha⟩ => ⟨hs, added, hb, hv, ha⟩

theorem pure {a : α} (h : A a []) : (Pure.pure a : Proc α).Adds sector A :=
  fun _ hl => .pure ⟨hl, [], (List.append_nil _).symm, h⟩

theorem bind (hp : p.Adds sector M)
    (hf : ∀ a added, M a added → (f a).Adds sector fun b more => B b (added ++ more)) :
    (p >>= f).Adds sector B := by
  refine fun l hl => .bind (hp l hl) ?_
  rintro a _ ⟨hl', added, hb, ha⟩
  refine (hf a added ha _ hl').mono ?_
  rintro b l'' ⟨hl'', more, hb', hb''⟩
  exact ⟨hl'', added ++ more, by rw [hb', hb, List.append_assoc], hb''⟩

theorem quiet (hp : p.Quiet) (hf : ∀ a, (f a).Adds sector B) : (p >>= f).Adds sector B :=
  fun l hl => hp.enters fun a => hf a l hl

/-- A step of an attempt that cannot fail. -/
theorem bind_lift {f : α → Attempt β} {B : Except Error β → List Burst → Prop}
    (hp : p.Adds sector M)
    (hf : ∀ a added, M a added → (f a).run.Adds sector fun r more => B r (added ++ more)) :
    (liftM p >>= f : Attempt β).run.Adds sector B := by
  refine bind (M := fun r added => ∃ a, r = .ok a ∧ M a added) (bind hp fun a added ha => ?_) ?_
  · exact pure ⟨a, rfl, (List.append_nil added).symm ▸ ha⟩
  · rintro _ added ⟨a, rfl, ha⟩
    exact hf a added ha

end Proc.Adds

/-- The same of an attempt: it ends with `A`, or fails with `E`. -/
def Attempt.Adds (x : Attempt α) (sector : UInt8) (A : α → List Burst → Prop)
    (E : List Burst → Prop) : Prop :=
  x.run.Adds sector fun r added =>
    match r with
    | .ok a => A a added
    | .error _ => E added

/-- One burst of this command was tried. -/
def Tried (slave sector : UInt8) (command : Bytes) (added : List Burst) : Prop :=
  added = [] ∨ ∃ x : Burst, added = [x] ∧ x.Carries slave sector command

theorem Tried.carries {slave sector : UInt8} {command : Bytes} {added : List Burst}
    (h : Tried slave sector command added) : ∀ x ∈ added, x.Carries slave sector command := by
  rcases h with rfl | ⟨x, rfl, hx⟩
  · exact fun _ hmem => absurd hmem List.not_mem_nil
  · exact fun y hmem => List.mem_singleton.mp hmem ▸ hx

/-- Status reads, the last of which reported ready. -/
def Polled (slave sector : UInt8) (added : List Burst) : Prop :=
  (∀ x ∈ added, x.Carries slave sector [Opcode.readStatus, 0]) ∧
    ∃ front last, added = front ++ [last] ∧ last.Ready

namespace Bus

open Proc (Quiet Enters Adds)

variable {sector : UInt8}

/-- **A transaction adds the burst of its command**; it adds none only if it fails. -/
theorem adds_transaction (b : Bus) (command : Bytes) (wanted : Bool) (sector : UInt8) :
    (b.transaction command wanted).Adds sector fun arrival added =>
      added = [] ∧ arrival.outcome ≠ .ok () ∨
        ∃ x, added = [x] ∧ x.Carries b.slave sector command ∧
          (wanted = true → arrival.bytes = x.received ∧
            (arrival.outcome = .ok () → x.received.length = command.length)) := by
  rw [transaction]
  by_cases hfit : b.fifoDepth < command.length
  · rw [if_pos hfit]
    exact .pure (.inl ⟨rfl, Arrival.refused_ne_ok _⟩)
  rw [if_neg hfit]
  refine .quiet b.quiet_resetFifos fun r => ?_
  rcases r with error | _
  · exact .pure (.inl ⟨rfl, Arrival.refused_ne_ok _⟩)
  dsimp only
  split
  · rename_i hlt
    intro l hl
    refine Enters.bind (M := fun _ l' => l' = { l with
      select := selectWord b.slave, sent := [], received := [] }) ?_ fun _ l' hl' => ?_
    · rw [activate_some, if_pos hlt]
      refine Enters.store ?_
      rw [Ledger.after, if_neg (selectWord_ne_none hlt)]
    subst hl'
    refine Enters.bind (b.enters_transfer wanted (Nat.not_lt.mp hfit)) ?_
    rintro arrival _ ⟨received, rfl, hreceived⟩
    refine Enters.bind (Enters.store (A := fun _ l' => l'.sector = sector ∧ l'.bursts =
      l.bursts ++ [⟨selectWord b.slave, l.sector, command, received⟩]) ⟨hl, ?_⟩) ?_
    · rw [Ledger.after, if_pos rfl]
      rfl
    · rintro _ _ ⟨hl', hb⟩
      exact Enters.pure ⟨hl', _, hb, .inr ⟨_, rfl, ⟨rfl, hl, rfl⟩, hreceived⟩⟩
  · exact .pure (.inl ⟨rfl, Arrival.refused_ne_ok _⟩)

theorem adds_send (b : Bus) (command : Bytes) (sector : UInt8) :
    Attempt.Adds (b.send command) sector
      (fun _ added => ∃ x, added = [x] ∧ x.Carries b.slave sector command)
      (Tried b.slave sector command) := by
  refine .bind (b.adds_transaction command false sector) ?_
  rintro ⟨bytes, outcome⟩ added hadded
  refine .pure ?_
  rw [List.append_nil]
  cases outcome with
  | error e => exact hadded.imp And.left fun ⟨x, hx, hcarries, _⟩ => ⟨x, hx, hcarries⟩
  | ok _ =>
    rcases hadded with ⟨-, hne⟩ | ⟨x, hx, hcarries, -⟩
    · exact absurd rfl hne
    · exact ⟨x, hx, hcarries⟩

/-- The response of an exchange is what its burst received. -/
theorem adds_exchange (b : Bus) (command : Bytes) (sector : UInt8) :
    Attempt.Adds (b.exchange command) sector
      (fun response added => ∃ x, added = [x] ∧ x.Carries b.slave sector command ∧
        response = x.received)
      (Tried b.slave sector command) := by
  refine .bind_lift (b.adds_transaction command true sector) ?_
  rintro ⟨bytes, outcome⟩ added hadded
  cases outcome with
  | error e =>
    refine .pure ?_
    rw [List.append_nil]
    exact hadded.imp And.left fun ⟨x, hx, hcarries, _⟩ => ⟨x, hx, hcarries⟩
  | ok _ =>
    refine .pure ?_
    rw [List.append_nil]
    rcases hadded with ⟨-, hne⟩ | ⟨x, hx, hcarries, hreceived⟩
    · exact absurd rfl hne
    · obtain ⟨hbytes, hlen⟩ := hreceived rfl
      refine ⟨x, hx, hcarries, ?_⟩
      dsimp only at hbytes
      rw [Arrival.into, hbytes, hlen rfl, List.drop_length, List.append_nil]

theorem adds_isReady (b : Bus) (sector : UInt8) :
    b.isReady.Adds sector fun yes added =>
      Tried b.slave sector [Opcode.readStatus, 0] added ∧
        (yes = true → ∃ x, added = [x] ∧ x.Ready) := by
  refine .bind (b.adds_exchange [Opcode.readStatus, 0] sector) fun r added hadded => ?_
  cases r with
  | ok response =>
    obtain ⟨x, rfl, hcarries, rfl⟩ := hadded
    exact .pure ⟨.inr ⟨x, rfl, hcarries⟩, fun hyes => ⟨x, rfl, beq_iff_eq.mp hyes⟩⟩
  | error e =>
    refine .quiet (quiet_log fun _ => rfl) fun _ => .pure ?_
    rw [List.append_nil]
    exact ⟨hadded, nofun⟩

/-- A poll adds status reads, and if it ends in time, the last one reported ready. -/
theorem adds_poll (b : Bus) (us : UInt32) (spent left : Nat) :
    (PollBudget.poll b.isReady (Proc.pause us) PollBudget.unlimited spent left).Adds sector
      fun waited added =>
        (∀ x ∈ added, x.Carries b.slave sector [Opcode.readStatus, 0]) ∧
          (waited ≠ none → ∃ front last, added = front ++ [last] ∧ last.Ready) := by
  have hdone : ∀ {added : List Burst} {waited : Option Nat},
      Tried b.slave sector [Opcode.readStatus, 0] added →
      (waited ≠ none → ∃ x, added = [x] ∧ x.Ready) →
      (∀ x ∈ added, x.Carries b.slave sector [Opcode.readStatus, 0]) ∧
        (waited ≠ none → ∃ front last, added = front ++ [last] ∧ last.Ready) :=
    fun htried hready => ⟨htried.carries, fun hne => by
      obtain ⟨x, rfl, hx⟩ := hready hne
      exact ⟨[], x, rfl, hx⟩⟩
  induction left generalizing spent with
  | zero =>
    refine .bind (b.adds_isReady sector) fun yes added ⟨htried, hready⟩ => .pure ?_
    rw [List.append_nil]
    refine hdone htried fun hne => hready ?_
    cases yes with
    | true => rfl
    | false => exact absurd rfl hne
  | succ left ih =>
    refine .bind (b.adds_isReady sector) fun yes added ⟨htried, hready⟩ => ?_
    cases yes with
    | true =>
      refine .pure ?_
      rw [List.append_nil]
      exact hdone htried fun _ => hready rfl
    | false =>
      refine .quiet (.pause us) fun _ => (ih _).mono fun waited more ⟨hall, hlast⟩ => ?_
      refine ⟨fun x hx => ?_, fun hne => ?_⟩
      · exact (List.mem_append.mp hx).elim (htried.carries x) (hall x)
      · obtain ⟨front, last, rfl, hx⟩ := hlast hne
        exact ⟨added ++ front, last, by rw [List.append_assoc], hx⟩

/-- **A wait that ends well ends with a status read that reported ready.** -/
theorem adds_waitUntilReady (b : Bus) (sector : UInt8) :
    Attempt.Adds b.waitUntilReady sector (fun _ => Polled b.slave sector)
      (fun added => ∀ x ∈ added, x.Carries b.slave sector [Opcode.readStatus, 0]) := by
  rw [waitUntilReady, await_eq]
  refine .bind_lift (b.adds_poll _ _ _) fun waited added hpost => ?_
  obtain ⟨hall, hlast⟩ := hpost
  cases waited with
  | some _ =>
    refine .pure ?_
    rw [List.append_nil]
    exact ⟨hall, hlast (Option.some_ne_none _)⟩
  | none =>
    refine .bind_lift (quiet_log fun _ => rfl).adds fun _ more hmore => .pure ?_
    rw [hmore, List.append_nil, List.append_nil]
    exact hall

end Bus

end NorFlash
