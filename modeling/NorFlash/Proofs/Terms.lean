import NorFlash.Proofs.Discipline
import NorFlash.Proofs.Location

/-!
# Terms — what may be sent in one burst

What is pushed between the selection of a slave and the deselection that follows
it is one burst. Terms say what a burst may carry, and whether a bounds check may
fail. `Proc.Abides` says that a procedure abides by terms on every block and after
every past, and what holds of the value it ends in.

A transaction sends the command it was given, so it abides by any terms that
allow that command, or that command's refusal.
-/

namespace NorFlash

variable {α β : Type} {past : List Deed}

/-! ## Bursts -/

/-- The bytes that were pushed, the first one first. -/
def sent : List Deed → Bytes
  | [] => []
  | .write .tx word :: past => sent past ++ [word.toUInt8]
  | _ :: past => sent past

theorem Deed.Passive.sent_cons {d : Deed} (h : d.Passive) : sent (d :: past) = sent past := by
  cases d with
  | read | delay | yield | line => rfl
  | attaching | calling | ended | write => exact h.elim

/-- What bursts may carry, and whether bounds checks may fail. -/
structure Terms where
  burst : Bytes → Prop
  overrun : Prop

/-- The rule that terms make: a deselection needs an allowed burst ahead of it. -/
def Terms.rule (T : Terms) (past : List Deed) : Deed → Prop
  | .write .slaveSelect word => word = slaveSelectNone → T.burst (sent (sinceSelect past))
  | .ended => T.overrun
  | _ => True

variable {T : Terms}

theorem Terms.rule_passive {d : Deed} (h : d.Passive) : T.rule past d := by
  cases d with
  | read | delay | yield | line => trivial
  | attaching | calling | ended | write => exact h.elim

theorem Terms.rule_write {r : Register} (hr : r ≠ .slaveSelect) (word : UInt32) :
    T.rule past (.write r word) := by
  cases r with
  | slaveSelect => exact absurd rfl hr
  | reset | control | status | tx | rx => trivial

/-- Any burst may be sent, and bounds checks may fail. -/
def Terms.lax : Terms where
  burst _ := True
  overrun := True

/-- Lax terms forbid nothing. -/
theorem Terms.rule_lax (past : List Deed) (d : Deed) : Terms.lax.rule past d := by
  cases d with
  | write r word => cases r <;> first | trivial | exact fun _ => trivial
  | attaching | calling | ended | read | delay | yield | line => trivial

/-- Terms that allow less make a stricter rule. -/
theorem Terms.obeys_mono {S : Terms} (hburst : ∀ bytes, S.burst bytes → T.burst bytes)
    (hoverrun : S.overrun → T.overrun) (h : Obeys S.rule past) : Obeys T.rule past := by
  induction past with
  | nil => trivial
  | cons d past ih =>
    refine ⟨?_, ih h.2⟩
    have hd := h.1
    cases d with
    | write r word =>
      cases r with
      | slaveSelect => exact fun hnone => hburst _ (hd hnone)
      | reset | control | status | tx | rx => trivial
    | ended => exact hoverrun hd
    | attaching | calling | read | delay | yield | line => trivial

/-- Since the slave-select word was written, these bytes were pushed. -/
def Pushed (bytes : Bytes) (past : List Deed) : Prop :=
  sent (sinceSelect past) = bytes

theorem Pushed.lasting {bytes : Bytes} : Lasting (Pushed bytes) := by
  intro past d hd h
  rw [Pushed, hd.sinceSelect_cons, hd.sent_cons]
  exact h

theorem Pushed.setControl {bytes : Bytes} (h : Pushed bytes past) (word : UInt32) :
    Pushed bytes (.write .control word :: past) :=
  h

theorem Pushed.sendByte {bytes : Bytes} (h : Pushed bytes past) (byte : UInt8) :
    Pushed (bytes ++ [byte]) (.write .tx byte.toUInt32 :: past) := by
  show sent (sinceSelect past) ++ [byte.toUInt32.toUInt8] = bytes ++ [byte]
  rw [show sent (sinceSelect past) = bytes from h, UInt8.toUInt8_toUInt32]

/-! ## Slices that fit -/

theorem Bytes.overwrite?_eq_some_iff {start : Nat} {new bytes result : Bytes} :
    Bytes.overwrite? start new bytes = some result ↔
      start + new.length ≤ bytes.length ∧
        result = bytes.take start ++ new ++ bytes.drop (start + new.length) := by
  constructor
  · intro h
    simp only [Bytes.overwrite?, Option.bind_eq_bind, Option.bind_eq_some_iff] at h
    obtain ⟨⟨front, rest⟩, hfront, ⟨middle, back⟩, hmiddle, hresult⟩ := h
    obtain ⟨rfl, rfl⟩ := Bytes.split?_eq_some_iff.mp hfront
    obtain ⟨rfl, hlen⟩ := Bytes.split?_eq_some_iff.mp hmiddle
    cases hresult
    refine ⟨by simp [hlen], ?_⟩
    rw [← hlen, List.take_left, ← List.append_assoc front middle back, ← List.length_append,
      List.drop_left]
  · rintro ⟨hfits, rfl⟩
    have hfront : Bytes.split? start bytes = some (bytes.take start, bytes.drop start) :=
      Bytes.split?_eq_some_iff.mpr
        ⟨(List.take_append_drop start bytes).symm, by rw [List.length_take]; omega⟩
    have hmiddle : Bytes.split? new.length (bytes.drop start) =
        some ((bytes.drop start).take new.length, (bytes.drop start).drop new.length) :=
      Bytes.split?_eq_some_iff.mpr ⟨(List.take_append_drop _ _).symm, by
        rw [List.length_take, List.length_drop]
        omega⟩
    simp [Bytes.overwrite?, hfront, hmiddle]

/-! ## Procedures that abide by terms -/

namespace Proc

/-- What is known of the ends of a procedure in two ways holds together. -/
theorem Leads.and {rule : List Deed → Deed → Prop} {p : Proc α} {A M : α → List Deed → Prop}
    (h : p.Leads rule past A) (h' : p.Leads rule past M) :
    p.Leads rule past fun a past => M a past ∧ A a past := by
  induction p generalizing past with
  | done a => exact ⟨h', h⟩
  | trap => exact h
  | read _ _ ih => exact fun v => ⟨(h v).1, ih v (h v).2 (h' v).2⟩
  | write _ _ _ ih | delay _ _ ih | yield _ ih | note _ _ ih => exact ⟨h.1, ih () h.2 h'.2⟩

/-- On every block and after every past the procedure abides by the terms, and it
ends in a value with `A`. -/
def Abides (T : Terms) (p : Proc α) (A : α → Prop) : Prop :=
  ∀ past, p.Leads T.rule past fun a _ => A a

/-- Any procedure abides by lax terms. -/
theorem abides_lax (p : Proc α) : p.Abides .lax fun _ => True := by
  intro past
  induction p generalizing past with
  | done a => trivial
  | trap => exact Terms.rule_lax _ _
  | read r next ih => exact fun v => ⟨Terms.rule_lax _ _, ih v _⟩
  | write r v next ih => exact ⟨Terms.rule_lax _ _, ih () _⟩
  | delay us next ih => exact ⟨Terms.rule_lax _ _, ih () _⟩
  | yield next ih => exact ⟨Terms.rule_lax _ _, ih () _⟩
  | note m next ih => exact ⟨Terms.rule_lax _ _, ih () _⟩

namespace Abides

variable {p : Proc α} {f : α → Proc β} {A M : α → Prop} {B : β → Prop}

theorem mono (h : p.Abides T M) (hm : ∀ a, M a → A a) : p.Abides T A :=
  fun past => (h past).mono fun a _ ha => hm a ha

theorem pure {a : α} (h : A a) : (Pure.pure a : Proc α).Abides T A := fun _ => h

theorem bind (hp : p.Abides T M) (hf : ∀ a, M a → (f a).Abides T B) : (p >>= f).Abides T B :=
  fun past => Leads.bind (hp past) fun a past ha => hf a ha past

/-- What a procedure ends in where it ends. -/
theorem of_run (h : p.Abides T A)
    {b : RegisterBlock σ} {s t : σ} {a : α} (hrun : p.run b s = (some a, t)) : A a := by
  have hend := ((h []).obeys trivial b s).2
  rwa [hrun] at hend

theorem passive (hp : p.Passive) : p.Abides T fun _ => True :=
  fun _ => Leads.passive (I := fun _ => True) hp (fun _ _ hd => T.rule_passive hd)
    (fun _ _ _ h => h) trivial

theorem store {r : Register} (hr : r ≠ .slaveSelect) (word : UInt32) :
    (Proc.store r word).Abides T fun _ => True :=
  fun _ => ⟨T.rule_write hr word, trivial⟩

theorem poll {condition : Proc Bool} (h : condition.Abides T fun _ => True) (us : UInt32)
    (spent left : Nat) :
    (PollBudget.poll condition (Proc.pause us) PollBudget.unlimited spent left).Abides T
      fun _ => True := by
  induction left generalizing spent with
  | zero =>
    refine bind h fun yes _ => ?_
    cases yes <;> exact pure trivial
  | succ left ih =>
    refine bind h fun yes _ => ?_
    cases yes with
    | true => exact pure trivial
    | false => exact bind (passive (.pause us)) fun _ _ => ih _

/-! ### Bounds checks -/

theorem checked {o : Option α} (h : T.overrun ∨ o.isSome) :
    (Proc.checked o).Abides T fun a => o = some a := by
  intro past
  cases o with
  | none => exact h.elim id nofun
  | some a => exact (rfl : some a = some a)

theorem guarded {P : Prop} [Decidable P] {a : α} (h : T.overrun ∨ P) :
    (Proc.checked (if P then some a else none)).Abides T fun b => P ∧ b = a := by
  refine (checked (h.imp_right fun hp => by rw [if_pos hp]; rfl)).mono fun b hb => ?_
  by_cases hp : P
  · rw [if_pos hp, Option.some.injEq] at hb
    exact ⟨hp, hb.symm⟩
  · rw [if_neg hp] at hb
    cases hb

theorem equal {n m : Nat} (h : T.overrun ∨ n = m) :
    (Proc.equal n m).Abides T fun _ => n = m :=
  (guarded h).mono fun _ hr => hr.1

theorem slice {start stop size : Nat} (h : T.overrun ∨ start ≤ stop ∧ stop ≤ size) :
    (Proc.slice start stop size).Abides T fun n =>
      (start ≤ stop ∧ stop ≤ size) ∧ n = stop - start :=
  guarded h

theorem count {n : Nat} (h : T.overrun ∨ n < wordLimit) :
    (Proc.count n).Abides T fun m => m = n := by
  intro past
  rw [Proc.count]
  split
  · exact (rfl : n = n)
  · rename_i hlt
    exact h.elim id fun hn => absurd hn hlt

theorem advance {offset : UInt64} {n : Nat} (h : T.overrun ∨ offset.toNat + n < wordLimit) :
    (Proc.advance offset n).Abides T fun p => p.toNat = offset.toNat + n := by
  intro past
  rw [Proc.advance]
  split
  · rename_i hlt
    exact (Nat.mod_eq_of_lt hlt : (offset.toNat + n) % wordLimit = offset.toNat + n)
  · rename_i hlt
    exact h.elim id fun hn => absurd hn hlt

theorem split {n : Nat} {bytes : Bytes} (h : T.overrun ∨ n ≤ bytes.length) :
    (Proc.split n bytes).Abides T fun r => bytes = r.1 ++ r.2 ∧ r.1.length = n :=
  (checked (h.imp_right Bytes.split?_isSome_iff.mpr)).mono
    fun _ hr => Bytes.split?_eq_some_iff.mp hr

theorem overwrite {start : Nat} {new bytes : Bytes}
    (h : T.overrun ∨ start + new.length ≤ bytes.length) :
    (Proc.overwrite start new bytes).Abides T fun r =>
      start + new.length ≤ bytes.length ∧
        r = bytes.take start ++ new ++ bytes.drop (start + new.length) := by
  refine (checked (h.imp_right fun hfits => ?_)).mono
    fun r hr => Bytes.overwrite?_eq_some_iff.mp hr
  rw [Bytes.overwrite?_eq_some_iff.mpr ⟨hfits, rfl⟩]
  rfl

end Abides

end Proc

/-! ## Attempts -/

/-- The same of an attempt; `A` holds where it does not fail. -/
def Attempt.Abides (T : Terms) (x : Attempt α) (A : α → Prop) : Prop :=
  x.run.Abides T fun r => ∀ a, r = .ok a → A a

/-- A step that cannot fail, under any rule. -/
theorem Proc.Leads.bind_lift {rule : List Deed → Deed → Prop} {p : Proc α} {f : α → Attempt β}
    {M : α → List Deed → Prop} {A : Except Error β → List Deed → Prop}
    (hp : p.Leads rule past M) (hf : ∀ a past, M a past → (f a).run.Leads rule past A) :
    (liftM p >>= f : Attempt β).run.Leads rule past A := by
  refine Proc.Leads.bind (M := fun r past => ∃ a, r = .ok a ∧ M a past) ?_ ?_
  · exact Proc.Leads.bind hp fun a _ h => ⟨a, rfl, h⟩
  · rintro _ past ⟨a, rfl, h⟩
    exact hf a past h

namespace Attempt.Abides

variable {x : Attempt α} {f : α → Attempt β} {A M : α → Prop} {B : β → Prop}

theorem pure {a : α} (h : A a) : Attempt.Abides T (Pure.pure a) A := by
  intro past a' ha
  cases ha
  exact h

theorem throw {error : Error} : Attempt.Abides T (MonadExcept.throw error : Attempt α) A :=
  fun _ _ ha => nomatch ha

theorem bind (hx : Attempt.Abides T x M) (hf : ∀ a, M a → Attempt.Abides T (f a) B) :
    Attempt.Abides T (x >>= f) B := by
  refine Proc.Abides.bind hx fun r hr => ?_
  cases r with
  | ok a => exact hf a (hr a rfl)
  | error error => exact throw

/-- A step that cannot fail. -/
theorem bind_lift {p : Proc α} (hp : p.Abides T M) (hf : ∀ a, M a → Attempt.Abides T (f a) B) :
    Attempt.Abides T (liftM p >>= f) B := by
  refine bind (Proc.Abides.bind hp fun a ha => ?_) hf
  exact pure (A := M) ha

/-- A branch whose two sides come together in `y`. -/
theorem join {P : Prop} [Decidable P] {x y : Attempt β} (hy : Attempt.Abides T y B)
    (hx : Attempt.Abides T y B → Attempt.Abides T x B) :
    Attempt.Abides T (if P then x else y) B := by
  split
  · exact hx hy
  · exact hy

end Attempt.Abides

/-! ## Transactions -/

namespace Bus

theorem selectWord_ne_none {slave : UInt8} (h : slave.toNat < maxSlaves) :
    selectWord slave ≠ slaveSelectNone := by
  have hcases : slave = 0 ∨ slave = 1 := by
    rw [← UInt8.toNat_inj, ← UInt8.toNat_inj]
    show slave.toNat = 0 ∨ slave.toNat = 1
    have : slave.toNat < 2 := h
    omega
  rcases hcases with rfl | rfl <;> decide

theorem abides_resetFifos (b : Bus) : Attempt.Abides T b.resetFifos fun _ => True := by
  refine .bind_lift (.passive passive_fifosIdle) fun idle _ => ?_
  split
  · exact .pure trivial
  · refine .bind_lift (.passive .control) fun control _ => ?_
    refine .bind_lift (.store (by decide) _) fun _ _ => ?_
    refine .bind_lift (.passive (passive_await passive_fifosIdle b)) fun waited _ => ?_
    cases waited with
    | some _ => exact .pure trivial
    | none => exact .bind_lift (.passive .status) fun _ _ =>
        .bind_lift (.passive (.log rfl)) fun _ _ => .throw

/-- A pull never brings more bytes than were asked for. -/
theorem abides_pull (expected left : Nat) (got : Bytes) :
    (pull expected none left got.length got).Abides T fun arrival =>
      arrival.bytes.length ≤ left + got.length := by
  induction left generalizing got with
  | zero =>
    refine .bind (.passive passive_rxEmpty) fun empty _ => ?_
    split
    · exact .bind (.passive passive_checkErrors) fun _ _ => .pure (by simp)
    · exact .bind (.passive (.log rfl)) fun _ _ => .pure (by simp)
  | succ left ih =>
    refine .bind (.passive passive_rxEmpty) fun empty _ => ?_
    split
    · exact .pure (by simp)
    · refine .bind (.passive (.bind (.fetch _) fun _ => .pure _)) fun byte _ => ?_
      refine (ih (byte :: got)).mono fun arrival h => ?_
      rw [List.length_cons] at h
      omega

theorem leads_push_sent {bytes carried : Bytes} (h : Pushed carried past) :
    (push bytes).Leads T.rule past fun _ => Pushed (carried ++ bytes) := by
  induction bytes generalizing carried past with
  | nil =>
    show Pushed (carried ++ []) past
    rwa [List.append_nil]
  | cons byte rest ih =>
    refine ⟨T.rule_write (by decide) _, ?_⟩
    rw [List.append_cons]
    exact ih (h.sendByte byte)

/-- Passive procedures leave what was pushed. -/
theorem leads_pushed {p : Proc α} {bytes : Bytes} (hp : p.Passive) (h : Pushed bytes past) :
    p.Leads T.rule past fun _ => Pushed bytes :=
  .passive hp (fun _ _ hd => T.rule_passive hd) Pushed.lasting h

/-- A transmission pushes the bytes of the command once, whatever comes of it. -/
theorem leads_transmit_sent (b : Bus) {bytes : Bytes} (h : Pushed [] past)
    (hfit : bytes.length ≤ b.fifoDepth) :
    (b.transmit bytes).run.Leads T.rule past fun _ => Pushed bytes := by
  rw [transmit, if_neg (Nat.not_lt.mpr hfit)]
  refine .bind_lift (leads_pushed .control h) fun control past h => ?_
  refine .bind_lift (M := fun _ => Pushed []) ⟨T.rule_write (by decide) _, h.setControl _⟩
    fun _ past h => ?_
  refine .bind_lift (leads_push_sent h) fun _ past h => ?_
  refine .bind_lift (M := fun _ => Pushed bytes) ⟨T.rule_write (by decide) _, h.setControl _⟩
    fun _ past h => ?_
  refine .bind_lift (leads_pushed (passive_await passive_txSettled b) h)
    fun settled past h => ?_
  refine .bind_lift (M := fun _ => Pushed bytes) ⟨T.rule_write (by decide) _, h.setControl _⟩
    fun _ past h => ?_
  exact leads_pushed passive_settle h

theorem leads_transfer_sent (b : Bus) {command : Bytes} (wanted : Bool) (h : Pushed [] past)
    (hfit : command.length ≤ b.fifoDepth) :
    (b.transfer command wanted).Leads T.rule past fun arrival past =>
      arrival.bytes.length ≤ command.length ∧ Pushed command past := by
  refine Proc.Leads.bind (b.leads_transmit_sent h hfit) fun r past h => ?_
  rcases r with error | _
  · exact ⟨Nat.zero_le _, h⟩
  cases wanted with
  | true =>
    rw [if_pos rfl, receive_self]
    exact (leads_pushed (passive_pull _ _ []) h).and (abides_pull _ _ [] past)
  | false =>
    refine Proc.Leads.bind (leads_pushed (.bind (passive_pull _ _ []) fun _ => .pure _) h)
      fun r past h => ?_
    cases r with
    | error e => exact ⟨trivial, Nat.zero_le _, h⟩
    | ok _ => exact ⟨Nat.zero_le _, h⟩

/-- **A transaction sends its command in one burst**, if the command fits the FIFO,
and else nothing. -/
theorem abides_transaction (b : Bus) {command : Bytes} (wanted : Bool)
    (h : command.length ≤ b.fifoDepth → T.burst command) :
    (b.transaction command wanted).Abides T fun arrival =>
      arrival.bytes.length ≤ command.length := by
  rw [transaction]
  by_cases hfit : b.fifoDepth < command.length
  · rw [if_pos hfit]
    exact .pure (Nat.zero_le _)
  rw [if_neg hfit]
  refine .bind b.abides_resetFifos fun r _ => ?_
  rcases r with error | _
  · exact .pure (Nat.zero_le _)
  dsimp only
  split
  · rename_i hlt
    intro past
    refine Proc.Leads.bind (M := fun _ => Pushed []) ?_ fun _ past hpushed => ?_
    · rw [activate_some, if_pos hlt]
      exact ⟨fun hnone => absurd hnone (selectWord_ne_none hlt), rfl⟩
    refine Proc.Leads.bind (b.leads_transfer_sent wanted hpushed (Nat.not_lt.mp hfit))
      fun arrival past hpost => ?_
    obtain ⟨hlen, hpushed⟩ := hpost
    refine ⟨fun _ => ?_, hlen⟩
    rw [hpushed]
    exact h (Nat.not_lt.mp hfit)
  · exact .pure (Nat.zero_le _)

theorem abides_send (b : Bus) {command : Bytes}
    (h : command.length ≤ b.fifoDepth → T.burst command) :
    Attempt.Abides T (b.send command) fun _ => True :=
  Proc.Abides.bind (b.abides_transaction false h) fun _ _ => .pure fun _ _ => trivial

theorem abides_exchange (b : Bus) {command : Bytes}
    (h : command.length ≤ b.fifoDepth → T.burst command) :
    Attempt.Abides T (b.exchange command) fun _ => True := by
  refine .bind_lift (b.abides_transaction true h) fun arrival _ => ?_
  cases arrival.outcome with
  | error e => exact .throw
  | ok _ => exact .pure trivial

variable (hstatus : T.burst [Opcode.readStatus, 0])
include hstatus

theorem abides_isReady (b : Bus) : b.isReady.Abides T fun _ => True := by
  refine .bind (b.abides_exchange fun _ => hstatus) fun r _ => ?_
  cases r with
  | ok response => exact .pure trivial
  | error e => exact .bind (.passive (.log rfl)) fun _ _ => .pure trivial

theorem abides_waitUntilReady (b : Bus) : Attempt.Abides T b.waitUntilReady fun _ => True := by
  rw [waitUntilReady, await_eq]
  refine .bind_lift (.poll (b.abides_isReady hstatus) _ _ _) fun waited _ => ?_
  cases waited with
  | some _ => exact .pure trivial
  | none => exact .bind_lift (.passive (.log rfl)) fun _ _ => .throw

omit hstatus

/-- No vendor has a chip with more than sixteen sectors. -/
theorem abides_identify (hid : T.burst [Opcode.readId, 0, 0, 0, 0]) (b : Bus) :
    Attempt.Abides T b.identify fun found => found.2 ≤ 16 * sectorSize := by
  refine .bind (b.abides_exchange fun _ => hid) fun id _ => ?_
  dsimp only
  split
  · exact .bind_lift (.passive (.log rfl)) fun _ _ => .throw
  · split
    · exact .bind_lift (.passive (.log rfl)) fun _ _ => .throw
    · rename_i hcapacity
      exact .bind_lift (.passive (.log rfl)) fun _ _ =>
        .pure (Vendor.capacity_bounds hcapacity).2.2

/-! ## FIFO depth -/

theorem abides_fill (filler : UInt8) {left pushed : Nat} (hlimit : pushed + left < wordLimit) :
    (fill filler left pushed).Abides T
      fun r => ∀ depth, r = some depth → depth ≤ left + pushed := by
  induction left generalizing pushed with
  | zero =>
    refine .bind (.passive passive_txFull) fun full _ => .pure fun depth hdepth => ?_
    cases full with
    | true => cases hdepth; omega
    | false => cases hdepth
  | succ left ih =>
    rw [fill_succ filler hlimit]
    refine .bind (.passive passive_txFull) fun full _ => ?_
    cases full with
    | true =>
      refine .pure fun depth hdepth => ?_
      cases hdepth
      omega
    | false =>
      refine .bind (.store (by decide) _) fun _ _ =>
        (ih (by omega)).mono fun r hr depth hdepth => ?_
      have := hr depth hdepth
      omega

theorem abides_measureDepth (filler : UInt8) :
    Attempt.Abides T (measureDepth filler) fun depth => depth ≤ probeLimit := by
  have hcontrol : ∀ word, (Proc.setControl word).Abides T fun _ => True := .store (by decide)
  refine .bind_lift (.passive .control) fun control _ => ?_
  refine .bind_lift (hcontrol _) fun _ _ => ?_
  refine .bind_lift (abides_fill filler (by decide)) fun measured hmeasured => ?_
  cases measured with
  | none =>
    exact .bind_lift (.passive (.log rfl)) fun _ _ => .bind_lift (hcontrol _) fun _ _ => .throw
  | some depth =>
    refine .bind_lift (.passive .status) fun status _ => ?_
    split
    · exact .bind_lift (.passive (.log rfl)) fun _ _ => .bind_lift (hcontrol _) fun _ _ => .throw
    · exact .bind_lift (hcontrol _) fun _ _ => .pure (hmeasured depth rfl)

/-- Measuring runs no burst, and what it finds is within its limit. -/
theorem abides_discoverFifoDepth (b : Bus) (filler : UInt8) :
    Attempt.Abides T (b.after (discoverFifoDepth filler)) fun b' =>
      ∃ depth, depth ≤ probeLimit ∧ b' = { b with fifoDepth := depth } := by
  rw [after_discoverFifoDepth]
  refine .bind b.abides_resetFifos fun _ _ => ?_
  refine .bind (abides_measureDepth filler) fun depth hdepth => ?_
  refine .bind b.abides_resetFifos fun _ _ => ?_
  split
  · exact .throw
  · refine .bind_lift (p := Proc.log (.fifoDepth depth)) (M := fun _ => True)
      (fun _ => ⟨trivial, trivial⟩) fun _ _ => .pure ⟨depth, hdepth, rfl⟩

end Bus

end NorFlash
