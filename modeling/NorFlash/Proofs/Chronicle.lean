import NorFlash.Proofs.Checks

/-!
# Chronicle — what operations do to a block, deed by deed

`Proc.deeds` lists what a run does on a block. A rule says which deed may follow
which past. `Proc.Leads` says that a procedure keeps to a rule whatever the block
answers: it follows the tree of the procedure and knows no block, so what it
proves holds on every block.

A passive procedure only looks, waits and logs. Most of what surrounds a burst
is passive.
-/

namespace NorFlash

/-- Something that operations do. -/
inductive Deed where
  /-- An attach begins. -/
  | attaching
  /-- Any other operation begins. -/
  | calling
  /-- The operation came to its end. -/
  | ended
  | read (register : Register) (value : UInt32)
  | write (register : Register) (value : UInt32)
  | delay (us : UInt32)
  | yield
  | line (message : Message)

variable {α β σ : Type}

/-! ## Passive procedures -/

/-- Log lines that tell of progress which later deeds depend on. -/
def Message.isMilestone : Message → Bool
  | .slaveSwitched _ | .fifoDepth _ => true
  | _ => false

/-- A deed that changes nothing that later deeds depend on. -/
def Deed.Passive : Deed → Prop
  | read .. | delay _ | yield => True
  | line m => m.isMilestone = false
  | attaching | calling | ended | write .. => False

namespace Proc

/-- Every deed of the procedure is passive, and no bounds check can fail. -/
def Passive : Proc α → Prop
  | done _ => True
  | trap | write .. => False
  | read _ next => ∀ v, (next v).Passive
  | delay _ next | yield next => (next ()).Passive
  | note m next => m.isMilestone = false ∧ (next ()).Passive

namespace Passive

variable {p : Proc α} {f : α → Proc β}

theorem pure (a : α) : (Pure.pure a : Proc α).Passive := trivial

theorem bind (hp : p.Passive) (hf : ∀ a, (f a).Passive) : (p >>= f).Passive := by
  rw [bind_eq]
  induction p with
  | done a => exact hf a
  | trap | write _ _ _ => exact hp.elim
  | read _ _ ih => exact fun v => ih v (hp v)
  | delay _ _ ih | yield _ ih => exact ih () hp
  | note _ _ ih => exact ⟨hp.1, ih () hp.2⟩

theorem fetch (r : Register) : (Proc.fetch r).Passive := fun _ => trivial

theorem status : Proc.status.Passive := fetch _

theorem control : Proc.control.Passive := fetch _

theorem pause (us : UInt32) : (Proc.pause us).Passive := trivial

theorem giveWay : Proc.giveWay.Passive := trivial

theorem log {m : Message} (h : m.isMilestone = false) : (Proc.log m).Passive := ⟨h, trivial⟩

theorem poll {condition : Proc Bool} (h : condition.Passive) (us : UInt32) (spent left : Nat) :
    (PollBudget.poll condition (Proc.pause us) PollBudget.unlimited spent left).Passive := by
  induction left generalizing spent with
  | zero =>
    refine bind h fun yes => ?_
    cases yes <;> exact pure _
  | succ left ih =>
    refine bind h fun yes => ?_
    cases yes with
    | true => exact pure _
    | false => exact bind (pause us) fun _ => ih _

theorem lift (hp : p.Passive) : (liftM p : Attempt α).run.Passive :=
  bind hp fun _ => pure _

theorem bind_attempt {x : Attempt α} {f : α → Attempt β} (hx : x.run.Passive)
    (hf : ∀ a, (f a).run.Passive) : (x >>= f).run.Passive :=
  bind hx fun r => by
    cases r with
    | ok a => exact hf a
    | error e => exact pure _

end Passive

end Proc

namespace Bus

theorem passive_fifosIdle : fifosIdle.Passive :=
  .bind .status fun _ => .pure _

theorem passive_txSettled : txSettled.Passive :=
  .bind .status fun _ => .pure _

theorem passive_txFull : txFull.Passive :=
  .bind .status fun _ => .pure _

theorem passive_rxEmpty : rxEmpty.Passive :=
  .bind .status fun _ => .pure _

theorem passive_await {condition : Proc Bool} (h : condition.Passive) (b : Bus) :
    (b.await condition).Passive := by
  rw [await_eq]
  exact .poll h _ _ _

theorem passive_checkErrors : checkErrors.run.Passive := by
  refine .bind_attempt (.lift .status) fun status => ?_
  split
  · exact .bind_attempt (.lift (.log rfl)) fun _ => .pure _
  · exact .pure _

theorem passive_pull (expected left : Nat) (got : Bytes) :
    (pull expected none left got.length got).Passive := by
  induction left generalizing got with
  | zero =>
    refine .bind passive_rxEmpty fun empty => ?_
    split
    · exact .bind passive_checkErrors fun _ => .pure _
    · exact .bind (.log rfl) fun _ => .pure _
  | succ left ih =>
    refine .bind passive_rxEmpty fun empty => ?_
    split
    · exact .pure _
    · exact .bind (.bind (.fetch _) fun _ => .pure _) fun byte => ih (byte :: got)

/-- What follows a burst that was transmitted. -/
theorem passive_settle {settled : Option Nat} :
    (match settled with
      | some _ => checkErrors
      | none => do
        let status ← Proc.status
        if Status.hasError status then
          Proc.log (.burstFailed status)
          throw (.protocol status)
        else
          Proc.log (.burstTimedOut status)
          throw (.timeout .txDrain) : Attempt Unit).run.Passive := by
  cases settled with
  | some _ => exact passive_checkErrors
  | none =>
    refine .bind_attempt (.lift .status) fun status => ?_
    split
    · exact .bind_attempt (.lift (.log rfl)) fun _ => .pure _
    · exact .bind_attempt (.lift (.log rfl)) fun _ => .pure _

end Bus

/-! ## Rules -/

/-- Every deed of a list follows those before it by the rule; the newest deed
comes first. -/
def Obeys (rule : List Deed → Deed → Prop) : List Deed → Prop
  | [] => True
  | d :: past => rule past d ∧ Obeys rule past

theorem Obeys.rule {rule : List Deed → Deed → Prop} {later past : List Deed} {d : Deed}
    (h : Obeys rule (later ++ d :: past)) : rule past d := by
  induction later with
  | nil => exact h.1
  | cons _ _ ih => exact ih h.2

namespace Proc

variable {rule : List Deed → Deed → Prop} {past : List Deed} {A M : α → List Deed → Prop}
  {B : β → List Deed → Prop}

/-- After this past the procedure keeps to the rule, whatever it reads. It ends
in a value and a past with `A`; where a bounds check fails, the operation may
end. -/
def Leads (rule : List Deed → Deed → Prop) :
    Proc α → List Deed → (α → List Deed → Prop) → Prop
  | done a, past, A => A a past
  | trap, past, _ => rule past .ended
  | read r next, past, A =>
    ∀ v, rule past (.read r v) ∧ (next v).Leads rule (.read r v :: past) A
  | write r v next, past, A =>
    rule past (.write r v) ∧ (next ()).Leads rule (.write r v :: past) A
  | delay us next, past, A => rule past (.delay us) ∧ (next ()).Leads rule (.delay us :: past) A
  | yield next, past, A => rule past .yield ∧ (next ()).Leads rule (.yield :: past) A
  | note m next, past, A => rule past (.line m) ∧ (next ()).Leads rule (.line m :: past) A

namespace Leads

variable {p : Proc α} {f : α → Proc β}

theorem mono (h : p.Leads rule past M) (hm : ∀ a past, M a past → A a past) :
    p.Leads rule past A := by
  induction p generalizing past with
  | done a => exact hm a past h
  | trap => exact h
  | read _ _ ih => exact fun v => ⟨(h v).1, ih v (h v).2⟩
  | write _ _ _ ih | delay _ _ ih | yield _ ih | note _ _ ih => exact ⟨h.1, ih () h.2⟩

theorem bind (hp : p.Leads rule past M) (hf : ∀ a past, M a past → (f a).Leads rule past B) :
    (p >>= f).Leads rule past B := by
  rw [bind_eq]
  induction p generalizing past with
  | done a => exact hf a past hp
  | trap => exact hp
  | read _ _ ih => exact fun v => ⟨(hp v).1, ih v (hp v).2⟩
  | write _ _ _ ih | delay _ _ ih | yield _ ih | note _ _ ih => exact ⟨hp.1, ih () hp.2⟩

/-- A passive procedure keeps what passive deeds keep. -/
theorem passive {I : List Deed → Prop} (hp : p.Passive)
    (hrule : ∀ past (d : Deed), d.Passive → rule past d)
    (hI : ∀ past (d : Deed), d.Passive → I past → I (d :: past)) (h : I past) :
    p.Leads rule past fun _ => I := by
  induction p generalizing past with
  | done a => exact h
  | trap | write _ _ _ => exact hp.elim
  | read r _ ih =>
    exact fun v => ⟨hrule past _ trivial, ih v (hp v) (hI past (.read r v) trivial h)⟩
  | delay us _ ih => exact ⟨hrule past _ trivial, ih () hp (hI past (.delay us) trivial h)⟩
  | yield _ ih => exact ⟨hrule past _ trivial, ih () hp (hI past .yield trivial h)⟩
  | note m _ ih => exact ⟨hrule past _ hp.1, ih () hp.2 (hI past (.line m) hp.1 h)⟩

end Leads

/-! ## Runs -/

/-- What a run on a block does; the newest deed comes first. -/
def deeds (b : RegisterBlock σ) : Proc α → σ → List Deed
  | done _, _ => []
  | trap, _ => []
  | read r next, s =>
    let (v, s) := b.read r.offset s
    (next v).deeds b (b.note (.registerRead r v) s) ++ [.read r v]
  | write r v next, s =>
    (next ()).deeds b (b.write r.offset v (b.note (.registerWrite r v) s)) ++ [.write r v]
  | delay us next, s => (next ()).deeds b (b.delay us s) ++ [.delay us]
  | yield next, s => (next ()).deeds b (b.yield s) ++ [.yield]
  | note m next, s => (next ()).deeds b (b.note m s) ++ [.line m]

/-- **A procedure that keeps to a rule does so on every block**, and there it
ends as it always ends. -/
theorem Leads.obeys {p : Proc α} (hp : p.Leads rule past A) (h : Obeys rule past)
    (b : RegisterBlock σ) (s : σ) :
    Obeys rule (p.deeds b s ++ past) ∧
      match (p.run b s).1 with
      | some a => A a (p.deeds b s ++ past)
      | none => rule (p.deeds b s ++ past) .ended := by
  induction p generalizing past s with
  | done a => exact ⟨h, hp⟩
  | trap => exact ⟨h, hp⟩
  | read r next ih =>
    rw [deeds, run, List.append_assoc]
    exact ih _ (hp _).2 ⟨(hp _).1, h⟩ _
  | write r v next ih =>
    rw [deeds, run, List.append_assoc]
    exact ih _ hp.2 ⟨hp.1, h⟩ _
  | delay us next ih =>
    rw [deeds, run, List.append_assoc]
    exact ih _ hp.2 ⟨hp.1, h⟩ _
  | yield next ih =>
    rw [deeds, run, List.append_assoc]
    exact ih _ hp.2 ⟨hp.1, h⟩ _
  | note m next ih =>
    rw [deeds, run, List.append_assoc]
    exact ih _ hp.2 ⟨hp.1, h⟩ _

end Proc

end NorFlash
