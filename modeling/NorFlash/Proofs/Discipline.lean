import NorFlash.Controller
import NorFlash.Proofs.Chronicle

/-!
# Discipline — how the bus may be used

Bytes are pushed into the TX FIFO only while transfers are inhibited, and only
for the active slave, which alone is selected. Each selection runs one burst and
ends deselected and inhibited again. `Permitted` states this as a rule about each
deed and the deeds before it; transactions and attaching keep to it on any block.

While a slave is selected a transaction goes through three phases: it loads
bytes, it runs the burst, and it has inhibited transfers again.
-/

namespace NorFlash

open Bus (selectWord)

variable {α : Type} {past : List Deed} {d : Deed} {slave : UInt8} {probing : Bool}

/-! ## What the past tells -/

/-- The word that was written to a register last. -/
def lastWrite? (r : Register) : List Deed → Option UInt32
  | [] => none
  | .write r' word :: past => if r' = r then some word else lastWrite? r past
  | _ :: past => lastWrite? r past

/-- The slave that operations address: the first one after an attach, then the
one switched to last. -/
def activeSlave : List Deed → UInt8
  | [] => 0
  | .attaching :: _ => 0
  | .line (.slaveSwitched slave) :: _ => slave
  | _ :: past => activeSlave past

/-- An attach is under way and has not found the FIFO depth yet. -/
def measuring : List Deed → Bool
  | [] => false
  | .attaching :: _ => true
  | .calling :: _ | .ended :: _ | .line (.fifoDepth _) :: _ => false
  | _ :: past => measuring past

/-- The deeds since the slave-select word was written last. -/
def sinceSelect : List Deed → List Deed
  | [] => []
  | .write .slaveSelect _ :: _ => []
  | d :: past => d :: sinceSelect past

/-- The word inhibits transfers. -/
def Inhibits (word : UInt32) : Prop :=
  hasAll word Control.transInhibit = true

/-! ## The rule -/

/-- Transfers are inhibited, by the control word written last. -/
def Inhibited (past : List Deed) : Prop :=
  ∃ word, lastWrite? .control past = some word ∧ Inhibits word

/-- No slave is selected: the slave-select word written last, if any, deselects
all. -/
def Deselected (past : List Deed) : Prop :=
  ∀ word, lastWrite? .slaveSelect past = some word → word = slaveSelectNone

/-- The active slave is selected, and no other: the slave-select word written
last clears its bit alone. -/
def Selected (past : List Deed) : Prop :=
  (activeSlave past).toNat < maxSlaves ∧
    lastWrite? .slaveSelect past = some (selectWord (activeSlave past))

/-- One control word of the segment lets transfers run, and `after` is what
followed it; no byte is pushed any more. -/
def StartsOnce (segment after : List Deed) : Prop :=
  ∃ word before, segment = after ++ .write .control word :: before ∧ ¬ Inhibits word ∧
    (∀ word', .write .control word' ∈ after ++ before → Inhibits word') ∧
    ∀ byte, .write .tx byte ∉ after

/-- The segment ran one burst: exactly one control word lets transfers run, all
bytes were pushed before it, and a word that inhibits transfers followed. -/
def RanOnce (segment : List Deed) : Prop :=
  ∃ after, StartsOnce segment after ∧ ∃ word, .write .control word ∈ after ∧ Inhibits word

/-- What may be done after a past.

A byte is pushed only while transfers are inhibited and, unless the FIFO depth is
being measured, while the active slave is selected. A slave is selected only if
it is the active one and no slave is selected. Slaves are deselected only after
one burst was run. Operations end with every slave deselected. -/
def Permitted (past : List Deed) : Deed → Prop
  | .write .tx _ => Inhibited past ∧ (measuring past = true ∨ Selected past)
  | .write .slaveSelect word =>
    (word = slaveSelectNone ∧ (Deselected past ∨ RanOnce (sinceSelect past))) ∨
      (word = selectWord (activeSlave past) ∧ (activeSlave past).toNat < maxSlaves ∧
        Deselected past)
  | .ended => Deselected past
  | _ => True

/-! ## Passive deeds -/

namespace Deed.Passive

variable (h : d.Passive)
include h

theorem lastWrite?_cons (r : Register) : lastWrite? r (d :: past) = lastWrite? r past := by
  cases d with
  | read | delay | yield | line => rfl
  | attaching | calling | ended | write => exact h.elim

theorem activeSlave_cons : activeSlave (d :: past) = activeSlave past := by
  cases d with
  | read | delay | yield => rfl
  | line m => cases m <;> first | rfl | cases h
  | attaching | calling | ended | write => exact h.elim

theorem measuring_cons : measuring (d :: past) = measuring past := by
  cases d with
  | read | delay | yield => rfl
  | line m => cases m <;> first | rfl | cases h
  | attaching | calling | ended | write => exact h.elim

theorem sinceSelect_cons : sinceSelect (d :: past) = d :: sinceSelect past := by
  cases d with
  | read | delay | yield | line => rfl
  | attaching | calling | ended | write => exact h.elim

theorem ne_write (r : Register) (word : UInt32) : .write r word ≠ d := by
  rintro rfl
  exact h

theorem permitted : Permitted past d := by
  cases d with
  | read | delay | yield | line => trivial
  | attaching | calling | ended | write => exact h.elim

end Deed.Passive

/-- The condition survives passive deeds. -/
def Lasting (I : List Deed → Prop) : Prop :=
  ∀ past (d : Deed), d.Passive → I past → I (d :: past)

theorem Lasting.and {I J : List Deed → Prop} (hI : Lasting I) (hJ : Lasting J) :
    Lasting fun past => I past ∧ J past :=
  fun past d hd h => ⟨hI past d hd h.1, hJ past d hd h.2⟩

theorem Inhibited.lasting : Lasting Inhibited := by
  intro past d hd h
  rw [Inhibited, hd.lastWrite?_cons]
  exact h

theorem Proc.Passive.leads {p : Proc α} (hp : p.Passive) {I : List Deed → Prop} (hI : Lasting I)
    (h : I past) : p.Leads Permitted past fun _ => I :=
  Leads.passive hp (fun _ _ hd => hd.permitted) hI h

/-! ## Words -/

/-- Bits that were just set are all there. -/
theorem hasAll_or_self (word mask : UInt32) : hasAll (word ||| mask) mask = true := by
  have habsorb : (word ||| mask) &&& mask = mask := by
    rw [← UInt32.toBitVec_inj]
    ext k hk
    simp only [UInt32.toBitVec_and, UInt32.toBitVec_or, BitVec.getElem_and, BitVec.getElem_or]
    cases word.toBitVec[k] <;> simp
  rw [hasAll, habsorb, beq_self_eq_true]

theorem inhibits_or (word : UInt32) : Inhibits (word ||| Control.transInhibit) :=
  hasAll_or_self word _

theorem not_inhibits_and_not (word : UInt32) :
    ¬ Inhibits (word &&& ~~~Control.transInhibit) := by
  have hcleared : ~~~Control.transInhibit &&& Control.transInhibit = 0 := by decide
  rw [Inhibits, hasAll, UInt32.and_assoc, hcleared, UInt32.and_zero]
  decide

/-! ## Between transactions -/

/-- No slave is selected, and this slave is the one to address. -/
structure Idle (slave : UInt8) (probing : Bool) (past : List Deed) : Prop where
  deselected : Deselected past
  active : activeSlave past = slave
  measuring : measuring past = probing

theorem Idle.lasting : Lasting (Idle slave probing) := by
  intro past d hd h
  refine ⟨?_, ?_, ?_⟩
  · rw [Deselected, hd.lastWrite?_cons]
    exact h.deselected
  · rw [hd.activeSlave_cons]
    exact h.active
  · rw [hd.measuring_cons]
    exact h.measuring

theorem Idle.write (h : Idle slave probing past) {r : Register} (hr : r ≠ .slaveSelect)
    (word : UInt32) : Idle slave probing (.write r word :: past) := by
  refine ⟨?_, h.active, h.measuring⟩
  rw [Deselected, lastWrite?, if_neg hr]
  exact h.deselected

/-- After any past with this condition the procedure keeps to the rule, and the
condition holds again at its end. -/
def Proc.Keeps (I : List Deed → Prop) (p : Proc α) : Prop :=
  ∀ past, I past → p.Leads Permitted past fun _ => I

namespace Proc.Keeps

variable {β : Type} {I : List Deed → Prop} {p : Proc α} {f : α → Proc β}

theorem pure (a : α) : (Pure.pure a : Proc α).Keeps I := fun _ h => h

theorem bind (hp : p.Keeps I) (hf : ∀ a, (f a).Keeps I) : (p >>= f).Keeps I :=
  fun past h => Leads.bind (hp past h) fun a past' h' => hf a past' h'

theorem passive (hI : Lasting I) (hp : p.Passive) : p.Keeps I := fun _ h => hp.leads hI h

/-- A register that only waiting depends on. -/
theorem store {r : Register} (htx : r ≠ .tx) (hselect : r ≠ .slaveSelect) (word : UInt32) :
    (Proc.store r word).Keeps (Idle slave probing) := by
  intro past h
  refine ⟨?_, h.write hselect word⟩
  cases r with
  | tx => exact absurd rfl htx
  | slaveSelect => exact absurd rfl hselect
  | reset | control | status | rx => trivial

theorem poll {condition : Proc Bool} (hI : Lasting I) (h : condition.Keeps I) (us : UInt32)
    (spent left : Nat) :
    (PollBudget.poll condition (Proc.pause us) PollBudget.unlimited spent left).Keeps I := by
  induction left generalizing spent with
  | zero =>
    refine bind h fun yes => ?_
    cases yes <;> exact pure _
  | succ left ih =>
    refine bind h fun yes => ?_
    cases yes with
    | true => exact pure _
    | false => exact bind (passive hI (.pause us)) fun _ => ih _

theorem lift (hp : p.Keeps I) : (liftM p : Attempt α).run.Keeps I :=
  bind hp fun _ => pure _

theorem bind_attempt {x : Attempt α} {f : α → Attempt β} (hx : x.run.Keeps I)
    (hf : ∀ a, (f a).run.Keeps I) : (x >>= f).run.Keeps I :=
  bind hx fun r => by
    cases r with
    | ok a => exact hf a
    | error e => exact pure _

/-- A failed bounds check leaves the bus idle. -/
theorem checked (o : Option α) : (Proc.checked o).Keeps (Idle slave probing) := by
  intro past h
  cases o with
  | none => exact h.deselected
  | some a => exact h

theorem count (n : Nat) : (Proc.count n).Keeps (Idle slave probing) := by
  intro past h
  rw [Proc.count]
  split
  · exact h
  · exact h.deselected

theorem advance (offset : UInt64) (n : Nat) :
    (Proc.advance offset n).Keeps (Idle slave probing) := by
  intro past h
  rw [Proc.advance]
  split
  · exact h
  · exact h.deselected

end Proc.Keeps

/-! ## A slave is selected -/

/-- The slave is selected, and what was done since is as `P` says. -/
structure Addressing (slave : UInt8) (probing : Bool) (P : List Deed → Prop)
    (past : List Deed) : Prop where
  lt : slave.toNat < maxSlaves
  active : activeSlave past = slave
  measuring : measuring past = probing
  selected : lastWrite? .slaveSelect past = some (selectWord slave)
  segment : P (sinceSelect past)

/-- Bytes are loaded: no control word has let transfers run. -/
def Loading (segment : List Deed) : Prop :=
  ∀ word, .write .control word ∈ segment → Inhibits word

/-- The burst runs. -/
def Bursting (segment : List Deed) : Prop :=
  ∃ after, StartsOnce segment after

namespace Addressing

variable {P Q : List Deed → Prop}

theorem write (h : Addressing slave probing P past) {r : Register} (hr : r ≠ .slaveSelect)
    {word : UInt32} (hQ : Q (.write r word :: sinceSelect past)) :
    Addressing slave probing Q (.write r word :: past) := by
  refine ⟨h.lt, h.active, h.measuring, ?_, ?_⟩
  · rw [lastWrite?, if_neg hr]
    exact h.selected
  · cases r with
    | slaveSelect => exact absurd rfl hr
    | reset | control | status | tx | rx => exact hQ

theorem lasting (hP : Lasting P) : Lasting (Addressing slave probing P) := by
  intro past d hd h
  refine ⟨h.lt, ?_, ?_, ?_, ?_⟩
  · rw [hd.activeSlave_cons]
    exact h.active
  · rw [hd.measuring_cons]
    exact h.measuring
  · rw [hd.lastWrite?_cons]
    exact h.selected
  · rw [hd.sinceSelect_cons]
    exact hP _ d hd h.segment

theorem isSelected (h : Addressing slave probing P past) : Selected past := by
  rw [Selected, h.active]
  exact ⟨h.lt, h.selected⟩

end Addressing

theorem Loading.lasting : Lasting Loading := by
  intro segment d hd h word hmem
  rcases List.mem_cons.mp hmem with heq | hmem
  · exact absurd heq (hd.ne_write .control word)
  · exact h word hmem

theorem Loading.cons_control {segment : List Deed} {word : UInt32} (h : Loading segment)
    (hword : Inhibits word) : Loading (.write .control word :: segment) := by
  intro word' hmem
  rcases List.mem_cons.mp hmem with heq | hmem
  · cases heq
    exact hword
  · exact h word' hmem

theorem Loading.cons_tx {segment : List Deed} {byte : UInt32} (h : Loading segment) :
    Loading (.write .tx byte :: segment) := by
  intro word hmem
  rcases List.mem_cons.mp hmem with heq | hmem
  · cases heq
  · exact h word hmem

/-- The burst starts after bytes were loaded. -/
theorem Loading.starts {segment : List Deed} {word : UInt32} (h : Loading segment)
    (hword : ¬ Inhibits word) : StartsOnce (.write .control word :: segment) [] :=
  ⟨word, segment, rfl, hword, h, fun _ => List.not_mem_nil⟩

/-- After the burst started it is not started again and nothing is pushed. -/
theorem StartsOnce.cons {segment after : List Deed} (h : StartsOnce segment after)
    (hcontrol : ∀ word, .write .control word = d → Inhibits word)
    (htx : ∀ byte, .write .tx byte ≠ d) : StartsOnce (d :: segment) (d :: after) := by
  obtain ⟨word, before, rfl, hword, hothers, hbytes⟩ := h
  refine ⟨word, before, rfl, hword, fun word' hmem => ?_, fun byte hmem => ?_⟩
  · rcases List.mem_cons.mp hmem with heq | hmem
    · exact hcontrol word' heq
    · exact hothers word' hmem
  · rcases List.mem_cons.mp hmem with heq | hmem
    · exact htx byte heq
    · exact hbytes byte hmem

theorem StartsOnce.cons_passive {segment after : List Deed} (h : StartsOnce segment after)
    (hd : d.Passive) : StartsOnce (d :: segment) (d :: after) :=
  h.cons (fun word heq => absurd heq (hd.ne_write _ word)) fun byte => hd.ne_write _ byte

theorem Bursting.lasting : Lasting Bursting := by
  rintro segment d hd ⟨after, h⟩
  exact ⟨d :: after, h.cons_passive hd⟩

/-- Inhibiting transfers ends the burst. -/
theorem Bursting.ranOnce {segment : List Deed} {word : UInt32} (h : Bursting segment)
    (hword : Inhibits word) : RanOnce (.write .control word :: segment) := by
  obtain ⟨after, h⟩ := h
  refine ⟨.write .control word :: after, h.cons ?_ nofun, word, List.mem_cons_self, hword⟩
  intro _ heq
  cases heq
  exact hword

theorem RanOnce.lasting : Lasting RanOnce := by
  rintro segment d hd ⟨after, h, word, hmem, hword⟩
  exact ⟨d :: after, h.cons_passive hd, word, List.mem_cons_of_mem _ hmem, hword⟩

/-- Selecting the active slave. -/
theorem Idle.select (h : Idle slave probing past) (hlt : slave.toNat < maxSlaves) :
    Permitted past (.write .slaveSelect (selectWord slave)) ∧
      Addressing slave probing Loading (.write .slaveSelect (selectWord slave) :: past) := by
  refine ⟨.inr ⟨?_, ?_, h.deselected⟩, hlt, h.active, h.measuring, rfl, nofun⟩
  · rw [h.active]
  · rw [h.active]
    exact hlt

/-- Deselecting it after its burst. -/
theorem Addressing.deselect (h : Addressing slave probing RanOnce past) :
    Permitted past (.write .slaveSelect slaveSelectNone) ∧
      Idle slave probing (.write .slaveSelect slaveSelectNone :: past) := by
  refine ⟨.inl ⟨rfl, .inr h.segment⟩, fun word hword => ?_, h.active, h.measuring⟩
  cases hword
  rfl

/-! ## Attempts -/

/-- After this past the attempt keeps to the rule; it ends with `A`, or fails
with `E`. -/
def Attempt.Leads (x : Attempt α) (past : List Deed) (A : α → List Deed → Prop)
    (E : List Deed → Prop) : Prop :=
  x.run.Leads Permitted past fun r past' =>
    match r with
    | .ok a => A a past'
    | .error _ => E past'

namespace Attempt.Leads

variable {β : Type} {x : Attempt α} {f : α → Attempt β} {A M : α → List Deed → Prop}
  {B : β → List Deed → Prop} {E D : List Deed → Prop}

theorem pure {a : α} (h : A a past) : Attempt.Leads (Pure.pure a) past A E := h

theorem throw {error : Error} (h : E past) :
    Attempt.Leads (MonadExcept.throw error : Attempt α) past A E := h

theorem bind (hx : Attempt.Leads x past M D) (herr : ∀ past, D past → E past)
    (hf : ∀ a past, M a past → Attempt.Leads (f a) past B E) :
    Attempt.Leads (x >>= f) past B E := by
  refine Proc.Leads.bind hx fun r past' h => ?_
  cases r with
  | ok a => exact hf a past' h
  | error error => exact herr past' h

/-- A step that cannot fail. -/
theorem bind_lift {p : Proc α} (hp : p.Leads Permitted past M)
    (hf : ∀ a past, M a past → Attempt.Leads (f a) past B E) :
    Attempt.Leads (liftM p >>= f) past B E :=
  bind (D := fun _ => False) (Proc.Leads.bind hp fun _ _ h => h) (fun _ h => h.elim) hf

/-- A branch whose two sides come together in `y`. -/
theorem join {P : Prop} [Decidable P] {x y : Attempt β} {M : List Deed → Prop}
    (hskip : ¬ P → M past) (hy : ∀ past, M past → Attempt.Leads y past B E)
    (hx : P → (∀ past, M past → Attempt.Leads y past B E) → Attempt.Leads x past B E) :
    Attempt.Leads (if P then x else y) past B E := by
  by_cases h : P
  · rw [if_pos h]
    exact hx h hy
  · rw [if_neg h]
    exact hy past (hskip h)

/-- One condition for both ends. -/
theorem iff_run {I : List Deed → Prop} :
    Attempt.Leads x past (fun _ => I) I ↔ x.run.Leads Permitted past fun _ => I := by
  constructor
  · exact fun h => Proc.Leads.mono h fun r _ h => by cases r <;> exact h
  · exact fun h => Proc.Leads.mono h fun r _ h => by cases r <;> exact h

theorem of_keeps {I : List Deed → Prop} (hx : x.run.Keeps I) (h : I past) :
    Attempt.Leads x past (fun _ => I) I :=
  iff_run.mpr (hx past h)

end Attempt.Leads

end NorFlash
