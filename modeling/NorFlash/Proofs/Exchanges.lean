import NorFlash.Proofs.Sights
import NorFlash.Proofs.Totality

/-!
# Exchanges — how a transaction ends on any device

A transaction is followed through its stages by what it sees: the FIFO reset, the burst and
the pull of the response. What it sees and how it ends is `Concluded` on every register
block: one that models no hardware, too.
-/

namespace NorFlash

variable {α β σ : Type} {past : List Deed}

/-! ## Procedures by what they see -/

/-- On every block the procedure ends, in a value and after sights with `A`. -/
def Proc.Shows (p : Proc α) (A : α → List Sight → Prop) : Prop :=
  ∀ past, p.Leads Terms.strict.rule past fun a past' =>
    ∃ seen, sights past' = sights past ++ seen ∧ A a seen

namespace Proc.Shows

variable {p : Proc α} {f : α → Proc β} {A M : α → List Sight → Prop} {B : β → List Sight → Prop}

theorem mono (h : p.Shows M) (hm : ∀ a seen, M a seen → A a seen) : p.Shows A := by
  intro past
  refine (h past).mono fun a past' hpost => ?_
  obtain ⟨seen, hseen, ha⟩ := hpost
  exact ⟨seen, hseen, hm a seen ha⟩

theorem pure {a : α} (h : A a []) : (Pure.pure a : Proc α).Shows A :=
  fun _ => ⟨[], (List.append_nil _).symm, h⟩

theorem bind (hp : p.Shows M)
    (hf : ∀ a seen, M a seen → (f a).Shows fun r more => B r (seen ++ more)) :
    (p >>= f).Shows B := by
  intro past
  refine Leads.bind (hp past) fun a past' hpost => ?_
  obtain ⟨seen, hseen, ha⟩ := hpost
  refine (hf a seen ha past').mono fun r past'' hpost => ?_
  obtain ⟨more, hmore, hr⟩ := hpost
  exact ⟨seen ++ more, by rw [hmore, hseen, List.append_assoc], hr⟩

/-- A first step that sees nothing. -/
theorem step (hp : p.Shows fun _ seen => seen = []) (hf : ∀ a, (f a).Shows B) :
    (p >>= f).Shows B := by
  refine hp.bind fun a seen hseen => ?_
  subst hseen
  exact hf a

/-- A first step of an attempt that cannot fail. -/
theorem bind_lift {f : α → Attempt β} {B : Except Error β → List Sight → Prop} (hp : p.Shows M)
    (hf : ∀ a seen, M a seen → (f a).run.Shows fun r more => B r (seen ++ more)) :
    (liftM p >>= f : Attempt β).run.Shows B := by
  have hlift : (liftM p : Attempt α).run.Shows fun r seen => ∃ a, r = .ok a ∧ M a seen := by
    refine hp.bind fun a seen ha => ?_
    exact .pure ⟨a, rfl, by rwa [List.append_nil]⟩
  refine hlift.bind fun r seen hpost => ?_
  obtain ⟨a, rfl, ha⟩ := hpost
  exact hf a seen ha

theorem step_lift {f : α → Attempt β} {B : Except Error β → List Sight → Prop}
    (hp : p.Shows fun _ seen => seen = []) (hf : ∀ a, (f a).run.Shows B) :
    (liftM p >>= f : Attempt β).run.Shows B := by
  refine hp.bind_lift fun a seen hseen => ?_
  subst hseen
  exact hf a

/-- What is shown on every block is so on a particular one. -/
theorem of_block (h : p.Shows A) (b : RegisterBlock σ) (s : σ) :
    ∃ a t, p.run b s = (some a, t) ∧ A a (sights (p.deeds b s)) := by
  obtain ⟨-, hend⟩ := (h []).obeys trivial b s
  rw [List.append_nil] at hend
  rcases hrun : p.run b s with ⟨_ | a, t⟩
  · rw [hrun] at hend
    exact hend.elim
  · rw [hrun] at hend
    obtain ⟨seen, hseen, ha⟩ := hend
    rw [sights, List.nil_append] at hseen
    exact ⟨a, t, rfl, hseen ▸ ha⟩

/-! ### Single accesses -/

theorem status : Proc.status.Shows fun word seen => seen = [.status word] :=
  fun _ _ => ⟨trivial, _, rfl, rfl⟩

theorem control : Proc.control.Shows fun _ seen => seen = [] :=
  fun _ _ => ⟨trivial, _, rfl, rfl⟩

theorem log (m : Message) : (Proc.log m).Shows fun _ seen => seen = [] :=
  fun _ => ⟨trivial, _, rfl, rfl⟩

theorem pause (us : UInt32) : (Proc.pause us).Shows fun _ seen => seen = [] :=
  fun _ => ⟨trivial, _, rfl, rfl⟩

theorem setControl (word : UInt32) : (Proc.setControl word).Shows fun _ seen => seen = [] :=
  fun _ => ⟨trivial, _, rfl, rfl⟩

theorem select (word : UInt32) : (Proc.store .slaveSelect word).Shows fun _ seen => seen = [] :=
  fun _ => ⟨fun _ => trivial, _, rfl, rfl⟩

theorem sendByte (byte : UInt8) :
    (Proc.sendByte byte).Shows fun _ seen => seen = [.pushed byte] := by
  refine fun past => ⟨trivial, [.pushed byte], ?_, rfl⟩
  show sights past ++ [.pushed byte.toUInt32.toUInt8] = sights past ++ [.pushed byte]
  rw [UInt8.toUInt8_toUInt32]

theorem pullByte : Proc.pullByte.Shows fun byte seen => seen = [.pulled byte] :=
  fun _ _ => ⟨trivial, _, rfl, rfl⟩

end Proc.Shows

/-! ## Waits -/

section Waits

variable {test : UInt32 → Bool} {limit : Nat} {word : UInt32} {words : List UInt32}

theorem Waited.first (limit : Nat) (hword : test word = true) :
    Waited test limit [word] true := by
  show Waited test limit ([] ++ [word]) true
  exact .met (Nat.zero_le _) nofun hword

theorem Waited.last (hword : test word = false) : Waited test 0 [word] false :=
  .missed rfl (by simpa using hword)

theorem Waited.later {met : Bool} (h : Waited test limit words met) (hword : test word = false) :
    Waited test (limit + 1) (word :: words) met := by
  cases h with
  | @met misses hit hlen hmisses hhit =>
    rw [← List.cons_append]
    exact .met (Nat.succ_le_succ hlen) (List.forall_mem_cons.mpr ⟨hword, hmisses⟩) hhit
  | missed hlen hmisses =>
    exact .missed (congrArg (· + 1) hlen) (List.forall_mem_cons.mpr ⟨hword, hmisses⟩)

/-- A look at the status word. -/
theorem shows_look (test : UInt32 → Bool) :
    (Proc.status >>= fun word => Pure.pure (test word)).Shows fun yes seen =>
      ∃ word, seen = [.status word] ∧ yes = test word :=
  Proc.Shows.status.bind fun word _ hseen => .pure ⟨word, by rw [hseen, List.append_nil], rfl⟩

/-- A wait looks until the test passes or the budget is used up. -/
theorem shows_poll (test : UInt32 → Bool) (us : UInt32) (spent left : Nat) :
    (PollBudget.poll (Proc.status >>= fun word => Pure.pure (test word)) (Proc.pause us)
      PollBudget.unlimited spent left).Shows fun r seen => ∃ words, seen = words.map .status ∧
        Waited test left words r.isSome := by
  induction left generalizing spent with
  | zero =>
    refine (shows_look test).bind fun yes seen hpost => ?_
    obtain ⟨word, rfl, rfl⟩ := hpost
    cases hword : test word with
    | true => exact .pure ⟨[word], rfl, .first 0 hword⟩
    | false => exact .pure ⟨[word], rfl, .last hword⟩
  | succ left ih =>
    refine (shows_look test).bind fun yes seen hpost => ?_
    obtain ⟨word, rfl, rfl⟩ := hpost
    cases hword : test word with
    | true => exact .pure ⟨[word], rfl, .first (left + 1) hword⟩
    | false =>
      refine .step (.pause us) fun _ => ?_
      refine (ih (spent + 1)).mono fun r seen hpost => ?_
      obtain ⟨words, rfl, hwait⟩ := hpost
      exact ⟨word :: words, rfl, hwait.later hword⟩

end Waits

/-! ## Transactions -/

namespace Bus

variable {command : Bytes}

theorem shows_checkErrors : checkErrors.run.Shows fun r seen =>
    ∃ last, seen = [.status last] ∧ r = Status.check last := by
  refine Proc.Shows.status.bind_lift fun last seen hseen => ?_
  subst hseen
  cases herr : Status.hasError last with
  | true =>
    refine .step_lift (.log _) fun _ => .pure ⟨last, rfl, ?_⟩
    rw [Status.check, herr]
    rfl
  | false =>
    refine .pure ⟨last, rfl, ?_⟩
    rw [Status.check, herr]
    rfl

theorem shows_resetFifos (b : Bus) : b.resetFifos.run.Shows fun r seen =>
    ∃ words, seen = words.map .status ∧ Emptied b.budget.maxPolls words r := by
  rw [resetFifos, await_eq]
  refine (shows_look Status.isIdle).bind_lift fun idle seen hpost => ?_
  obtain ⟨word, rfl, rfl⟩ := hpost
  cases hidle : Status.isIdle word with
  | true => exact .pure ⟨[word], rfl, .already hidle⟩
  | false =>
    refine .step_lift .control fun control => ?_
    refine .step_lift (.setControl _) fun _ => ?_
    refine (shows_poll Status.isIdle _ 0 _).bind_lift fun waited seen hpost => ?_
    obtain ⟨polls, rfl, hwait⟩ := hpost
    cases waited with
    | some _ => exact .pure ⟨word :: polls, by simp, .reset hidle hwait⟩
    | none =>
      refine Proc.Shows.status.bind_lift fun last seen hseen => ?_
      subst hseen
      have hreset : Emptied b.budget.maxPolls (word :: (polls ++ [last])) _ :=
        .never hidle hwait
      exact .step_lift (.log _) fun _ => .pure ⟨_, by simp, hreset⟩

theorem shows_push (bytes : Bytes) :
    (push bytes).Shows fun _ seen => seen = bytes.map .pushed := by
  induction bytes with
  | nil => exact .pure rfl
  | cons byte rest ih =>
    refine (Proc.Shows.sendByte byte).bind fun _ seen hseen => ?_
    subst hseen
    refine ih.mono fun _ more hmore => ?_
    rw [hmore]
    rfl

theorem shows_transmit (b : Bus) (hfit : command.length ≤ b.fifoDepth) :
    (b.transmit command).run.Shows fun r seen =>
      ∃ polls, seen = command.map .pushed ++ polls.map .status ∧
        Drained b.budget.maxPolls polls r := by
  rw [transmit, if_neg (Nat.not_lt.mpr hfit), await_eq]
  refine .step_lift .control fun control => ?_
  refine .step_lift (.setControl _) fun _ => ?_
  refine (shows_push command).bind_lift fun _ seen hseen => ?_
  subst hseen
  refine .step_lift (.setControl _) fun _ => ?_
  refine (shows_poll Status.settles _ 0 _).bind_lift fun settled seen hpost => ?_
  obtain ⟨polls, rfl, hwait⟩ := hpost
  refine .step_lift (.setControl _) fun _ => ?_
  cases settled with
  | some _ =>
    refine shows_checkErrors.mono fun r seen hpost => ?_
    obtain ⟨last, rfl, rfl⟩ := hpost
    exact ⟨polls ++ [last], by simp, .settled hwait⟩
  | none =>
    -- an error that shows only now is still what the transmission fails with
    refine Proc.Shows.status.bind_lift fun last seen hseen => ?_
    subst hseen
    have hdrain : Drained b.budget.maxPolls (polls ++ [last]) _ := .stalled hwait
    cases herr : Status.hasError last with
    | true =>
      rw [herr, if_pos rfl] at hdrain
      exact .step_lift (.log _) fun _ => .pure ⟨polls ++ [last], by simp, hdrain⟩
    | false =>
      rw [herr, if_neg Bool.false_ne_true] at hdrain
      exact .step_lift (.log _) fun _ => .pure ⟨polls ++ [last], by simp, hdrain⟩

theorem shows_pull (expected left : Nat) (got : Bytes) (hcount : left + got.length = expected) :
    (pull expected none left got.length got).Shows fun arrival seen =>
      ∃ bytes, arrival.bytes = got.reverse ++ bytes ∧
        Collected expected got.length seen arrival.outcome bytes := by
  induction left generalizing got with
  | zero =>
    obtain rfl : got.length = expected := by omega
    refine (shows_look fun word => hasAll word Status.rxEmpty).bind fun empty seen hpost => ?_
    obtain ⟨word, rfl, rfl⟩ := hpost
    cases hword : hasAll word Status.rxEmpty with
    | true =>
      refine shows_checkErrors.bind fun r seen hpost => ?_
      obtain ⟨last, rfl, rfl⟩ := hpost
      exact .pure ⟨[], (List.append_nil _).symm, .complete hword⟩
    | false =>
      refine .step (.log _) fun _ => ?_
      exact .pure ⟨[], (List.append_nil _).symm, .overflow hword⟩
  | succ left ih =>
    have hshort : got.length < expected := by omega
    refine (shows_look fun word => hasAll word Status.rxEmpty).bind fun empty seen hpost => ?_
    obtain ⟨word, rfl, rfl⟩ := hpost
    cases hword : hasAll word Status.rxEmpty with
    | true => exact .pure ⟨[], (List.append_nil _).symm, .underflow hword hshort⟩
    | false =>
      refine Proc.Shows.pullByte.bind fun byte seen hseen => ?_
      subst hseen
      refine (ih (byte :: got) (by rw [List.length_cons]; omega)).mono fun arrival seen hpost => ?_
      obtain ⟨bytes, hbytes, hrest⟩ := hpost
      refine ⟨byte :: bytes, ?_, .pulled hword hshort hrest⟩
      rw [hbytes, List.reverse_cons, List.append_assoc]
      rfl

theorem shows_drain (len : Nat) :
    (drain len).run.Shows fun _ rest => ∃ outcome bytes, Collected len 0 rest outcome bytes := by
  refine (shows_pull len len [] rfl).bind fun arrival rest hpost => ?_
  obtain ⟨bytes, -, hrest⟩ := hpost
  refine .pure ⟨arrival.outcome, bytes, ?_⟩
  rwa [List.append_nil]

theorem shows_transfer (b : Bus) (hfit : command.length ≤ b.fifoDepth) (wanted : Bool) :
    (b.transfer command wanted).Shows fun arrival seen =>
      Exchanged b.budget.maxPolls command wanted seen arrival.outcome (arrival.into command) := by
  refine (b.shows_transmit hfit).bind fun r seen hpost => ?_
  obtain ⟨polls, rfl, hdrain⟩ := hpost
  rcases r with error | _
  · refine .pure ?_
    rw [List.append_nil]
    exact .failed hdrain
  cases wanted with
  | true =>
    rw [if_pos rfl, receive_self]
    refine (shows_pull _ _ [] rfl).mono fun arrival rest hpost => ?_
    obtain ⟨bytes, hbytes, hrest⟩ := hpost
    rw [List.reverse_nil, List.nil_append] at hbytes
    rw [Arrival.into, hbytes, List.append_assoc]
    exact .collected hdrain rfl hrest
  | false =>
    refine (shows_drain command.length).bind fun outcome rest hpost => ?_
    obtain ⟨outcome', bytes, hrest⟩ := hpost
    have hdone := Exchanged.ignored hdrain (Eq.refl false) hrest
    rw [← List.append_nil rest, ← List.append_assoc] at hdone
    cases outcome with
    | ok => exact .pure hdone
    | error error => exact .step (.log _) fun _ => .pure hdone

theorem shows_activate (slave : Option UInt8) :
    (activate slave).Shows fun _ seen => seen = [] := by
  cases slave with
  | none => exact .select _
  | some slave =>
    rw [activate_some]
    split
    · exact .select _
    · exact .step (.log _) fun _ => .select _

theorem shows_transaction (b : Bus) (hfit : command.length ≤ b.fifoDepth)
    (hslave : b.slave.toNat < maxSlaves) (wanted : Bool) :
    (b.transaction command wanted).Shows fun arrival seen =>
      Concluded b.budget.maxPolls command wanted seen arrival.outcome (arrival.into command) := by
  rw [transaction, if_neg (Nat.not_lt.mpr hfit)]
  refine b.shows_resetFifos.bind fun r seen hpost => ?_
  obtain ⟨words, rfl, hreset⟩ := hpost
  rcases r with error | _
  · refine .pure ?_
    rw [List.append_nil]
    exact .clogged hreset
  dsimp only
  rw [if_pos hslave]
  refine .step (shows_activate _) fun _ => ?_
  refine (b.shows_transfer hfit wanted).bind fun arrival rest hrest => ?_
  refine .step (shows_activate _) fun _ => .pure ?_
  rw [List.append_nil]
  exact .exchanged hreset hrest

/-- **How a transaction ends on any device.** On every register block a transaction on a
slave there is, with a command that fits the FIFO, comes to an end. It ends in the one way
that `Concluded` has for what it saw: the status words it read and the bytes it pulled, in
their order, and the bytes it pushed between them. -/
theorem transaction_concludes (b : Bus) (hfit : command.length ≤ b.fifoDepth)
    (hslave : b.slave.toNat < maxSlaves) (wanted : Bool) (block : RegisterBlock σ) (s : σ) :
    ∃ arrival t, (b.transaction command wanted).run block s = (some arrival, t) ∧
      ∀ outcome buffer, Concluded b.budget.maxPolls command wanted
          (sights ((b.transaction command wanted).deeds block s)) outcome buffer ↔
        outcome = arrival.outcome ∧ buffer = arrival.into command := by
  obtain ⟨arrival, t, hrun, hends⟩ := (b.shows_transaction hfit hslave wanted).of_block block s
  refine ⟨arrival, t, hrun, fun outcome buffer => ⟨fun h => h.unique hends, fun h => ?_⟩⟩
  obtain ⟨rfl, rfl⟩ := h
  exact hends

/-- The RX FIFO holds a byte before the transaction, and runs dry after one byte. -/
def shortAnswer : Script where
  answers := [(.status, [0x4, 0x5, 0x4, 0x4, 0x4, 0x5]), (.rx, [0x20])]

/-- One byte came back of two. -/
theorem transaction_concludes_short :
    ∃ arrival t, (transaction { budget := ⟨1, 2⟩, fifoDepth := 16 } [Opcode.readId, 0] true).run
        Script.block shortAnswer = (some arrival, t) ∧
      arrival.outcome = .error (.rxUnderflow 2 1) ∧
      arrival.into [Opcode.readId, 0] = [0x20, 0] := by
  have hfit : [Opcode.readId, 0].length ≤ 16 := by decide
  obtain ⟨arrival, t, hrun, hends⟩ := transaction_concludes
    { budget := ⟨1, 2⟩, fifoDepth := 16 } hfit (by decide) true Script.block shortAnswer
  refine ⟨arrival, t, hrun, ?_⟩
  have hsights : sights ((transaction { budget := ⟨1, 2⟩, fifoDepth := 16 }
      [Opcode.readId, 0] true).deeds Script.block shortAnswer) =
        [.status 0x4, .status 0x5, .pushed Opcode.readId, .pushed 0, .status 0x4, .status 0x4,
          .status 0x4, .pulled 0x20, .status 0x5] := by rfl
  rw [hsights] at hends
  have hreset : Emptied 2 [0x4, 0x5] (.ok ()) := .reset rfl (.first 2 rfl)
  have hwait : Waited Status.settles 2 [0x4] true := .first 2 rfl
  have hdrain : Drained 2 [0x4, 0x4] (.ok ()) := .settled hwait
  have hanswer : Collected 2 0 [.status 0x4, .pulled 0x20, .status 0x5]
      (.error (.rxUnderflow 2 1)) [0x20] :=
    .pulled rfl (by decide) (.underflow rfl (by decide))
  obtain ⟨houtcome, hbuffer⟩ := (hends _ _).mp (.exchanged hreset (.collected hdrain rfl hanswer))
  exact ⟨houtcome.symm, hbuffer.symm⟩

end Bus

end NorFlash
