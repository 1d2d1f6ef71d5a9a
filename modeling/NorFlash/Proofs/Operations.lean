import NorFlash.Proofs.Orderly
import NorFlash.Proofs.Reachability

/-!
# Operations — the discipline of the bus over whole runs

Attaching, the commands of a controller, and the calls of a flash and its
sessions, in any order, with any tuning, on any block: whatever the block answers
and whatever each operation returns, the bus is used as `Permitted` says.
-/

namespace NorFlash

variable {α β σ : Type} {past : List Deed}

/-! ## Flashes and sessions -/

/-- From any past that the controller knows, the operation of the flash keeps to
the rule and leaves a controller that knows its past. -/
def FlashProc.Orderly (x : FlashProc α) (f : Flash) : Prop :=
  ∀ past, f.controller.Steady past → (x f).Leads Permitted past fun r => r.2.controller.Steady

namespace FlashProc.Orderly

variable {x : FlashProc α} {g : α → FlashProc β} {f : Flash}

theorem pure {a : α} : FlashProc.Orderly (Pure.pure a) f := fun _ h => h

theorem bind (hx : FlashProc.Orderly x f) (hg : ∀ a f, FlashProc.Orderly (g a) f) :
    FlashProc.Orderly (x >>= g) f :=
  fun past h => Proc.Leads.bind (hx past h) fun r past h => hg r.1 r.2 past h

theorem bind_get {g : Flash → FlashProc β} (hg : FlashProc.Orderly (g f) f) :
    FlashProc.Orderly (get >>= g) f :=
  hg

theorem lift {p : Proc α} (hp : p.Keeps (Idle f.controller.bus.slave false)) :
    FlashProc.Orderly (liftM p) f :=
  fun past h => Proc.Leads.bind (M := fun _ => Idle f.controller.bus.slave false) (hp past h)
    fun _ _ h => show f.controller.Steady _ from h

theorem onController {y : StateT Controller Proc α} (hy : Controller.Orderly y f.controller) :
    FlashProc.Orderly (Flash.onController y) f :=
  fun past h => Proc.Leads.bind (hy past h) fun r past h => show r.2.Steady past from h

end FlashProc.Orderly

namespace Flash

theorem orderly_prepare (offset : UInt64) (c : Controller) : Drive.Orderly (prepare offset) c :=
  .bind (Controller.orderly_setActiveSlave _ c) fun _ => Controller.orderly_waitUntilReady

theorem orderly_readPages (offset : UInt64) (fuel left done : Nat) (got : Bytes)
    (c : Controller) : Controller.Orderly (readPages offset fuel left done got) c := by
  induction fuel generalizing left done got c with
  | zero =>
    cases left with
    | zero => exact .pure
    | succ left => exact .lift (.checked none)
  | succ fuel ih =>
    cases left with
    | zero => exact .pure
    | succ left =>
      rw [readPages_succ]
      refine .bind (.lift (.advance _ _)) fun position c => ?_
      refine .bind (.lift (.count _)) fun stop c => ?_
      refine .bind (Controller.orderly_bulkRead _ _ c) fun arrival c => ?_
      split
      · exact .pure
      · exact ih _ _ _ c

theorem orderly_read (offset : UInt64) (len : Nat) (f : Flash) :
    FlashProc.Orderly (read offset len) f := by
  refine .bind_get ?_
  dsimp only
  split
  · exact .pure
  refine .bind (.lift (.passive Idle.lasting (.log rfl))) fun _ f => .onController ?_
  refine .bind (orderly_prepare offset _) fun r c => ?_
  cases r with
  | error e => exact .pure
  | ok _ => exact orderly_readPages _ _ _ _ _ c

theorem orderly_readAt (offset : UInt64) (len : Nat) (f : Flash) :
    FlashProc.Orderly (readAt offset len) f := by
  refine .bind_get ?_
  split
  · exact .pure
  · exact orderly_read offset len f

theorem orderly_writePages (offset : UInt64) (fuel done : Nat) (data page : Bytes)
    (c : Controller) : Controller.Orderly (writePages offset fuel done data page) c := by
  induction fuel generalizing done data page c with
  | zero =>
    cases data with
    | nil => exact .pure
    | cons byte more => exact .lift (.checked none)
  | succ fuel ih =>
    cases data with
    | nil => exact .pure
    | cons byte more =>
      refine .bind (.lift (.advance _ _)) fun position c => ?_
      refine .bind (Controller.orderly_programPage _ _ c page) fun r c => ?_
      obtain ⟨r, page'⟩ := r
      cases r with
      | error e => exact .bind (.lift (.passive Idle.lasting (.log rfl))) fun _ _ => .pure
      | ok n =>
        exact .bind (.lift (.checked _)) fun _ c => .bind (.lift (.count _)) fun _ c => ih _ _ _ c

theorem orderly_write (offset : UInt64) (data : Bytes) (f : Flash) :
    FlashProc.Orderly (write offset data) f := by
  refine .bind_get ?_
  dsimp only
  split
  · exact .pure
  refine .bind (.lift (.passive Idle.lasting (.log rfl))) fun _ f => .onController ?_
  refine .bind (orderly_prepare offset _) fun r c => ?_
  cases r with
  | error e => exact .pure
  | ok _ => exact orderly_writePages _ _ _ _ _ c

theorem orderly_erase (offset : UInt64) (size : Nat) (f : Flash) :
    FlashProc.Orderly (erase offset size) f := by
  refine .bind_get ?_
  split
  · exact .pure
  · exact .onController (Controller.orderly_erase offset size _)

end Flash

namespace Session

/-- The same of a call on an open session. -/
def Orderly (x : Call α) (s : Session) (f : Flash) : Prop :=
  ∀ past, f.controller.Steady past → (x s f).Leads Permitted past fun r => r.2.controller.Steady

theorem Orderly.pure {a : α} {s : Session} {f : Flash} : Orderly (Pure.pure a) s f := fun _ h => h

theorem Orderly.bind {x : Call α} {g : α → Call β} {s : Session} {f : Flash}
    (hx : Orderly x s f) (hg : ∀ a s f, Orderly (g a) s f) : Orderly (x >>= g) s f :=
  fun past h => Proc.Leads.bind (hx past h) fun r past h => hg r.1.1 r.1.2 r.2 past h

theorem Orderly.bind_get {g : Session → Call β} {s : Session} {f : Flash}
    (hg : Orderly (g s) s f) : Orderly (get >>= g) s f :=
  hg

/-- An operation of the flash as a step. -/
theorem Orderly.flash {x : FlashProc α} {s : Session} {f : Flash} (hx : FlashProc.Orderly x f) :
    Orderly (liftM x) s f :=
  fun past h => Proc.Leads.bind (hx past h) fun r past h => show r.2.controller.Steady past from h

theorem orderly_advance (n : Nat) (s : Session) (f : Flash) : Orderly (advance n) s f := by
  refine .bind_get (.bind (x := liftM (Proc.advance s.position n)) ?_ fun _ _ _ _ h => h)
  exact .flash (x := liftM (Proc.advance s.position n)) (.lift (.advance _ _))

theorem orderly_read (len : Nat) (s : Session) (f : Flash) : Orderly (read len) s f := by
  refine .bind_get (.bind (.flash (Flash.orderly_read _ _ f)) fun arrival s f => ?_)
  split
  · exact .pure
  · exact .bind (orderly_advance _ s f) fun _ _ _ => .pure

theorem orderly_write (data : Bytes) (s : Session) (f : Flash) : Orderly (write data) s f := by
  refine .bind_get (.bind (.flash (Flash.orderly_write _ _ f)) fun w s f => ?_)
  rcases w with stopped | n
  · dsimp only
    split
    · exact .pure
    · exact .bind (orderly_advance _ s f) fun _ _ _ => .pure
  · exact .bind (orderly_advance _ s f) fun _ _ _ => .pure

theorem orderly_openOn (f : Flash) : FlashProc.Orderly openOn f := by
  refine .bind_get ?_
  split
  · exact .pure
  · exact fun _ h => h

end Session

/-! ## Operations -/

/-- A command that a user gives to an attached controller. -/
inductive ControllerCall where
  | setActiveSlave (slave : UInt8)
  | isReady
  | waitUntilReady
  | enableWrite
  | selectSector (sector : UInt8)
  | buildHeader (opcode : UInt8) (a : Address)
  | readChunk (offset : UInt64) (len : Nat)
  | writeChunk (offset : UInt64) (data : Bytes)
  | bulkRead (offset : UInt64) (len : Nat)
  | bulkWrite (offset : UInt64) (data : Bytes)
  | erase (offset : UInt64) (size : Nat)
  | eraseUnit (offset : UInt64) (unit : EraseUnit)
  | rewriteUnit (offset : UInt64) (data : Bytes)
  | mergePage (offset : UInt64) (data page : Bytes)
  | programPage (offset : UInt64) (data page : Bytes)

namespace ControllerCall

/-- Carry out the command. -/
def perform : ControllerCall → StateT Controller Proc Unit
  | setActiveSlave slave => do let _ ← (Controller.setActiveSlave slave).run
  | isReady => do let _ ← (← get).bus.isReady
  | waitUntilReady => do let _ ← Controller.waitUntilReady.run
  | enableWrite => do let _ ← Controller.enableWrite.run
  | selectSector sector => do let _ ← (Controller.selectSector sector).run
  | buildHeader opcode a => do let _ ← (Controller.buildHeader opcode a).run
  | readChunk offset len => do let _ ← (Controller.readChunk offset len).run
  | writeChunk offset data => do let _ ← (Controller.writeChunk offset data).run
  | bulkRead offset len => do let _ ← Controller.bulkRead offset len
  | bulkWrite offset data => do let _ ← (Controller.bulkWrite offset data).run
  | erase offset size => do let _ ← (Controller.erase offset size).run
  | eraseUnit offset unit => do let _ ← (Controller.eraseUnit offset unit).run
  | rewriteUnit offset data => do let _ ← (Controller.rewriteUnit offset data).run
  | mergePage offset data page => do let _ ← (Controller.mergePage offset data).run page
  | programPage offset data page => do let _ ← (Controller.programPage offset data).run page

theorem orderly_perform (call : ControllerCall) (c : Controller) :
    Controller.Orderly call.perform c := by
  cases call with
  | setActiveSlave slave =>
    exact .bind (Controller.orderly_setActiveSlave slave c) fun _ _ => .pure
  | isReady => exact .bind_get (.bind (.lift c.bus.keeps_isReady) fun _ _ => .pure)
  | waitUntilReady => exact .bind (Controller.orderly_waitUntilReady c) fun _ _ => .pure
  | enableWrite => exact .bind (Controller.orderly_enableWrite c) fun _ _ => .pure
  | selectSector sector =>
    exact .bind (Controller.orderly_selectSector sector c) fun _ _ => .pure
  | buildHeader opcode a =>
    exact .bind (Controller.orderly_buildHeader opcode a c) fun _ _ => .pure
  | readChunk offset len =>
    exact .bind (Controller.orderly_readChunk offset len c) fun _ _ => .pure
  | writeChunk offset data =>
    exact .bind (Controller.orderly_writeChunk offset data c) fun _ _ => .pure
  | bulkRead offset len =>
    exact .bind (Controller.orderly_bulkRead offset len c) fun _ _ => .pure
  | bulkWrite offset data =>
    exact .bind (Controller.orderly_bulkWrite offset data c) fun _ _ => .pure
  | erase offset size => exact .bind (Controller.orderly_erase offset size c) fun _ _ => .pure
  | eraseUnit offset unit =>
    exact .bind (Controller.orderly_eraseUnit offset unit c) fun _ _ => .pure
  | rewriteUnit offset data =>
    exact .bind (Controller.orderly_rewriteUnit offset data c) fun _ _ => .pure
  | mergePage offset data page =>
    exact .bind (Controller.orderly_mergePage offset data c page) fun _ _ => .pure
  | programPage offset data page =>
    exact .bind (Controller.orderly_programPage offset data c page) fun _ _ => .pure

end ControllerCall

theorem FlashCall.orderly_perform (call : FlashCall) (f : Flash) :
    FlashProc.Orderly call.perform f := by
  cases call with
  | read offset len => exact .bind (Flash.orderly_read offset len f) fun _ _ => .pure
  | readAt offset len => exact .bind (Flash.orderly_readAt offset len f) fun _ _ => .pure
  | write offset data => exact .bind (Flash.orderly_write offset data f) fun _ _ => .pure
  | erase offset size => exact .bind (Flash.orderly_erase offset size f) fun _ _ => .pure
  | openSession => exact .bind (Session.orderly_openOn f) fun _ _ => .pure
  | closeSession => exact fun past h => h
  | sessionRead s len =>
    exact .bind (x := Session.read len s) (Session.orderly_read len s f) fun _ _ => .pure
  | sessionWrite s data =>
    exact .bind (x := Session.write data s) (Session.orderly_write data s f) fun _ _ => .pure

/-- An operation of a user. -/
inductive Operation where
  | attach (tuning : Tuning)
  | command (request : ControllerCall)
  | call (request : FlashCall)

namespace Operation

/-- How the operation begins. -/
def mark : Operation → Deed
  | attach _ => .attaching
  | command _ | call _ => .calling

/-- Carry out the operation. Until an attach succeeded there is no flash to
operate on. -/
def perform : Operation → Option Flash → Proc (Option Flash)
  | attach tuning, _ => do
    match ← (Flash.attach tuning).run with
    | .ok f => return some f
    | .error _ => return none
  | command _, none | call _, none => return none
  | command request, some f => do
    let (_, f) ← Flash.onController request.perform f
    return some f
  | call request, some f => do
    let (_, f) ← request.perform f
    return some f

/-- What is known between two operations: no slave is selected, and the flash, if
there is one, knows which slave is active. -/
structure Rests (f : Option Flash) (past : List Deed) : Prop where
  deselected : Deselected past
  active : ∀ g, f = some g → activeSlave past = g.controller.bus.slave

theorem Rests.of_steady {f : Flash} (h : f.controller.Steady past) : Rests (some f) past := by
  refine ⟨h.deselected, fun g hg => ?_⟩
  cases hg
  exact h.active

/-- The flash is steady when a call begins. -/
theorem Rests.steady {f : Flash} (h : Rests (some f) past) :
    f.controller.Steady (.calling :: past) :=
  ⟨h.deselected, h.active f rfl, rfl⟩

/-- **Every operation keeps to the rule**, whatever the block answers. -/
theorem leads_perform (op : Operation) {f : Option Flash} (h : Rests f past) :
    (op.perform f).Leads Permitted (op.mark :: past) Rests := by
  cases op with
  | attach tuning =>
    have hattach : Attempt.Leads (Flash.attach tuning) (.attaching :: past)
        (fun f => f.controller.Steady) Deselected :=
      .bind (Controller.leads_attach tuning ⟨h.deselected, rfl, rfl⟩) (fun _ h => h)
        fun _ _ h => .pure h
    refine Proc.Leads.bind hattach fun r past h => ?_
    cases r with
    | error e => exact show Rests none past from ⟨h, nofun⟩
    | ok f => exact Rests.of_steady h
  | command request =>
    cases f with
    | none => exact show Rests none (.calling :: past) from ⟨h.deselected, nofun⟩
    | some f =>
      refine Proc.Leads.bind (FlashProc.Orderly.onController
        (request.orderly_perform f.controller) _ h.steady) fun r past h => ?_
      exact Rests.of_steady h
  | call request =>
    cases f with
    | none => exact show Rests none (.calling :: past) from ⟨h.deselected, nofun⟩
    | some f =>
      refine Proc.Leads.bind (request.orderly_perform f _ h.steady) fun r past h => ?_
      exact Rests.of_steady h

end Operation

/-! ## Runs -/

/-- How far a run has got: the flash, if there is one, the state of the block and
all that was done, the newest deed first. -/
structure Course (σ : Type) where
  flash : Option Flash := none
  state : σ
  past : List Deed := []

namespace Course

/-- Carry out one more operation. A failed bounds check leaves no flash. -/
def step (b : RegisterBlock σ) (t : Course σ) (op : Operation) : Course σ where
  flash := ((op.perform t.flash).run b t.state).1.getD none
  state := ((op.perform t.flash).run b t.state).2
  past := .ended :: ((op.perform t.flash).deeds b t.state ++ op.mark :: t.past)

/-- All that was done was permitted when it was done. -/
structure Orderly (t : Course σ) : Prop where
  obeys : Obeys Permitted t.past
  rests : Operation.Rests t.flash t.past

/-- **One operation leaves a run orderly.** -/
theorem Orderly.step {t : Course σ} (h : t.Orderly) (b : RegisterBlock σ) (op : Operation) :
    (t.step b op).Orderly := by
  have hbegun : Obeys Permitted (op.mark :: t.past) := by
    refine ⟨?_, h.obeys⟩
    cases op <;> trivial
  obtain ⟨hobeys, hend⟩ := (op.leads_perform h.rests).obeys hbegun b t.state
  rcases hrun : (op.perform t.flash).run b t.state with ⟨r, s⟩
  rw [hrun] at hend
  cases r with
  | none =>
    have hdeselected : Deselected _ := hend
    refine ⟨⟨hdeselected, hobeys⟩, ?_⟩
    rw [Course.step, hrun]
    exact ⟨hdeselected, nofun⟩
  | some f =>
    have hrests : Operation.Rests f _ := hend
    refine ⟨⟨hrests.deselected, hobeys⟩, ?_⟩
    rw [Course.step, hrun]
    exact ⟨hrests.deselected, hrests.active⟩

/-- Carry out operations in order. -/
def run (b : RegisterBlock σ) (ops : List Operation) (t : Course σ) : Course σ :=
  ops.foldl (step b) t

theorem Orderly.run {t : Course σ} (h : t.Orderly) (b : RegisterBlock σ) (ops : List Operation) :
    (t.run b ops).Orderly := by
  induction ops generalizing t with
  | nil => exact h
  | cons op ops ih => exact ih (h.step b op)

end Course

/-- **The bus is used with discipline on every block.** Whatever operations are
carried out, with whatever tuning, and whatever the block answers: each deed was
permitted after those before it, so bytes are pushed only while transfers are
inhibited and only to the active slave, each selection runs one burst, and every
operation ends with all slaves deselected. The active slave is the one that the
controller has on record. -/
theorem bus_disciplined (b : RegisterBlock σ) (s : σ) (ops : List Operation) :
    (∀ later d past, (Course.run b ops { state := s }).past = later ++ d :: past →
      Permitted past d) ∧
    Deselected (Course.run b ops { state := s }).past ∧
    ∀ f, (Course.run b ops { state := s }).flash = some f →
      activeSlave (Course.run b ops { state := s }).past = f.controller.bus.slave := by
  have hstart : Course.Orderly { state := s } := ⟨trivial, nofun, nofun⟩
  have h := hstart.run b ops
  refine ⟨fun later d past hpast => ?_, h.rests.deselected, h.rests.active⟩
  exact Obeys.rule (hpast ▸ h.obeys)

end NorFlash
