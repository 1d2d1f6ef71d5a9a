import NorFlash.Proofs.Exactness
import NorFlash.Proofs.Operations
import NorFlash.Proofs.Transfers

/-!
# Burst bounds — the bursts of every operation

Once an attach has succeeded, no command of the controller, no call of the flash
or of its sessions sends a burst that does not fit the FIFO, or a program command
that leaves its 256-byte page, whatever the block answers.
-/

namespace NorFlash

variable {α β σ : Type} {T : Terms} {v : Vendor} {c : Controller} {f : Flash} {offset : UInt64}

/-! ## Flashes -/

/-- From this flash the operation abides by the terms; it leaves a flash of the
same kind behind, and `A` holds of its answer. -/
def FlashProc.Abides (T : Terms) (v : Vendor) (x : FlashProc α) (f : Flash) (A : α → Prop) :
    Prop :=
  (x f).Abides T fun r => r.2.controller.Within T v ∧ A r.1

namespace FlashProc.Abides

variable {x : FlashProc α} {g : α → FlashProc β} {A M : α → Prop} {B : β → Prop}

theorem pure {a : α} (hf : f.controller.Within T v) (h : A a) :
    FlashProc.Abides T v (Pure.pure a) f A :=
  Proc.Abides.pure ⟨hf, h⟩

theorem bind (hx : FlashProc.Abides T v x f M)
    (hg : ∀ a f, f.controller.Within T v → M a → FlashProc.Abides T v (g a) f B) :
    FlashProc.Abides T v (x >>= g) f B :=
  Proc.Abides.bind hx fun r hr => hg r.1 r.2 hr.1 hr.2

theorem bind_get {g : Flash → FlashProc β} (hg : FlashProc.Abides T v (g f) f B) :
    FlashProc.Abides T v (get >>= g) f B :=
  hg

theorem log {m : Message} (hf : f.controller.Within T v) :
    FlashProc.Abides T v (liftM (Proc.log m)) f fun _ => True :=
  fun _ => ⟨trivial, hf, trivial⟩

theorem onController {y : StateT Controller Proc α}
    (hy : Controller.Abides T v y f.controller fun a _ => A a) :
    FlashProc.Abides T v (Flash.onController y) f A :=
  Proc.Abides.bind hy fun _ hr => Proc.Abides.pure hr

end FlashProc.Abides

namespace Flash

open Controller (Brought Took)

theorem abides_prepare (hc : c.Within T v) (offset : UInt64) :
    Drive.Abides T v (prepare offset) c fun _ _ => Addressed offset := by
  refine .bind (Controller.abides_setActiveSlave hc _) fun _ c hc hslave => ?_
  exact (Controller.abides_waitUntilReady hc).mono fun _ _ _ => hslave

theorem abides_readPages (hc : c.Within T v) (hslave : Addressed offset) {fuel left done : Nat}
    (got : Bytes) (hfuel : left ≤ fuel) (hlen : T.overrun ∨ done + left ≤ signedLimit) :
    Controller.Abides T v (readPages offset fuel left done got) c fun arrival _ =>
      arrival.bytes.length ≤ left + got.length := by
  induction fuel generalizing left done got c with
  | zero =>
    obtain rfl : left = 0 := by omega
    exact .pure hc (by simp)
  | succ fuel ih =>
    cases left with
    | zero => exact .pure hc (by simp)
    | succ left =>
      rw [readPages_succ]
      have hahead := hlen.imp_right fun h => (⟨by omega, .inr hslave⟩ : Ahead offset done)
      refine .bind_lift (.advance (hahead.imp_right fun h => h.lt)) fun position _ => ?_
      have hindex := pageIndex_lt position
      generalize hhere : min (left + 1) (pageSize - pageIndex position) = here
      have hpos : 0 < here := by omega
      refine .bind_lift (.count (hlen.imp_right fun h => ?_)) fun stop hstop => ?_
      · exact lt_wordLimit_of_signed (by omega)
      refine .bind (Controller.abides_bulkRead hc (hlen.imp_right fun h => by omega))
        fun arrival c hc h => ?_
      have hle := h.le
      rw [List.length_nil] at hle
      have hgot : (arrival.bytes.reverseAux got).length = arrival.bytes.length + got.length := by
        rw [List.reverseAux_eq, List.length_append, List.length_reverse]
      split
      · refine .pure hc ?_
        rw [List.length_reverse]
        omega
      · refine (ih hc _ (by omega) (hlen.imp_right fun h => by omega)).mono fun _ _ h => ?_
        omega

/-- What a read may bring: no more than was asked for, and only from a slave that
exists. -/
def Shown (offset : UInt64) (len : Nat) (arrival : Arrival) : Prop :=
  arrival.bytes.length ≤ len ∧ (0 < arrival.bytes.length → Addressed offset)

theorem Shown.nothing {len : Nat} {outcome : Except Error Unit} : Shown offset len ⟨[], outcome⟩ :=
  ⟨Nat.zero_le _, fun h => absurd h (Nat.lt_irrefl 0)⟩

theorem abides_read (hf : f.controller.Within T v) (offset : UInt64) {len : Nat}
    (hlen : T.overrun ∨ len ≤ signedLimit) :
    FlashProc.Abides T v (read offset len) f (Shown offset len) := by
  refine .bind_get ?_
  dsimp only
  split
  · exact .pure hf .nothing
  refine .bind (.log hf) fun _ f hf _ => .onController ?_
  refine .bind (abides_prepare hf offset) fun r c hc hr => ?_
  cases r with
  | error e => exact .pure hc .nothing
  | ok _ =>
    have hslave := hr () rfl
    refine (abides_readPages hc hslave [] (Nat.le_refl _) (hlen.imp_right fun h => ?_)).mono
      fun arrival _ h => ⟨?_, fun _ => hslave⟩
    · omega
    · rw [List.length_nil] at h
      omega

theorem abides_readAt (hf : f.controller.Within T v) (offset : UInt64) {len : Nat}
    (hlen : T.overrun ∨ len ≤ signedLimit) :
    FlashProc.Abides T v (readAt offset len) f (Shown offset len) := by
  refine .bind_get ?_
  split
  · exact .pure hf .nothing
  · exact abides_read hf offset hlen

theorem abides_writePages (hc : c.Within T v) (hslave : Addressed offset) {fuel done : Nat}
    {data page : Bytes} (hfuel : data.length ≤ fuel)
    (hlen : T.overrun ∨ done + data.length ≤ signedLimit)
    (hpage : T.overrun ∨ page.length = pageSize) :
    Controller.Abides T v (writePages offset fuel done data page) c fun w _ =>
      Session.progress w ≤ done + data.length := by
  induction fuel generalizing done data page c with
  | zero =>
    obtain rfl : data = [] := List.length_eq_zero_iff.mp (by omega)
    exact .pure hc (Nat.le_refl _)
  | succ fuel ih =>
    cases data with
    | nil => exact .pure hc (Nat.le_refl _)
    | cons byte more =>
      have hahead := hlen.imp_right fun h => (⟨by omega, .inr hslave⟩ : Ahead offset done)
      refine .bind_lift (.advance (hahead.imp_right fun h => h.lt)) fun position _ => ?_
      have hlong := hlen.imp_right fun h => (by omega : (byte :: more).length ≤ signedLimit)
      have hstep : Controller.Abides T v
          ((Controller.programPage position (byte :: more)).run.run page) c fun r _ =>
            (T.overrun ∨ r.2.length = pageSize) ∧
              ∀ n, r.1 = .ok n → Took position (byte :: more) n :=
        Controller.abides_programPage hc hpage hlong
      refine .bind hstep fun r c hc h => ?_
      obtain ⟨r, page⟩ := r
      obtain ⟨hpage, htook⟩ := h
      cases r with
      | error e =>
        refine .bind_lift (.passive (.log rfl)) fun _ _ => .pure hc ?_
        exact Nat.le_add_right _ _
      | ok n =>
        obtain ⟨hle, hsome⟩ := htook n rfl
        have hpos := (hsome (List.cons_ne_nil _ _)).1
        refine .bind_lift (.split (.inr hle)) fun r hr => ?_
        have hsum := congrArg List.length hr.1
        rw [List.length_append, hr.2] at hsum
        refine .bind_lift (.count (hlen.imp_right fun h => ?_)) fun total htotal => ?_
        · exact lt_wordLimit_of_signed (by omega)
        refine (ih hc (by omega) (hlen.imp_right fun h => by omega) hpage).mono fun w _ hw => ?_
        omega

/-- What a write may take: no more than was given, and only on a slave that
exists. -/
def Accepted (offset : UInt64) (data : Bytes) (w : Except PartialWrite Nat) : Prop :=
  Session.progress w ≤ data.length ∧ (0 < Session.progress w → Addressed offset)

theorem Accepted.nothing {data : Bytes} {e : Error} : Accepted offset data (.error ⟨0, e⟩) :=
  ⟨Nat.zero_le _, fun h => absurd h (Nat.lt_irrefl 0)⟩

theorem abides_write (hf : f.controller.Within T v) (offset : UInt64) {data : Bytes}
    (hlen : T.overrun ∨ data.length ≤ signedLimit) :
    FlashProc.Abides T v (write offset data) f (Accepted offset data) := by
  refine .bind_get ?_
  dsimp only
  generalize htaken : data.take (f.remaining offset) = taken
  have hsum := congrArg List.length htaken
  rw [List.length_take] at hsum
  split
  · exact .pure hf .nothing
  refine .bind (.log hf) fun _ f hf _ => .onController ?_
  refine .bind (abides_prepare hf offset) fun r c hc hr => ?_
  cases r with
  | error e => exact .pure hc .nothing
  | ok _ =>
    have hslave := hr () rfl
    refine (abides_writePages hc hslave (Nat.le_refl _) (hlen.imp_right fun h => ?_)
      (.inr List.length_replicate)).mono fun w _ hw => ⟨?_, fun _ => hslave⟩
    · omega
    · omega

theorem abides_erase (hf : f.controller.Within T v) (offset : UInt64) (size : Nat) :
    FlashProc.Abides T v (erase offset size) f fun _ => True := by
  refine .bind_get ?_
  split
  · exact .pure hf trivial
  · exact .onController
      (Controller.Abides.mono (Controller.abides_erase hf size) fun _ _ _ => trivial)

end Flash

/-! ## Sessions -/

/-- The same of a call on an open session; `A` holds of its answer and of the session
that it leaves behind. -/
def Session.Abides (T : Terms) (v : Vendor) (x : Session.Call α) (s : Session) (f : Flash)
    (A : α → Session → Prop) : Prop :=
  (x s f).Abides T fun r => r.2.controller.Within T v ∧ A r.1.1 r.1.2

namespace Session

variable {s : Session} {A M : α → Session → Prop} {B : β → Session → Prop}

theorem Abides.pure {a : α} (hf : f.controller.Within T v) (h : A a s) :
    Abides T v (Pure.pure a) s f A :=
  Proc.Abides.pure ⟨hf, h⟩

theorem Abides.bind {x : Call α} {g : α → Call β} (hx : Abides T v x s f M)
    (hg : ∀ a s f, f.controller.Within T v → M a s → Abides T v (g a) s f B) :
    Abides T v (x >>= g) s f B :=
  Proc.Abides.bind hx fun r hr => hg r.1.1 r.1.2 r.2 hr.1 hr.2

theorem Abides.bind_get {g : Session → Call α} (hg : Abides T v (g s) s f A) :
    Abides T v (get >>= g) s f A :=
  hg

/-- An operation of the flash as a step. -/
theorem Abides.bind_flash {x : FlashProc α} {g : α → Call β} {M : α → Prop}
    (hx : FlashProc.Abides T v x f M)
    (hg : ∀ a f, f.controller.Within T v → M a → Abides T v (g a) s f B) :
    Abides T v (liftM x >>= g) s f B := by
  refine Proc.Abides.bind (M := fun r => r.1.2 = s ∧ r.2.controller.Within T v ∧ M r.1.1) ?_ ?_
  · exact Proc.Abides.bind hx fun _ h => Proc.Abides.pure ⟨rfl, h⟩
  · rintro ⟨⟨a, _⟩, f⟩ ⟨rfl, hf, h⟩
    exact hg a f hf h

/-- A step that uses neither the session nor the flash. -/
theorem Abides.bind_lift {p : Proc α} {g : α → Call β} {M : α → Prop}
    (hf : f.controller.Within T v) (hp : p.Abides T M)
    (hg : ∀ a f, f.controller.Within T v → M a → Abides T v (g a) s f B) :
    Abides T v (liftM p >>= g) s f B :=
  .bind_flash (x := liftM p) (Proc.Abides.bind hp fun _ h => Proc.Abides.pure ⟨hf, h⟩) hg

/-- The session is `n` bytes further on. -/
def Moved (s : Session) (n : Nat) (s' : Session) : Prop :=
  s'.position.toNat = s.position.toNat + n

theorem abides_advance (hf : f.controller.Within T v) {n : Nat}
    (h : T.overrun ∨ Ahead s.position n) :
    Abides T v (advance n) s f fun _ s' => s.Moved n s' := by
  refine .bind_get (.bind_lift hf (.advance (h.imp_right fun h => h.lt)) ?_)
  exact fun _ _ hf hp _ => ⟨hf, hp⟩

/-- A read moves the session by what it brought, unless it failed. -/
def AfterRead (s : Session) (arrival : Arrival) (s' : Session) : Prop :=
  match arrival.outcome with
  | .ok () => s.Moved arrival.bytes.length s'
  | .error _ => s' = s

/-- A write moves the session by what it accepted, unless it failed. -/
def AfterWrite (s : Session) (r : Except IoError Nat) (s' : Session) : Prop :=
  match r with
  | .ok n => s.Moved n s'
  | .error _ => s' = s

theorem abides_read (hf : f.controller.Within T v) {len : Nat}
    (hlen : T.overrun ∨ len ≤ signedLimit) :
    Abides T v (read len) s f fun arrival s' =>
      Flash.Shown s.position len arrival ∧ s.AfterRead arrival s' := by
  refine .bind_get (.bind_flash (Flash.abides_read hf s.position hlen) fun arrival f hf h => ?_)
  obtain ⟨bytes, outcome⟩ := arrival
  cases outcome with
  | error e => exact .pure hf ⟨h, rfl⟩
  | ok _ =>
    refine .bind (abides_advance hf (hlen.imp_right fun hlen => ?_))
      fun _ _ _ hf hmoved => .pure hf ⟨h, hmoved⟩
    exact ⟨Nat.le_trans h.1 hlen, (Nat.eq_zero_or_pos _).imp_right h.2⟩

theorem abides_write (hf : f.controller.Within T v) {data : Bytes}
    (hlen : T.overrun ∨ data.length ≤ signedLimit) :
    Abides T v (write data) s f fun r s' =>
      (∀ n, r = .ok n → n ≤ data.length) ∧ s.AfterWrite r s' := by
  refine .bind_get (.bind_flash (Flash.abides_write hf s.position hlen) fun w f hf h => ?_)
  have hahead := hlen.imp_right fun hlen => (⟨Nat.le_trans h.1 hlen,
    (Nat.eq_zero_or_pos _).imp_right h.2⟩ : Ahead s.position (progress w))
  have haccepted : ∀ s' f, f.controller.Within T v → s.Moved (progress w) s' →
      Abides T v (Pure.pure (.ok (progress w))) s' f fun r s' =>
        (∀ n, r = .ok n → n ≤ data.length) ∧ s.AfterWrite r s' :=
    fun s' f hf hmoved => .pure hf ⟨fun n hn => Except.ok.inj hn ▸ h.1, hmoved⟩
  cases w with
  | ok n => exact .bind (abides_advance hf hahead) fun _ => haccepted
  | error stopped =>
    dsimp only
    split
    · exact .pure hf ⟨nofun, rfl⟩
    · exact .bind (abides_advance hf hahead) fun _ => haccepted

end Session

/-! ## Operations -/

theorem Controller.Abides.drop {x : StateT Controller Proc α} {A : α → Controller → Prop}
    (hx : Controller.Abides T v x c A) :
    Controller.Abides T v (do let _ ← x) c fun _ _ => True :=
  .bind hx fun _ _ hc _ => .pure hc trivial

theorem FlashProc.Abides.drop {x : FlashProc α} {A : α → Prop} (hx : FlashProc.Abides T v x f A) :
    FlashProc.Abides T v (do let _ ← x) f fun _ => True :=
  .bind hx fun _ _ hf _ => .pure hf trivial

/-- No buffer is longer than half of the address space, and a page buffer is as
long as a page. -/
def ControllerCall.Sized : ControllerCall → Prop
  | .readChunk _ len | .bulkRead _ len => len ≤ signedLimit
  | .bulkWrite _ data | .rewriteUnit _ data => data.length ≤ signedLimit
  | .mergePage _ data page | .programPage _ data page =>
    data.length ≤ signedLimit ∧ page.length = pageSize
  | _ => True

/-- **Every command abides by the terms.** -/
theorem ControllerCall.abides_perform (call : ControllerCall) (hc : c.Within T v)
    (hsized : T.overrun ∨ call.Sized) : Controller.Abides T v call.perform c fun _ _ => True := by
  cases call with
  | setActiveSlave slave => exact .drop (Controller.abides_setActiveSlave hc slave)
  | isReady =>
    exact .bind_get (.bind_lift (c.bus.abides_isReady hc.burst_status) fun _ _ => .pure hc trivial)
  | waitUntilReady => exact .drop (Controller.abides_waitUntilReady hc)
  | enableWrite => exact .drop (Controller.abides_enableWrite hc)
  | selectSector sector => exact .drop (Controller.abides_selectSector hc sector)
  | buildHeader opcode a => exact .drop (Controller.abides_buildHeader hc opcode a)
  | readChunk offset len => exact .drop (Controller.abides_readChunk hc offset hsized)
  | writeChunk offset data => exact .drop (Controller.abides_writeChunk hc offset data)
  | bulkRead offset len => exact .drop (Controller.abides_bulkRead hc hsized)
  | bulkWrite offset data => exact .drop (Controller.abides_bulkWrite hc hsized)
  | erase offset size => exact .drop (Controller.abides_erase hc size)
  | eraseUnit offset unit => exact .drop (Controller.abides_eraseUnit hc unit)
  | rewriteUnit offset data => exact .drop (Controller.abides_rewriteUnit hc hsized)
  | mergePage offset data page =>
    have h : Controller.Merge.Abides T v (Controller.mergePage offset data) page c
        fun n => Controller.Took offset data n :=
      Controller.abides_mergePage hc (hsized.imp_right fun h => h.2)
    exact Proc.Abides.bind h fun _ hr => Proc.Abides.pure ⟨hr.1, trivial⟩
  | programPage offset data page =>
    have h : Controller.Merge.Abides T v (Controller.programPage offset data) page c
        fun n => Controller.Took offset data n :=
      Controller.abides_programPage hc (hsized.imp_right fun h => h.2)
        (hsized.imp_right fun h => h.1)
    exact Proc.Abides.bind h fun _ hr => Proc.Abides.pure ⟨hr.1, trivial⟩

/-- No buffer is longer than half of the address space. -/
def FlashCall.Sized : FlashCall → Prop
  | .read _ len | .readAt _ len | .sessionRead _ len => len ≤ signedLimit
  | .write _ data | .sessionWrite _ data => data.length ≤ signedLimit
  | _ => True

/-- **Every call abides by the terms.** -/
theorem FlashCall.abides_perform (call : FlashCall) (hf : f.controller.Within T v)
    (hsized : T.overrun ∨ call.Sized) : FlashProc.Abides T v call.perform f fun _ => True := by
  cases call with
  | read offset len => exact .drop (Flash.abides_read hf offset hsized)
  | readAt offset len => exact .drop (Flash.abides_readAt hf offset hsized)
  | write offset data => exact .drop (Flash.abides_write hf offset hsized)
  | erase offset size => exact .drop (Flash.abides_erase hf offset size)
  | openSession =>
    refine .drop (A := fun _ => True) (.bind_get ?_)
    split
    · exact .pure hf trivial
    · exact fun _ => ⟨hf, trivial⟩
  | closeSession => exact fun _ => ⟨hf, trivial⟩
  | sessionRead s len =>
    exact Proc.Abides.bind (Session.abides_read (s := s) hf hsized)
      fun _ hr => Proc.Abides.pure ⟨hr.1, trivial⟩
  | sessionWrite s data =>
    exact Proc.Abides.bind (Session.abides_write (s := s) hf hsized)
      fun _ hr => Proc.Abides.pure ⟨hr.1, trivial⟩

/-! ## Attaching -/

/-- The terms of an attach, which sends the status read and the ID read. -/
def Terms.ofAttach : Terms where
  burst burst := burst = [Opcode.readStatus, 0] ∨ burst = [Opcode.readId, 0, 0, 0, 0]
  overrun := True

/-- An attach reads the status and the ID, and succeeds only if data fits the
FIFO. -/
theorem Controller.abides_attach (tuning : Tuning)
    (hstatus : T.burst [Opcode.readStatus, 0]) (hid : T.burst [Opcode.readId, 0, 0, 0, 0])
    (hcount : T.overrun ∨ Opcode.headerLen + tuning.readDummyLen < wordLimit) :
    Attempt.Abides T (attach tuning) fun c => c.Fitted ∧ c.tuning = tuning := by
  rw [attach]
  refine .join ?_ fun hy => ?_
  · refine .bind_lift (.store (by decide) _) fun _ _ => ?_
    refine .bind (Bus.abides_discoverFifoDepth _ _) fun bus hbus => ?_
    obtain ⟨depth, hdepth, rfl⟩ := hbus
    refine .bind_lift (.count hcount) fun overhead hoverhead => ?_
    split
    · exact .bind_lift (.passive (.log rfl)) fun _ _ => .throw
    · rename_i hroom
      refine .bind (Bus.abides_waitUntilReady hstatus _) fun _ _ => ?_
      refine .bind (Bus.abides_identify hid _) fun found hcapacity => ?_
      refine .bind_lift (.passive (.log rfl)) fun _ _ => .pure ⟨⟨?_, ?_, hdepth, hcapacity⟩, rfl⟩
      · exact List.length_replicate
      · rw [← hoverhead]
        exact Nat.lt_of_not_le hroom
  · refine .bind_lift (.passive (.log rfl)) fun _ _ => ?_
    exact .bind_lift (.store (by decide) _) fun _ _ => hy

/-- A fitted controller is within its own bounds. -/
theorem Controller.Fitted.within {overrun : Prop} (hc : c.Fitted) {depth limit : Nat}
    (hdepth : c.bus.fifoDepth = depth) (hlimit : c.tuning.writeMaxLen = limit) :
    c.Within { burst := Bounded c.vendor depth limit, overrun } c.vendor := by
  subst hdepth hlimit
  exact ⟨hc, rfl, fun _ h => h⟩

/-! ## Runs -/

/-- The bytes that were pushed between the activation of a slave and the
deselection that followed it. -/
def IsBurst (past : List Deed) (burst : Bytes) : Prop :=
  ∃ later during before word,
    past = later ++ .write .slaveSelect slaveSelectNone ::
      (during ++ .write .slaveSelect word :: before) ∧
    word ≠ slaveSelectNone ∧ .write .slaveSelect slaveSelectNone ∉ during ∧ sent during = burst

/-- Every burst of a past fits the FIFO, and program bursts their limits. -/
def BurstsBounded (v : Vendor) (depth limit : Nat) (past : List Deed) : Prop :=
  ∀ burst, IsBurst past burst → Bounded v depth limit burst

/-- Where the bus is used with discipline, a slave that was activated stays selected
until all are deselected. -/
theorem sinceSelect_of_obeys {during before : List Deed} {word : UInt32}
    (h : Obeys Permitted (during ++ .write .slaveSelect word :: before))
    (hword : word ≠ slaveSelectNone) (hduring : .write .slaveSelect slaveSelectNone ∉ during) :
    sinceSelect (during ++ .write .slaveSelect word :: before) = during ∧
      lastWrite? .slaveSelect (during ++ .write .slaveSelect word :: before) = some word := by
  induction during with
  | nil => exact ⟨rfl, rfl⟩
  | cons d during ih =>
    obtain ⟨hd, h⟩ := h
    rw [List.mem_cons, not_or] at hduring
    obtain ⟨hne, hduring⟩ := hduring
    obtain ⟨hsince, hlast⟩ := ih h hduring
    cases d with
    | write r word' =>
      cases r with
      | slaveSelect =>
        -- another activation needs that no slave is selected
        rcases hd with ⟨rfl, -⟩ | ⟨-, -, hdeselected⟩
        · exact absurd rfl hne
        · exact absurd (hdeselected word hlast) hword
      | reset | control | status | tx | rx =>
        exact ⟨congrArg (List.cons _) hsince, hlast⟩
    | attaching | calling | ended | read | delay | yield | line =>
      exact ⟨congrArg (List.cons _) hsince, hlast⟩

/-- A past that obeys the terms and the discipline of the bus has allowed bursts
only. -/
theorem IsBurst.allowed {past : List Deed} {burst : Bytes} (h : IsBurst past burst)
    (hterms : Obeys T.rule past) (hbus : Obeys Permitted past) : T.burst burst := by
  obtain ⟨later, during, before, word, rfl, hword, hduring, rfl⟩ := h
  have hbus' : Obeys Permitted (during ++ .write .slaveSelect word :: before) := by
    induction later with
    | nil => exact hbus.2
    | cons _ _ ih => exact ih hterms.2 hbus.2
  have hburst := hterms.rule rfl
  rwa [(sinceSelect_of_obeys hbus' hword hduring).1] at hburst

namespace Operation

/-- An attach is none of the operations of an attached flash. -/
def IsAttach : Operation → Prop
  | attach _ => True
  | command _ | call _ => False

instance : DecidablePred IsAttach
  | attach _ => isTrue trivial
  | command _ | call _ => isFalse id

theorem run_attach {b : RegisterBlock σ} {s t : σ} {tuning : Tuning}
    (h : (Flash.attach tuning).run.run b s = (some (.ok f), t)) :
    (perform (.attach tuning) none).run b s = (some (some f), t) := by
  rw [perform, Proc.bind_eq, Proc.run_bind, h]
  rfl

/-- **Every operation of an attached flash abides by the terms.** -/
theorem abides_perform {op : Operation} (hop : ¬ op.IsAttach) {f : Option Flash}
    (hf : ∀ g, f = some g → g.controller.Within T v) (hoverrun : T.overrun) :
    (op.perform f).Abides T fun r => ∀ g, r = some g → g.controller.Within T v := by
  cases f with
  | none =>
    cases op with
    | attach tuning => exact absurd trivial hop
    | command | call => exact .pure nofun
  | some f =>
    have hf := hf f rfl
    cases op with
    | attach tuning => exact absurd trivial hop
    | command request =>
      refine Proc.Abides.bind
        (FlashProc.Abides.onController (A := fun _ => True)
          (request.abides_perform hf (.inl hoverrun))) fun r hr => .pure fun g hg => ?_
      cases hg
      exact hr.1
    | call request =>
      refine Proc.Abides.bind (request.abides_perform hf (.inl hoverrun))
        fun r hr => .pure fun g hg => ?_
      cases hg
      exact hr.1

end Operation

namespace Course

/-- A run has obeyed the terms so far, and its flash is within them. -/
structure Within (T : Terms) (v : Vendor) (t : Course σ) : Prop where
  obeys : Obeys T.rule t.past
  flash : ∀ f, t.flash = some f → f.controller.Within T v

/-- What an operation that abides by the terms did obeys them. -/
theorem obeys_step {t : Course σ} {op : Operation} {A : Option Flash → Prop}
    (h : Obeys T.rule t.past) (hoverrun : T.overrun) (hop : (op.perform t.flash).Abides T A)
    (b : RegisterBlock σ) :
    Obeys T.rule (t.step b op).past ∧
      ∀ r, ((op.perform t.flash).run b t.state).1 = some r → A r := by
  have hbegun : Obeys T.rule (op.mark :: t.past) := by
    refine ⟨?_, h⟩
    cases op <;> trivial
  obtain ⟨hobeys, hend⟩ := (hop (op.mark :: t.past)).obeys hbegun b t.state
  refine ⟨⟨hoverrun, hobeys⟩, fun r hr => ?_⟩
  rw [hr] at hend
  exact hend

/-- **One operation leaves a run within the terms.** -/
theorem Within.step {t : Course σ} (h : t.Within T v) (hoverrun : T.overrun)
    (b : RegisterBlock σ) {op : Operation} (hop : ¬ op.IsAttach) : (t.step b op).Within T v := by
  obtain ⟨hobeys, hend⟩ :=
    obeys_step h.obeys hoverrun (Operation.abides_perform hop h.flash hoverrun) b
  refine ⟨hobeys, fun f hf => ?_⟩
  rw [Course.step] at hf
  rcases hrun : ((op.perform t.flash).run b t.state).1 with _ | r
  · rw [hrun] at hf
    cases hf
  · rw [hrun] at hf
    exact hend r hrun f hf

theorem Within.run {t : Course σ} (h : t.Within T v) (hoverrun : T.overrun)
    (b : RegisterBlock σ) {ops : List Operation} (hops : ∀ op ∈ ops, ¬ op.IsAttach) :
    (t.run b ops).Within T v := by
  induction ops generalizing t with
  | nil => exact h
  | cons op ops ih =>
    exact ih (h.step hoverrun b (hops op List.mem_cons_self))
      fun op' hmem => hops op' (List.mem_cons_of_mem _ hmem)

/-- An attach that succeeded begins a run within the bounds of its controller. -/
theorem Within.attach {b : RegisterBlock σ} {s t : σ} {tuning : Tuning}
    (hattach : (Flash.attach tuning).run.run b s = (some (.ok f), t)) :
    (Course.step b { state := s } (.attach tuning)).Within
      { burst := Bounded f.vendor f.fifoDepth tuning.writeMaxLen, overrun := True } f.vendor := by
  have hperform : (Operation.perform (.attach tuning) none).Abides .ofAttach fun r =>
      ∀ g, r = some g → g.controller.Fitted ∧ g.controller.tuning = tuning := by
    refine Proc.Abides.bind (Attempt.Abides.bind (Controller.abides_attach tuning (.inl rfl)
      (.inr rfl) (.inl trivial)) fun c hc => .pure (A := fun g : Flash =>
        g.controller.Fitted ∧ g.controller.tuning = tuning) hc) fun r hr => ?_
    cases r with
    | error e => exact .pure nofun
    | ok g =>
      refine .pure fun g' hg => ?_
      cases hg
      exact hr g rfl
  have hrun := Operation.run_attach hattach
  obtain ⟨hobeys, hend⟩ := obeys_step (t := { state := s }) trivial trivial hperform b
  obtain ⟨hfitted, htuning⟩ := hend (some f) (by rw [hrun]) f rfl
  have hdepth : Opcode.headerLen < f.fifoDepth := hfitted.lt_depth
  -- the status read and the ID read fit any FIFO with room for data
  refine ⟨Terms.obeys_mono (S := .ofAttach) ?_ id hobeys, fun g hg => ?_⟩
  · rintro burst (rfl | rfl)
    · exact .of_head (by cases f.vendor <;> decide)
        (Nat.le_trans (by decide : 2 ≤ Opcode.headerLen) (Nat.le_of_lt hdepth))
    · exact .of_head (by cases f.vendor <;> decide) hdepth
  · have hflash : (Course.step b { state := s } (.attach tuning)).flash = some f := by
      rw [Course.step, hrun]
      rfl
    cases hflash.symm.trans hg
    exact hfitted.within rfl (congrArg Tuning.writeMaxLen htuning)

end Course

/-- **Bursts stay within their bounds on every block.** After an attach that
succeeded, whatever commands and calls follow and whatever the block answers: what
is pushed between the activation of a slave and the next deselection fits the FIFO
that was measured; and if it is a program command, it carries data, at most as much
as the tuning and the FIFO allow, and none of it beyond the 256-byte page that its
header names. -/
theorem bursts_bounded {b : RegisterBlock σ} {s t : σ} {tuning : Tuning}
    (hattach : (Flash.attach tuning).run.run b s = (some (.ok f), t)) {ops : List Operation}
    (hops : ∀ op ∈ ops, ¬ op.IsAttach) :
    BurstsBounded f.vendor f.fifoDepth tuning.writeMaxLen
      (Course.run b (.attach tuning :: ops) { state := s }).past := by
  have hwithin := (Course.Within.attach hattach).run trivial b hops
  have hstart : Course.Orderly ({ state := s } : Course σ) := ⟨trivial, nofun, nofun⟩
  have horderly := hstart.run b (.attach tuning :: ops)
  exact fun burst h => h.allowed hwithin.obeys horderly.obeys

/-- The bursts of a default driver on a default emulator: a write across a page
boundary, a read and an erase. -/
theorem bursts_bounded_default :
    ∃ f t, (Flash.attach {}).run.run Emulator.block (.ofConfig {}) = (some (.ok f), t) ∧
      BurstsBounded f.vendor f.fifoDepth 128
        (Course.run Emulator.block
          [.attach {}, .call (.write 0xffe [1, 2, 3, 4]), .command (.readChunk 0xffe 2),
            .call (.erase 0 4096)] { state := .ofConfig {} }).past := by
  have hprepared : Emulator.Prepared {} (.ofConfig {}) := .fresh
  obtain ⟨r, t, hrun, hr⟩ := hprepared.ends_attach {} (by decide)
  cases r with
  | error e => exact absurd attachable_default hr
  | ok f => exact ⟨f, t, hrun, bursts_bounded hrun (by decide)⟩

end NorFlash
