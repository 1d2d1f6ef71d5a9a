import NorFlash.Proofs.Cursor

/-!
# Admission — sessions and the commands that open them

A flash admits one session at a time. The commands that open a session of their own
close it on every way out: they leave the flash as open or as closed as it was. While
another session is open they are kept out.
-/

namespace NorFlash

variable {α β κ σ : Type} {T : Terms} {v : Vendor} {b : RegisterBlock σ} {st : σ} {f : Flash}
  {s : Session} {desk : Desk} {offset : UInt64} {data : Bytes}

/-! ## What leaves a flag alone -/

/-- Wherever the operation ends, it leaves this flag of its state as it was. -/
def Keeps (flag : κ → Bool) (x : StateT κ Proc α) : Prop :=
  ∀ k, (x k).Abides .lax fun r => flag r.2 = flag k

namespace Keeps

variable {flag : κ → Bool} {x : StateT κ Proc α}

theorem pure (a : α) : Keeps flag (Pure.pure a) := fun _ => Proc.Abides.pure rfl

theorem bind {g : α → StateT κ Proc β} (hx : Keeps flag x) (hg : ∀ a, Keeps flag (g a)) :
    Keeps flag (x >>= g) := fun k =>
  Proc.Abides.bind (hx k) fun r hr => (hg r.1 r.2).mono fun _ h => h.trans hr

theorem get : Keeps flag MonadState.get := fun _ => Proc.Abides.pure rfl

theorem lift (p : Proc α) : Keeps flag (liftM p) := fun _ =>
  Proc.Abides.bind p.abides_lax fun _ _ => Proc.Abides.pure rfl

/-- A step of an operation that may fail. -/
theorem bind_except {ε : Type} {y : ExceptT ε (StateT κ Proc) α}
    {g : α → ExceptT ε (StateT κ Proc) β} (hy : Keeps flag y.run)
    (hg : ∀ a, Keeps flag (g a).run) : Keeps flag (y >>= g).run :=
  bind hy fun r => by
    cases r with
    | ok a => exact hg a
    | error e => exact pure _

/-- A run leaves the flag as it was. -/
theorem of_run (hx : Keeps flag x) {k k' : κ} {s t : σ} {a : α}
    (hrun : (x k).run b s = (some (a, k'), t)) : flag k' = flag k :=
  (hx k).of_run hrun

/-- What the operation ends with, and the flag beside it. -/
theorem ends (hx : Keeps flag x) {k : κ} {A : α × κ → σ → Prop} (h : (x k).Ends b st A) :
    (x k).Ends b st fun r t => A r t ∧ flag r.2 = flag k := by
  obtain ⟨r, t, hrun, ha⟩ := h
  exact ⟨r, t, hrun, ha, hx.of_run hrun⟩

theorem onController (y : StateT Controller Proc α) :
    Keeps Flash.sessionOpen (Flash.onController y) := fun _ =>
  Proc.Abides.bind (Proc.abides_lax _) fun _ _ => Proc.Abides.pure rfl

end Keeps

namespace Flash

theorem keeps_read (p : UInt64) (len : Nat) : Keeps sessionOpen (read p len) := by
  refine .bind .get fun f => ?_
  dsimp only
  split
  · exact .pure _
  · exact .bind (.lift _) fun _ => .onController _

theorem keeps_readAt (p : UInt64) (len : Nat) : Keeps sessionOpen (readAt p len) := by
  refine .bind .get fun f => ?_
  split
  · exact .pure _
  · exact keeps_read p len

theorem keeps_write (p : UInt64) (data : Bytes) : Keeps sessionOpen (write p data) := by
  refine .bind .get fun f => ?_
  dsimp only
  split
  · exact .pure _
  · exact .bind (.lift _) fun _ => .onController _

end Flash

namespace Session

/-- A call on an open session opens and closes none. -/
def StaysOpen (x : Call α) : Prop :=
  ∀ s, Keeps Flash.sessionOpen (x s)

theorem StaysOpen.pure (a : α) : StaysOpen (Pure.pure a) := fun _ => .pure _

theorem StaysOpen.bind {x : Call α} {g : α → Call β} (hx : StaysOpen x)
    (hg : ∀ a, StaysOpen (g a)) : StaysOpen (x >>= g) := fun s => .bind (hx s) fun r => hg r.1 r.2

theorem StaysOpen.get : StaysOpen MonadState.get := fun _ => .pure _

theorem StaysOpen.flash {x : FlashProc α} (hx : Keeps Flash.sessionOpen x) : StaysOpen (liftM x) :=
  fun s => .bind (g := fun a => Pure.pure (a, s)) hx fun _ => .pure _

theorem StaysOpen.lift (p : Proc α) : StaysOpen (liftM p) := .flash (.lift p)

theorem staysOpen_advance (n : Nat) : StaysOpen (advance n) :=
  .bind .get fun _ => .bind (.lift _) fun _ _ => .pure _

theorem staysOpen_read (len : Nat) : StaysOpen (read len) := by
  refine .bind .get fun s => .bind (.flash (Flash.keeps_read _ _)) fun arrival => ?_
  split
  · exact .pure _
  · exact .bind (staysOpen_advance _) fun _ => .pure _

theorem staysOpen_write (data : Bytes) : StaysOpen (write data) := by
  refine .bind .get fun s => .bind (.flash (Flash.keeps_write _ _)) fun w => ?_
  split
  · exact .bind (staysOpen_advance _) fun _ => .pure _
  · split
    · exact .pure _
    · exact .bind (staysOpen_advance _) fun _ => .pure _

/-- A session is opened on a flash that has none open. -/
def openLaw (f : Flash) : Except Error Session × Flash :=
  if f.sessionOpen then (.error .busy, f) else (.ok {}, { f with sessionOpen := true })

theorem openOn_eq (f : Flash) : openOn f = pure (openLaw f) := by
  rw [openOn, FlashProc.get_bind, openLaw]
  split <;> rfl

end Session

/-! ## Commands -/

namespace Command

/-- The command leaves the flash as open or as closed as it was. -/
def Leaves (x : Command α) : Prop :=
  Keeps (fun desk : Desk => desk.flash.sessionOpen) x.run

namespace Leaves

variable {x : Command α} {g : α → Command β}

theorem pure (a : α) : Leaves (Pure.pure a) := Keeps.pure _

theorem throw (e : ToolError) : Leaves (MonadExcept.throw e : Command α) := Keeps.pure _

theorem bind (hx : Leaves x) (hg : ∀ a, Leaves (g a)) : Leaves (x >>= g) :=
  Keeps.bind_except hx hg

theorem get : Leaves MonadState.get := fun _ => Proc.Abides.pure rfl

theorem lift (p : Proc α) : Leaves (liftM p) :=
  Keeps.bind (Keeps.lift p) fun _ => Keeps.pure _

theorem ofResult (r : Except ToolError α) : Leaves (ofResult r) := Keeps.pure _

theorem onFlash {y : FlashProc α} (hy : Keeps Flash.sessionOpen y) : Leaves (onFlash y) :=
  fun _ => Proc.Abides.bind (Proc.Abides.bind (hy _) fun _ hr => Proc.Abides.pure hr)
    fun _ hr => Proc.Abides.pure hr

end Leaves

theorem leaves_print (text : String) : Leaves (print text) := fun _ => Proc.Abides.pure rfl

theorem leaves_readFile (path : String) : Leaves (readFile path) :=
  .bind .get fun _ => .ofResult _

theorem leaves_writeFile (path : String) (bytes : Bytes) : Leaves (writeFile path bytes) :=
  .bind .get fun _ => .bind (.ofResult _) fun _ _ => Proc.Abides.pure rfl

theorem leaves_remainingFrom (offset : UInt64) : Leaves (remainingFrom offset) := by
  refine .bind .get fun desk => ?_
  dsimp only
  split
  · exact .throw _
  · exact .pure _

/-- The session that is opened is closed on every way out, and where none could be
opened nothing was closed. -/
theorem leaves_withSession (offset : UInt64) (body : Session.Call (Except ToolError α)) :
    Leaves (withSession offset body) := by
  refine .bind (.onFlash fun f => ?_) fun _ => .ofResult _
  refine Proc.Abides.bind (M := (· = Session.openLaw f))
    (Session.openOn_eq f ▸ Proc.Abides.pure rfl) fun r hr => ?_
  rw [Session.openLaw] at hr
  split at hr
  · cases hr
    exact Proc.Abides.pure rfl
  · rename_i hopen
    cases hr
    refine Proc.Abides.bind (Proc.abides_lax _) fun _ _ => Proc.Abides.pure ?_
    exact (Bool.eq_false_iff.mpr hopen).symm

theorem leaves_verifyPieces (offset : UInt64) (fuel k : Nat) (rest : Bytes) :
    Leaves (verifyPieces offset fuel k rest) := by
  induction fuel generalizing k rest with
  | zero =>
    cases rest with
    | nil => exact .pure _
    | cons => exact .lift _
  | succ fuel ih =>
    cases rest with
    | nil => exact .pure _
    | cons byte more =>
      refine .bind (.lift _) fun done => .bind (.lift _) fun position => ?_
      refine .bind (.lift _) fun len => ?_
      refine .bind (.onFlash (Flash.keeps_readAt _ _)) fun arrival => ?_
      split
      · exact .throw _
      · split
        · exact .bind (.lift _) fun _ => .throw _
        · exact ih _ _

/-- **A command that reads leaves the flash as open as it was.** -/
theorem leaves_read (output : String) (offset : UInt64) (length : Option Nat) :
    Leaves (read output offset length) :=
  .bind (.bind (leaves_remainingFrom _) fun _ => leaves_withSession _ _) fun _ =>
    .bind (leaves_writeFile _ _) fun _ => leaves_print _

/-- **So does one that writes.** -/
theorem leaves_write (input : String) (offset : UInt64) (verified : Bool) :
    Leaves (write input offset verified) := by
  refine .bind (leaves_readFile _) fun data => .bind (leaves_print _) fun _ => ?_
  refine .bind (.bind (leaves_remainingFrom _) fun _ => .bind (leaves_withSession _ _)
    fun _ => .pure _) fun written => ?_
  have hverify : Leaves (do
      if verified then
        verify offset (data.take written)
        print "Verification passed\n") := by
    split
    · exact .bind (leaves_verifyPieces _ _ _ _) fun _ => leaves_print _
    · exact .pure _
  dsimp only
  split
  · exact .bind (.lift _) fun _ => hverify
  · exact hverify

/-! ## Commands come to an end -/

theorem abides_print (hf : desk.flash.controller.Within T v) (text : String) :
    Abides T v (print text) desk fun _ => True :=
  Proc.Abides.pure ⟨hf, fun _ _ => trivial⟩

theorem abides_ofResult (hf : desk.flash.controller.Within T v) (r : Except ToolError α) :
    Abides T v (ofResult r) desk fun a => r = .ok a :=
  Proc.Abides.pure ⟨hf, fun _ h => h⟩

theorem abides_readFile (hf : desk.flash.controller.Within T v) (path : String) :
    Abides T v (readFile path) desk fun _ => True :=
  .bind (M := fun _ => True) (Proc.Abides.pure ⟨hf, fun _ _ => trivial⟩) fun _ _ hf _ =>
    (abides_ofResult hf _).mono fun _ h => ⟨h.1, fun _ _ => trivial⟩

theorem abides_writeFile (hf : desk.flash.controller.Within T v) (path : String) (bytes : Bytes) :
    Abides T v (writeFile path bytes) desk fun _ => True :=
  .bind (M := fun _ => True) (Proc.Abides.pure ⟨hf, fun _ _ => trivial⟩) fun _ _ hf _ =>
    .bind (abides_ofResult hf _) fun _ _ hf _ => Proc.Abides.pure ⟨hf, fun _ _ => trivial⟩

theorem abides_remainingFrom (hf : desk.flash.controller.Within T v) (offset : UInt64) :
    Abides T v (remainingFrom offset) desk fun n => n ≤ signedLimit := by
  rw [Abides, remainingFrom, run_get_bind]
  dsimp only
  split
  · exact Abides.throw hf
  · exact Abides.pure hf (Flash.remaining_le_signed hf.toFitted _)

theorem abides_withSession (hf : desk.flash.controller.Within T v) (offset : UInt64)
    {body : Session.Call (Except ToolError α)}
    (hbody : ∀ s f, f.controller.Within T v → Session.Abides T v body s f fun _ _ => True) :
    Abides T v (withSession offset body) desk fun _ => True := by
  refine .bind (.onFlash (A := fun _ => True) ?_) fun r _ hf _ =>
    (abides_ofResult hf r).mono fun _ h => ⟨h.1, fun _ _ => trivial⟩
  refine .bind (M := fun _ => True) ?_ fun r f hf _ => ?_
  · rw [FlashProc.Abides, Session.openOn_eq, Session.openLaw]
    split <;> exact Proc.Abides.pure ⟨hf, trivial⟩
  cases r with
  | error e => exact .pure hf trivial
  | ok s =>
    refine .bind (M := fun _ => True) ?_ fun _ f hf _ => ?_
    · rw [startingAt]
      split
      · exact .pure hf trivial
      · exact Proc.Abides.bind (hbody _ _ hf) fun _ hr => Proc.Abides.pure ⟨hr.1, trivial⟩
    · exact Proc.Abides.pure ⟨hf, trivial⟩

theorem abides_readPieces {s : Session} {f : Flash} (hf : f.controller.Within T v)
    {fuel left : Nat} (got : Bytes) (hfuel : left ≤ fuel) :
    Session.Abides T v (readPieces fuel left got) s f fun _ _ => True := by
  induction fuel generalizing left got s f with
  | zero =>
    obtain rfl : left = 0 := by omega
    exact .pure hf trivial
  | succ fuel ih =>
    cases left with
    | zero => exact .pure hf trivial
    | succ left =>
      refine .bind (Session.abides_read hf (.inr ?_)) fun arrival s f hf _ => ?_
      · exact Nat.le_trans (Nat.min_le_right _ _) (by decide)
      · split
        · exact .pure hf trivial
        split
        · exact .pure hf trivial
        · rename_i hsome
          have hpos := List.length_pos_iff.mpr (mt List.isEmpty_iff.mpr hsome)
          exact ih hf _ (by omega)

theorem abides_writePieces {s : Session} {f : Flash} (hf : f.controller.Within T v)
    {fuel : Nat} {data : Bytes} (hfuel : data.length ≤ fuel) :
    Session.Abides T v (writePieces fuel data) s f fun _ _ => True := by
  induction fuel generalizing data s f with
  | zero =>
    obtain rfl : data = [] := List.eq_nil_of_length_eq_zero (by omega)
    exact .pure hf trivial
  | succ fuel ih =>
    cases data with
    | nil => exact .pure hf trivial
    | cons byte more =>
      refine .bind (Session.abides_writeAll hf (.inr ?_)) fun r s f hf _ => ?_
      · rw [List.length_take]
        exact Nat.le_trans (Nat.min_le_left _ _) (by decide)
      · split
        · exact .pure hf trivial
        · refine ih hf ?_
          rw [List.length_drop, List.length_cons, pieceSize]
          rw [List.length_cons] at hfuel
          omega

theorem abides_read (hf : desk.flash.controller.Within T v) (output : String) (offset : UInt64)
    (length : Option Nat) : Abides T v (read output offset length) desk fun _ => True := by
  refine .bind (M := fun _ => True) (.bind (abides_remainingFrom hf offset) fun _ _ hf _ => ?_)
    fun _ _ hf _ => .bind (abides_writeFile hf _ _) fun _ _ hf _ => abides_print hf _
  exact abides_withSession hf offset fun _ _ hf => abides_readPieces hf _ (Nat.le_refl _)

theorem abides_write (hf : desk.flash.controller.Within T v) (input : String) (offset : UInt64)
    (verified : Bool) : Abides T v (write input offset verified) desk fun _ => True := by
  refine .bind (abides_readFile hf _) fun data _ hf _ => .bind (abides_print hf _)
    fun _ _ hf _ => ?_
  refine .bind (M := fun n => n ≤ signedLimit) ?_ fun written desk hf hwritten => ?_
  · refine .bind (abides_remainingFrom hf offset) fun n _ hf hn => ?_
    refine .bind (abides_withSession hf offset fun _ _ hf =>
      abides_writePieces hf (Nat.le_refl _)) fun _ _ hf _ => .pure hf ?_
    rw [List.length_take]
    exact Nat.le_trans (Nat.min_le_left _ _) hn
  have hverify : ∀ desk : Desk, desk.flash.controller.Within T v → Abides T v (do
      if verified then
        verify offset (data.take written)
        print "Verification passed\n") desk fun _ => True := by
    intro desk hf
    split
    · refine .bind (abides_verifyPieces hf (Nat.le_refl _) (.inr fun _ => ?_))
        fun _ _ hf _ => abides_print hf _
      refine ⟨.start offset, ?_⟩
      rw [List.length_take]
      omega
    · exact .pure hf trivial
  dsimp only
  split
  · exact .bind (.lift hf (.passive (.log rfl))) fun _ desk hf _ => hverify desk hf
  · exact hverify desk hf

end Command

/-! ## Commands that are kept out -/

namespace Command

theorem run_onFlash_pure {x : FlashProc α} {a : α} {f : Flash}
    (h : x desk.flash = pure (a, f)) :
    (onFlash x).run desk = pure (.ok a, { desk with flash := f }) := by
  change (x desk.flash >>= _) >>= _ = _
  rw [h]
  rfl

theorem run_print (text : String) :
    (print text).run desk = pure (.ok (), { desk with printed := text :: desk.printed }) := rfl

theorem run_withSession_busy (hopen : desk.flash.sessionOpen = true) (offset : UInt64)
    (body : Session.Call (Except ToolError α)) :
    (withSession offset body).run desk = pure (.error (.driver .busy), desk) := by
  refine (run_bind_ok (run_onFlash_pure (a := .error (.driver .busy)) ?_)).trans rfl
  change Session.openOn desk.flash >>= _ = _
  rw [Session.openOn_eq, Session.openLaw, if_pos hopen]
  rfl

theorem run_remainingFrom_ok (h : desk.flash.remaining offset ≠ 0) :
    (remainingFrom offset).run desk = pure (.ok (desk.flash.remaining offset), desk) := by
  rw [remainingFrom, run_get_bind, if_neg h]
  rfl

/-- Why a command is refused while a session is open. -/
def refusal (f : Flash) (offset : UInt64) : ToolError :=
  if f.remaining offset = 0 then .outOfRange offset f.capacity else .driver .busy

/-- A command first asks how much remains of the chip. -/
theorem run_remainingFrom_busy {k : Nat → Command α}
    (hk : ∀ n, (k n).run desk = pure (.error (.driver .busy), desk)) :
    (remainingFrom offset >>= k).run desk = pure (.error (refusal desk.flash offset), desk) := by
  by_cases h : desk.flash.remaining offset = 0
  · rw [refusal, if_pos h]
    exact run_bind_error (run_remainingFrom h)
  · rw [refusal, if_neg h, run_bind_ok (run_remainingFrom_ok h)]
    exact hk _

/-- **A reading command that is kept out** reads and writes nothing. -/
theorem run_read_busy (hopen : desk.flash.sessionOpen = true) (output : String)
    (offset : UInt64) (length : Option Nat) :
    (read output offset length).run desk = pure (.error (refusal desk.flash offset), desk) :=
  run_bind_error (run_remainingFrom_busy fun _ => run_withSession_busy hopen _ _)

theorem run_writeRange_busy (hopen : desk.flash.sessionOpen = true) (offset : UInt64)
    (data : Bytes) :
    (writeRange offset data).run desk = pure (.error (refusal desk.flash offset), desk) :=
  run_remainingFrom_busy fun _ => run_bind_error (run_withSession_busy hopen _ _)

/-- **A writing command that is kept out** has read its file and said so. -/
theorem run_write_busy (hopen : desk.flash.sessionOpen = true) {input : String}
    (hfile : desk.workspace.read input = .ok data) (offset : UInt64) (verified : Bool) :
    (write input offset verified).run desk =
      pure (.error (refusal desk.flash offset), { desk with
        printed := ("Read " ++ formatSize data.length ++ " from " ++ Text.Quoted.encode input ++
          "\n") :: desk.printed }) := by
  rw [write, run_bind_ok (run_readFile hfile), run_bind_ok (run_print _)]
  refine run_bind_error (run_writeRange_busy ?_ _ _)
  exact hopen

end Command

/-! ## Attaching -/

/-- No session is open on a flash that was just attached. -/
theorem Flash.closed_of_attach {tuning : Tuning} {s t : σ}
    (hattach : (Flash.attach tuning).run.run b s = (some (.ok f), t)) :
    f.controller.Fitted ∧ f.sessionOpen = false := by
  have hfresh : Attempt.Abides .lax (Flash.attach tuning) fun g =>
      g.controller.Fitted ∧ g.sessionOpen = false :=
    .bind (Controller.abides_attach tuning trivial trivial (.inl trivial))
      fun c hc => .pure ⟨hc.1, rfl⟩
  exact hfresh.of_run hattach f rfl

end NorFlash
