import NorFlash.Proofs.Coherence
import NorFlash.Proofs.Operations
import NorFlash.Proofs.Resting

/-!
# Commanding — controllers that a user commands directly

The commands of a controller take any offset and any sector, also those that no
chip has. As long as each command finds all chips ready, the controller stays
attached to its emulator through every one of them, however it ends.
-/

namespace NorFlash

open Emulator (block)

variable {α β : Type} {c c' : Controller} {e t : Emulator} {config : EmulatorConfig}
  {tuning : Tuning}

/-! ## Steps that leave the emulator alone -/

/-- A run that went through two parts came to the end of the first. -/
theorem Proc.some_of_run_bind {σ : Type} {b : RegisterBlock σ} {p : Proc α} {f : α → Proc β}
    {s u : σ} {r : β} (h : (p >>= f).run b s = (some r, u)) :
    ∃ a m, p.run b s = (some a, m) ∧ (f a).run b m = (some r, u) := by
  rw [Proc.bind_eq, Proc.run_bind] at h
  rcases hp : p.run b s with ⟨_ | a, m⟩
  · rw [hp] at h
    cases h
  · rw [hp] at h
    exact ⟨a, m, rfl, h⟩

/-- If the procedure comes to its end, the emulator is as before. -/
def Proc.Still (p : Proc α) : Prop :=
  ∀ e a t, p.run block e = (some a, t) → t = e

namespace Proc.Still

theorem checked (o : Option α) : (Proc.checked o).Still := by
  intro e a t h
  cases o <;> cases h
  rfl

theorem count (n : Nat) : (Proc.count n).Still := by
  intro e a t h
  rw [Proc.count] at h
  split at h <;> cases h
  rfl

theorem advance (p : UInt64) (n : Nat) : (Proc.advance p n).Still := by
  intro e a t h
  rw [Proc.advance] at h
  split at h <;> cases h
  rfl

theorem log (m : Message) : (Proc.log m).Still := by
  intro e a t h
  cases h
  rfl

theorem giveWay : Proc.giveWay.Still := by
  intro e a t h
  cases h
  rfl

end Proc.Still

/-! ## Operations on a controller at rest -/

namespace Controller

/-- On a controller at rest the operation, if it comes to its end, leaves one that is
attached, and that is at rest again if the answer is a `good` one. -/
def Settles (good : α → Prop) (x : StateT Controller Proc α) (c : Controller) : Prop :=
  ∀ e, Resting c e → ∀ r t, (x c).run block e = (some r, t) →
    Attached r.2 t ∧ (good r.1 → t.AllIdle)

namespace Settles

variable {good : α → Prop} {good' : β → Prop} {x : StateT Controller Proc α}
  {f : α → StateT Controller Proc β}

theorem of_ends (hx : ∀ e, Resting c e →
    (x c).Ends block e fun r t => Attached r.2 t ∧ (good r.1 → t.AllIdle)) : Settles good x c :=
  fun e h _ _ hrun => (hx e h).of_run hrun

theorem pure {a : α} : Settles good (Pure.pure a) c := by
  intro e h r t hrun
  cases hrun
  exact ⟨h.attached, fun _ => h.idle⟩

/-- A first part that leaves the controller at rest whatever it answers. -/
theorem bind (hx : Settles (fun _ => True) x c) (hf : ∀ a c', Settles good' (f a) c') :
    Settles good' (x >>= f) c := by
  intro e h r t hrun
  obtain ⟨a, m, hfirst, hrest⟩ := Proc.some_of_run_bind (p := x c) hrun
  obtain ⟨hattached, hidle⟩ := hx e h a m hfirst
  exact hf a.1 a.2 m ⟨hattached, hidle trivial⟩ r t hrest

theorem lift {p : Proc α} (hp : p.Still) : Settles good (liftM p) c := by
  intro e h r t hrun
  obtain ⟨a, m, hfirst, hrest⟩ := Proc.some_of_run_bind (p := p) hrun
  cases hrest
  rw [hp e a t hfirst]
  exact ⟨h.attached, fun _ => h.idle⟩

/-- An operation whose answer is dropped. -/
theorem drop (hx : Settles good x c) :
    Settles (fun _ => False) (x >>= fun _ => Pure.pure ()) c := by
  intro e h r t hrun
  obtain ⟨a, m, hfirst, hrest⟩ := Proc.some_of_run_bind (p := x c) hrun
  cases hrest
  exact ⟨(hx e h a t hfirst).1, nofun⟩

end Settles

end Controller

/-- The same of an operation that may fail; it does not have to leave the controller at
rest then. -/
def Drive.Settles (x : Drive α) (c : Controller) : Prop :=
  Controller.Settles (fun r => ∃ a, r = .ok a) x.run c

namespace Drive.Settles

variable {x : Drive α} {f : α → Drive β}

theorem of_ends (hx : ∀ e, Resting c e →
    Drive.Ends block x c e (fun _ c' t => Resting c' t) fun _ c' t => Attached c' t) :
    Drive.Settles x c := by
  refine Controller.Settles.of_ends fun e h => Proc.Ends.mono (hx e h) ?_
  intro r t hpost
  obtain ⟨error | a, c'⟩ := r
  · exact ⟨hpost, nofun⟩
  · exact ⟨hpost.attached, fun _ => hpost.idle⟩

theorem pure {a : α} : Drive.Settles (Pure.pure a) c := Controller.Settles.pure

theorem throw {error : Error} : Drive.Settles (MonadExcept.throw error : Drive α) c :=
  Controller.Settles.pure (a := Except.error error)

theorem bind (hx : Drive.Settles x c) (hf : ∀ a c', Drive.Settles (f a) c') :
    Drive.Settles (x >>= f) c := by
  intro e h r t hrun
  obtain ⟨⟨error | a, c'⟩, m, hfirst, hrest⟩ := Proc.some_of_run_bind (p := x.run c) hrun
  · cases hrest
    exact ⟨(hx e h _ _ hfirst).1, nofun⟩
  · obtain ⟨hattached, hidle⟩ := hx e h _ _ hfirst
    exact hf a c' m ⟨hattached, hidle ⟨a, rfl⟩⟩ r t hrest

theorem lift {p : Proc α} (hp : p.Still) : Drive.Settles (liftM p) c := by
  have hlift : Controller.Settles (fun _ => True) (liftM p : StateT Controller Proc α) c :=
    .lift hp
  intro e h r t hrun
  obtain ⟨a, m, hfirst, hrest⟩ := Proc.some_of_run_bind hrun
  cases hrest
  exact (hlift e h a t hfirst).imp_right fun hidle _ => hidle trivial

end Drive.Settles

namespace Controller

/-- The same of an operation with a page buffer. -/
def Merge.Settles (x : Merge α) (c : Controller) : Prop :=
  ∀ page, Controller.Settles (fun r => ∃ a, r.1 = .ok a) (x.run page) c

namespace Merge.Settles

variable {x : Merge α} {f : α → Merge β}

theorem pure {a : α} : Merge.Settles (Pure.pure a) c := fun _ => Controller.Settles.pure

theorem throw {error : Error} : Merge.Settles (MonadExcept.throw error : Merge α) c :=
  fun page => Controller.Settles.pure (a := (Except.error error, page))

theorem bind (hx : Merge.Settles x c) (hf : ∀ a c', Merge.Settles (f a) c') :
    Merge.Settles (x >>= f) c := by
  intro page e h r t hrun
  obtain ⟨⟨⟨error | a, page'⟩, c'⟩, m, hfirst, hrest⟩ :=
    Proc.some_of_run_bind (p := x.run page c) hrun
  · cases hrest
    exact ⟨(hx page e h _ _ hfirst).1, nofun⟩
  · obtain ⟨hattached, hidle⟩ := hx page e h _ _ hfirst
    exact hf a c' page' m ⟨hattached, hidle ⟨a, rfl⟩⟩ r t hrest

theorem drive {y : Drive α} (hy : Drive.Settles y c) : Merge.Settles (liftM y) c := by
  intro page e h r t hrun
  obtain ⟨⟨error | a, c'⟩, m, hfirst, hrest⟩ := Proc.some_of_run_bind (p := y.run c) hrun
  · cases hrest
    exact ⟨(hy e h _ _ hfirst).1, nofun⟩
  · cases hrest
    exact ⟨(hy e h _ _ hfirst).1, fun _ => (hy e h _ _ hfirst).2 ⟨a, rfl⟩⟩

theorem state {y : StateT Controller Proc α} (hy : Controller.Settles (fun _ => True) y c) :
    Merge.Settles (liftM y) c := by
  intro page e h r t hrun
  obtain ⟨a, m, hfirst, hrest⟩ := Proc.some_of_run_bind hrun
  cases hrest
  obtain ⟨a', m', hfirst', hrest'⟩ := Proc.some_of_run_bind (p := y c) hfirst
  cases hrest'
  exact (hy e h a' t hfirst').imp_right fun hidle _ => hidle trivial

theorem lift {p : Proc α} (hp : p.Still) : Merge.Settles (liftM p) c :=
  .state (y := liftM p) (.lift hp)

theorem bind_get {f : Bytes → Merge β} (hf : ∀ page, Merge.Settles (f page) c) :
    Merge.Settles (get >>= f) c :=
  fun page => hf page page

theorem bind_set {page : Bytes} {f : PUnit → Merge β} (hf : Merge.Settles (f ⟨⟩) c) :
    Merge.Settles (set page >>= f) c :=
  fun _ => hf page

/-- A branch whose two sides come together in `y`. -/
theorem join {P : Prop} [Decidable P] {y z : Merge β} (hy : ∀ c, Merge.Settles y c)
    (hz : (∀ c, Merge.Settles y c) → Merge.Settles z c) :
    Merge.Settles (if P then z else y) c := by
  split
  · exact hz hy
  · exact hy c

end Merge.Settles

/-! ## Bursts and loops -/

theorem settles_readChunk (offset : UInt64) (len : Nat) (c : Controller) :
    Settles (fun _ => True) (readChunk offset len).run c := by
  by_cases hfits : pageIndex offset + len < wordLimit
  case neg =>
    intro e h r t hrun
    rw [readChunk_overrun hfits] at hrun
    cases hrun
  refine .of_ends fun e h => Proc.Ends.mono (h.ends_readChunk offset hfits) ?_
  intro r t hpost
  obtain ⟨error | bytes, c'⟩ := r
  · exact ⟨hpost.resting.attached, fun _ => hpost.resting.idle⟩
  · exact ⟨hpost.1.attached, fun _ => hpost.1.idle⟩

theorem settles_writeChunk (offset : UInt64) (data : Bytes) (c : Controller) :
    Drive.Settles (writeChunk offset data) c :=
  .of_ends fun _ h => (h.ends_writeChunk offset data).mono (fun _ _ _ hpost => hpost.1)
    fun _ _ _ hpost => hpost.1

theorem settles_eraseUnit (offset : UInt64) (unit : EraseUnit) (c : Controller) :
    Drive.Settles (eraseUnit offset unit) c :=
  .of_ends fun _ h => h.ends_eraseUnit offset unit

theorem settles_readOn (offset : UInt64) (fuel left done : Nat) (got : Bytes) (c : Controller) :
    Settles (fun _ => True) (readOn offset fuel left done got) c := by
  induction fuel generalizing left done got c with
  | zero =>
    cases left with
    | zero => exact .pure
    | succ left => exact .lift (.checked none)
  | succ fuel ih =>
    cases left with
    | zero => exact .pure
    | succ left =>
      rw [readOn_succ]
      refine .bind (.lift (.advance _ _)) fun position c => .bind (.lift (.count _)) fun _ c => ?_
      refine .bind (settles_readChunk _ _ c) fun r c => ?_
      cases r with
      | error e => exact .pure
      | ok bytes => exact .bind (.lift (.count _)) fun _ c => ih _ _ _ c

theorem settles_bulkRead (offset : UInt64) (len : Nat) (c : Controller) :
    Settles (fun _ => True) (bulkRead offset len) c := by
  refine .bind (settles_readOn _ _ _ _ _ c) fun arrival c => ?_
  split
  · exact .pure
  · exact .bind (.lift .giveWay) fun _ _ => .pure

theorem settles_writeOn (offset : UInt64) (fuel done : Nat) (data : Bytes) (c : Controller) :
    Drive.Settles (writeOn offset fuel done data) c := by
  induction fuel generalizing done data c with
  | zero =>
    cases data with
    | nil => exact .pure
    | cons byte more => exact .lift (.checked none)
  | succ fuel ih =>
    cases data with
    | nil => exact .pure
    | cons byte more =>
      refine .bind (.lift (.advance _ _)) fun position c => ?_
      refine .bind (settles_writeChunk _ _ c) fun n c => ?_
      exact .bind (.lift (.checked _)) fun _ c => .bind (.lift (.count _)) fun _ c => ih _ _ c

theorem settles_bulkWrite (offset : UInt64) (data : Bytes) (c : Controller) :
    Drive.Settles (bulkWrite offset data) c :=
  .bind (settles_writeOn _ _ _ _ c) fun _ _ => .lift .giveWay

/-! ## Pages -/

theorem settles_erase (offset : UInt64) (size : Nat) (c : Controller) :
    Drive.Settles (erase offset size) c := by
  rw [erase]
  split
  · exact settles_eraseUnit _ _ c
  · exact .bind (.lift (.log _)) fun _ _ => .throw

theorem settles_rewriteUnit (offset : UInt64) (data : Bytes) (c : Controller) :
    Drive.Settles (rewriteUnit offset data) c := by
  rw [rewriteUnit]
  split
  · exact .pure
  · refine .bind (settles_eraseUnit _ _ c) fun _ c => .bind (.lift (.checked _)) fun _ c => ?_
    exact .bind (settles_bulkWrite _ _ c) fun _ _ => .pure

theorem settles_readInto (offset : UInt64) (start stop : Nat) (c : Controller) :
    Merge.Settles (readInto offset start stop) c := by
  refine .bind (.lift (.checked _)) fun len c => ?_
  refine .bind (.state (settles_bulkRead _ _ c)) fun arrival c => .bind_get fun page => ?_
  refine .bind (.lift (.checked _)) fun _ c => .bind_set ?_
  split
  · exact .pure
  · exact .throw

theorem settles_mergePage (offset : UInt64) (data : Bytes) (c : Controller) :
    Merge.Settles (mergePage offset data) c := by
  rw [mergePage_eq]
  split
  · exact .pure
  refine .join (fun c => .join (fun c => .bind_get fun page => ?_) fun hy => ?_) fun hy => ?_
  · refine .bind (.lift (.checked _)) fun _ c => .bind_set ?_
    refine .bind (.drive (settles_eraseUnit _ _ c)) fun _ c => .bind_get fun page => ?_
    exact .bind (.drive (settles_bulkWrite _ _ c)) fun _ _ => .pure
  · exact .bind (.lift (.advance _ _)) fun _ c =>
      .bind (settles_readInto _ _ _ c) fun _ c => hy c
  · exact .bind (settles_readInto _ _ _ c) fun _ c => hy c

theorem settles_programPage (offset : UInt64) (data : Bytes) (c : Controller) :
    Merge.Settles (programPage offset data) c := by
  refine .bind (.drive (settles_rewriteUnit _ _ c)) fun written c => ?_
  cases written with
  | some n => exact .pure
  | none => exact settles_mergePage _ _ c

end Controller

/-! ## Commands -/

/-- **Every command leaves the controller attached**, however it ends. -/
theorem ControllerCall.settles_perform (call : ControllerCall) (c : Controller) :
    Controller.Settles (fun _ => False) call.perform c := by
  cases call with
  | setActiveSlave slave =>
    refine .drop (Drive.Settles.of_ends fun e h =>
      (h.attached.ends_setActiveSlave slave).mono ?_ ?_)
    · intro _ c' t hpost
      obtain ⟨rfl, hkept, -⟩ := hpost
      exact ⟨hkept.attached, h.idle⟩
    · intro _ _ _ hpost
      obtain ⟨rfl, rfl, -⟩ := hpost
      exact h.attached
  | isReady =>
    refine .of_ends fun e h => ?_
    obtain ⟨i, hi⟩ := h.exists_active
    refine Proc.Ends.bind_get_state (Proc.Ends.bind_state (x := liftM c.bus.isReady)
      (M := fun r t => Attached r.2 t) (Proc.Ends.bind (h.attached.ends_isReady hi) ?_) ?_)
    · exact fun _ _ hchecked => Proc.Ends.pure hchecked.kept.attached
    · exact fun _ _ _ hattached => Proc.Ends.pure ⟨hattached, nofun⟩
  | waitUntilReady => exact .drop (Drive.Settles.of_ends fun _ h => h.ends_wait)
  | enableWrite =>
    exact .drop (Drive.Settles.of_ends fun _ h =>
      h.ends_enableWrite.mono (fun _ _ _ hrest => hrest) fun _ _ _ hrest => hrest.attached)
  | selectSector sector =>
    refine .drop (Drive.Settles.of_ends fun e h => ?_)
    obtain ⟨i, hi⟩ := h.exists_active
    exact (h.ends_selectSector hi sector).mono (fun _ _ _ hpost => hpost.1)
      fun _ _ _ hpost => hpost.1.resting.attached
  | buildHeader opcode a =>
    exact .drop (Drive.Settles.of_ends fun _ h => (h.ends_buildHeader opcode a).mono
      (fun _ _ _ hrest => hrest) fun _ _ _ hrest => hrest.attached)
  | readChunk offset len => exact .drop (Controller.settles_readChunk offset len c)
  | writeChunk offset data => exact .drop (Controller.settles_writeChunk offset data c)
  | bulkRead offset len => exact .drop (Controller.settles_bulkRead offset len c)
  | bulkWrite offset data => exact .drop (Controller.settles_bulkWrite offset data c)
  | erase offset size => exact .drop (Controller.settles_erase offset size c)
  | eraseUnit offset unit => exact .drop (Controller.settles_eraseUnit offset unit c)
  | rewriteUnit offset data => exact .drop (Controller.settles_rewriteUnit offset data c)
  | mergePage offset data page => exact .drop (Controller.settles_mergePage offset data c page)
  | programPage offset data page => exact .drop (Controller.settles_programPage offset data c page)

/-! ## Reachable controllers -/

/-- A controller on an emulator that commands and interference lead to, from an attach
to a prepared emulator on. Every command finds all chips ready. -/
inductive Commanded (config : EmulatorConfig) (tuning : Tuning) : Controller → Emulator → Prop where
  | attach {c : Controller} {e t : Emulator} (h : Emulator.Prepared config e)
    (hrun : (Controller.attach tuning).run.run block e = (some (.ok c), t)) :
    Commanded config tuning c t
  | handled {c : Controller} {e t : Emulator} (h : Commanded config tuning c e)
    (hh : Emulator.Handled e t) : Commanded config tuning c t
  | called {c c' : Controller} {e t : Emulator} (h : Commanded config tuning c e)
    (hidle : e.AllIdle) (call : ControllerCall)
    (hrun : (call.perform c).run block e = (some ((), c'), t)) : Commanded config tuning c' t

/-- **However a user commands a controller, it stays attached**, as long as each command
finds all chips ready. -/
theorem Commanded.attached (h : Commanded config tuning c e) : Attached c e := by
  induction h with
  | attach h hrun =>
    have hcount := Controller.count_lt_of_attach hrun
    have hengaged := Proc.Ends.of_run (h.fresh_and_config.1.ends_attach tuning hcount) hrun
    exact hengaged.ready.attached
  | handled _ hh ih => exact (hh.attached ih).1
  | called _ hidle call hrun ih => exact (call.settles_perform _ _ ⟨ih, hidle⟩ _ _ hrun).1

end NorFlash
