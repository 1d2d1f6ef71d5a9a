import NorFlash.Controller.Page
import NorFlash.Proofs.Terms

/-!
# Lockstep — two procedures that do the same

`Proc.Alike R` says that two procedures are the same tree but for the values at
its leaves, which are related by `R`. On every block and from every state such
procedures do the same deeds, end in the same state, and answer with related
values. Two controllers look alike if they differ in what is left in their
scratch buffers only.
-/

namespace NorFlash

variable {α β α' β' σ : Type}

/-! ## Procedures -/

/-- The procedures differ in the values they end in only, and these are related. -/
inductive Proc.Alike (R : α → α' → Prop) : Proc α → Proc α' → Prop where
  | done {a : α} {a' : α'} (h : R a a') : Alike R (.done a) (.done a')
  | trap : Alike R .trap .trap
  | read (r : Register) {next : UInt32 → Proc α} {next' : UInt32 → Proc α'}
    (h : ∀ v, Alike R (next v) (next' v)) : Alike R (.read r next) (.read r next')
  | write (r : Register) (v : UInt32) {next : Unit → Proc α} {next' : Unit → Proc α'}
    (h : Alike R (next ()) (next' ())) : Alike R (.write r v next) (.write r v next')
  | delay (us : UInt32) {next : Unit → Proc α} {next' : Unit → Proc α'}
    (h : Alike R (next ()) (next' ())) : Alike R (.delay us next) (.delay us next')
  | yield {next : Unit → Proc α} {next' : Unit → Proc α'}
    (h : Alike R (next ()) (next' ())) : Alike R (.yield next) (.yield next')
  | note (m : Message) {next : Unit → Proc α} {next' : Unit → Proc α'}
    (h : Alike R (next ()) (next' ())) : Alike R (.note m next) (.note m next')

/-- On a block, from a state, two procedures do the same deeds, end in the same
state, and answer with related values or fail the same bounds check. -/
structure SameRun (b : RegisterBlock σ) (s : σ) (R : α → α' → Prop) (p : Proc α) (p' : Proc α') :
    Prop where
  deeds : p.deeds b s = p'.deeds b s
  state : (p.run b s).2 = (p'.run b s).2
  answer : Option.Rel R (p.run b s).1 (p'.run b s).1

namespace Proc.Alike

variable {R M : α → α' → Prop} {S : β → β' → Prop} {p : Proc α} {p' : Proc α'}

theorem mono (h : Alike M p p') (hm : ∀ a a', M a a' → R a a') : Alike R p p' := by
  induction h with
  | done h => exact .done (hm _ _ h)
  | trap => exact .trap
  | read r _ ih => exact .read r ih
  | write r v _ ih => exact .write r v ih
  | delay us _ ih => exact .delay us ih
  | yield _ ih => exact .yield ih
  | note m _ ih => exact .note m ih

theorem pure {a : α} {a' : α'} (h : R a a') :
    Alike R (Pure.pure a : Proc α) (Pure.pure a' : Proc α') :=
  .done h

theorem bind {f : α → Proc β} {f' : α' → Proc β'} (hp : Alike M p p')
    (hf : ∀ a a', M a a' → Alike S (f a) (f' a')) : Alike S (p >>= f) (p' >>= f') := by
  rw [bind_eq, bind_eq]
  induction hp with
  | done h => exact hf _ _ h
  | trap => exact .trap
  | read r _ ih => exact .read r ih
  | write r v _ ih => exact .write r v ih
  | delay us _ ih => exact .delay us ih
  | yield _ ih => exact .yield ih
  | note m _ ih => exact .note m ih

/-- A procedure is alike itself, and what is known of its ends holds of both. -/
theorem refl_leads {A : α → Prop} {past : List Deed}
    (h : p.Leads Terms.lax.rule past fun a _ => A a) : Alike (fun a a' => a = a' ∧ A a) p p := by
  induction p generalizing past with
  | done a => exact .done ⟨rfl, h⟩
  | trap => exact .trap
  | read r _ ih => exact .read r fun v => ih v (h v).2
  | write r v _ ih => exact .write r v (ih () h.2)
  | delay us _ ih => exact .delay us (ih () h.2)
  | yield _ ih => exact .yield (ih () h.2)
  | note m _ ih => exact .note m (ih () h.2)

/-- A procedure is alike itself. -/
theorem refl (p : Proc α) : Alike Eq p p :=
  (refl_leads (p.abides_lax [])).mono fun _ _ h => h.1

/-- **Procedures that are alike run alike on every block.** -/
theorem sameRun (h : Alike R p p') (b : RegisterBlock σ) (s : σ) : SameRun b s R p p' := by
  induction h generalizing s with
  | done h => exact ⟨rfl, rfl, .some h⟩
  | trap => exact ⟨rfl, rfl, .none⟩
  | read r _ ih =>
    obtain ⟨hdeeds, hstate, hanswer⟩ := ih (b.read r.offset s).1
      (b.note (.registerRead r (b.read r.offset s).1) (b.read r.offset s).2)
    exact ⟨congrArg (· ++ _) hdeeds, hstate, hanswer⟩
  | write r v _ ih =>
    obtain ⟨hdeeds, hstate, hanswer⟩ := ih (b.write r.offset v (b.note (.registerWrite r v) s))
    exact ⟨congrArg (· ++ _) hdeeds, hstate, hanswer⟩
  | delay us _ ih =>
    obtain ⟨hdeeds, hstate, hanswer⟩ := ih (b.delay us s)
    exact ⟨congrArg (· ++ _) hdeeds, hstate, hanswer⟩
  | yield _ ih =>
    obtain ⟨hdeeds, hstate, hanswer⟩ := ih (b.yield s)
    exact ⟨congrArg (· ++ _) hdeeds, hstate, hanswer⟩
  | note m _ ih =>
    obtain ⟨hdeeds, hstate, hanswer⟩ := ih (b.note m s)
    exact ⟨congrArg (· ++ _) hdeeds, hstate, hanswer⟩

/-! ### Bounds checks -/

theorem checked {o : Option α} {o' : Option α'} (h : Option.Rel R o o') :
    Alike R (Proc.checked o) (Proc.checked o') := by
  cases h with
  | some h => exact .done h
  | none => exact .trap

/-- Slices of buffers that are equally long fit both or none. -/
theorem split (n : Nat) {bytes bytes' : Bytes} (hlen : bytes'.length = bytes.length) :
    Alike (fun r r' => (r.1 = bytes.take n ∧ r.2 = bytes.drop n ∧
        r'.1 = bytes'.take n ∧ r'.2 = bytes'.drop n) ∧ n ≤ bytes.length)
      (Proc.split n bytes) (Proc.split n bytes') := by
  refine checked ?_
  simp only [Bytes.split?, List.length_take, hlen]
  split
  · exact .some ⟨⟨rfl, rfl, rfl, rfl⟩, by omega⟩
  · exact .none

/-- The same new bytes fit both buffers or none. -/
theorem overwrite (start : Nat) (new : Bytes) {bytes bytes' : Bytes}
    (hlen : bytes'.length = bytes.length) :
    Alike (fun r r' => start + new.length ≤ bytes.length ∧
        r = bytes.take start ++ new ++ bytes.drop (start + new.length) ∧
        r' = bytes'.take start ++ new ++ bytes'.drop (start + new.length))
      (Proc.overwrite start new bytes) (Proc.overwrite start new bytes') := by
  refine checked ?_
  by_cases hfits : start + new.length ≤ bytes.length
  · rw [Bytes.overwrite?_eq_some_iff.mpr ⟨hfits, rfl⟩,
      Bytes.overwrite?_eq_some_iff.mpr ⟨hlen ▸ hfits, rfl⟩]
    exact .some ⟨hfits, rfl, rfl⟩
  · have hnone : ∀ {bytes : Bytes}, ¬ start + new.length ≤ bytes.length →
        Bytes.overwrite? start new bytes = none := fun h =>
      Option.eq_none_iff_forall_ne_some.mpr fun _ heq =>
        h (Bytes.overwrite?_eq_some_iff.mp heq).1
    rw [hnone hfits, hnone (hlen ▸ hfits)]
    exact .none

end Proc.Alike

/-! ## Controllers -/

/-- The controllers are the same but for what is left in their scratch buffers. -/
def Controller.Alike (c c' : Controller) : Prop :=
  ∃ scratch, scratch.length = c.scratch.length ∧ c' = { c with scratch }

namespace Controller

/-- From controllers that look alike the operations do the same and give the same
answer. They leave controllers that look alike, and `A` holds. -/
def Lockstep (x x' : StateT Controller Proc α) (c c' : Controller)
    (A : α → Controller → Controller → Prop) : Prop :=
  (x c).Alike (fun r r' => r.1 = r'.1 ∧ r.2.Alike r'.2 ∧ A r.1 r.2 r'.2) (x' c')

namespace Lockstep

variable {x x' : StateT Controller Proc α} {f f' : α → StateT Controller Proc β}
  {c c' : Controller} {A M : α → Controller → Controller → Prop}
  {B : β → Controller → Controller → Prop}

theorem mono (h : Lockstep x x' c c' M) (hm : ∀ a c c', M a c c' → A a c c') :
    Lockstep x x' c c' A :=
  Proc.Alike.mono h fun r r' hr => ⟨hr.1, hr.2.1, hm r.1 r.2 r'.2 hr.2.2⟩

theorem pure {a : α} (hc : c.Alike c') (h : A a c c') :
    Lockstep (Pure.pure a) (Pure.pure a) c c' A :=
  Proc.Alike.pure ⟨rfl, hc, h⟩

theorem bind (hx : Lockstep x x' c c' M)
    (hf : ∀ a c c', c.Alike c' → M a c c' → Lockstep (f a) (f' a) c c' B) :
    Lockstep (x >>= f) (x' >>= f') c c' B := by
  refine Proc.Alike.bind hx ?_
  rintro ⟨a, c⟩ ⟨_, c'⟩ ⟨rfl, hc, h⟩
  exact hf a c c' hc h

/-- A step that does not use the controller. -/
theorem bind_lift {p : Proc α} (hf : ∀ a, Lockstep (f a) (f' a) c c' B) :
    Lockstep (liftM p >>= f) (liftM p >>= f') c c' B := by
  refine Proc.Alike.bind (M := fun r r' => r.1 = r'.1 ∧ r.2 = c ∧ r'.2 = c') ?_ ?_
  · refine Proc.Alike.bind (.refl p) ?_
    rintro a _ rfl
    exact .pure ⟨rfl, rfl, rfl⟩
  · rintro ⟨a, _⟩ ⟨_, _⟩ ⟨rfl, rfl, rfl⟩
    exact hf a

end Lockstep

end Controller

/-- The same of operations that may fail; `A` holds where they do not. -/
def Drive.Lockstep (x x' : Drive α) (c c' : Controller)
    (A : α → Controller → Controller → Prop) : Prop :=
  Controller.Lockstep x.run x'.run c c' fun r c c' => ∀ a, r = .ok a → A a c c'

namespace Drive.Lockstep

variable {x x' : Drive α} {f f' : α → Drive β} {c c' : Controller}
  {A M : α → Controller → Controller → Prop} {B : β → Controller → Controller → Prop}

theorem mono (h : Drive.Lockstep x x' c c' M) (hm : ∀ a c c', M a c c' → A a c c') :
    Drive.Lockstep x x' c c' A :=
  Controller.Lockstep.mono h fun _ c c' hr a ha => hm a c c' (hr a ha)

theorem pure {a : α} (hc : c.Alike c') (h : A a c c') :
    Drive.Lockstep (Pure.pure a) (Pure.pure a) c c' A := by
  refine Controller.Lockstep.pure hc ?_
  rintro _ ⟨⟩
  exact h

theorem throw {error : Error} (hc : c.Alike c') :
    Drive.Lockstep (MonadExcept.throw error : Drive α) (MonadExcept.throw error) c c' A :=
  Controller.Lockstep.pure hc nofun

theorem bind (hx : Drive.Lockstep x x' c c' M)
    (hf : ∀ a c c', c.Alike c' → M a c c' → Drive.Lockstep (f a) (f' a) c c' B) :
    Drive.Lockstep (x >>= f) (x' >>= f') c c' B := by
  refine Controller.Lockstep.bind hx fun r c c' hc hr => ?_
  cases r with
  | ok a => exact hf a c c' hc (hr a rfl)
  | error error => exact throw hc

/-- Steps that do not use the controller. -/
theorem bind_alike {p : Proc α} {p' : Proc α'} {f' : α' → Drive β} {M : α → α' → Prop}
    (hp : p.Alike M p') (hf : ∀ a a', M a a' → Drive.Lockstep (f a) (f' a') c c' B) :
    Drive.Lockstep (liftM p >>= f) (liftM p' >>= f') c c' B := by
  refine Proc.Alike.bind (M := fun (r : Except Error α × Controller)
    (r' : Except Error α' × Controller) =>
      ∃ a a', r = (.ok a, c) ∧ r' = (.ok a', c') ∧ M a a') ?_ ?_
  · refine Proc.Alike.bind (M := fun r r' => r.2 = c ∧ r'.2 = c' ∧ M r.1 r'.1) ?_ ?_
    · exact Proc.Alike.bind hp fun _ _ h => .pure ⟨rfl, rfl, h⟩
    · rintro ⟨a, _⟩ ⟨a', _⟩ ⟨rfl, rfl, h⟩
      exact .pure ⟨a, a', rfl, rfl, h⟩
  · rintro _ _ ⟨a, a', rfl, rfl, h⟩
    exact hf a a' h

theorem bind_lift {p : Proc α} (hf : ∀ a, Drive.Lockstep (f a) (f' a) c c' B) :
    Drive.Lockstep (liftM p >>= f) (liftM p >>= f') c c' B := by
  refine bind_alike (.refl p) ?_
  rintro a _ rfl
  exact hf a

/-- A step of which something is known. -/
theorem bind_abides {p : Proc α} {P : α → Prop} (hp : p.Abides .lax P)
    (hf : ∀ a, P a → Drive.Lockstep (f a) (f' a) c c' B) :
    Drive.Lockstep (liftM p >>= f) (liftM p >>= f') c c' B := by
  refine bind_alike (.refl_leads (hp [])) ?_
  rintro a _ ⟨rfl, ha⟩
  exact hf a ha

/-- An attempt of the bus. -/
theorem attempt {y : Attempt α} (hc : c.Alike c') :
    Drive.Lockstep (liftM y) (liftM y) c c' fun _ d d' => d = c ∧ d' = c' := by
  refine Proc.Alike.bind (.refl y.run) ?_
  rintro r _ rfl
  exact .pure ⟨rfl, hc, fun _ _ => ⟨rfl, rfl⟩⟩

theorem bind_get {f f' : Controller → Drive β} (hf : Drive.Lockstep (f c) (f' c') c c' B) :
    Drive.Lockstep (get >>= f) (get >>= f') c c' B :=
  hf

theorem bind_set {d d' : Controller} {f f' : PUnit → Drive β}
    (hf : Drive.Lockstep (f ⟨⟩) (f' ⟨⟩) d d' B) :
    Drive.Lockstep (set d >>= f) (set d' >>= f') c c' B :=
  hf

theorem set {d d' : Controller} {A : PUnit → Controller → Controller → Prop} (hd : d.Alike d')
    (h : A ⟨⟩ d d') : Drive.Lockstep (MonadStateOf.set d) (MonadStateOf.set d') c c' A := by
  refine .done ⟨rfl, hd, ?_⟩
  rintro _ ⟨⟩
  exact h

end Drive.Lockstep

/-! ## Page buffers -/

namespace Controller

variable {c c' : Controller}

/-- From controllers that look alike and page buffers as long as a page, whatever
they hold, the operations do the same and give the same answer; `A` holds of the
page buffers where it is no error. -/
def Merge.Lockstep (x x' : Merge α) (page page' : Bytes) (c c' : Controller)
    (A : α → Bytes → Bytes → Prop) : Prop :=
  (x.run page c).Alike (fun r r' => r.1.1 = r'.1.1 ∧ r.2.Alike r'.2 ∧
    (r.1.2.length = pageSize ∧ r'.1.2.length = pageSize) ∧
    ∀ a, r.1.1 = .ok a → A a r.1.2 r'.1.2) (x'.run page' c')

namespace Merge.Lockstep

variable {x x' : Merge α} {f f' : α → Merge β} {page page' : Bytes}
  {A M : α → Bytes → Bytes → Prop} {B : β → Bytes → Bytes → Prop}

theorem mono (h : Merge.Lockstep x x' page page' c c' M)
    (hm : ∀ a page page', M a page page' → A a page page') :
    Merge.Lockstep x x' page page' c c' A :=
  Proc.Alike.mono h fun _ _ hr =>
    ⟨hr.1, hr.2.1, hr.2.2.1, fun a ha => hm a _ _ (hr.2.2.2 a ha)⟩

section Ends

variable (hc : c.Alike c') (hpage : page.length = pageSize) (hpage' : page'.length = pageSize)
include hc hpage hpage'

theorem pure {a : α} (h : A a page page') :
    Merge.Lockstep (Pure.pure a) (Pure.pure a) page page' c c' A := by
  refine Proc.Alike.pure ⟨rfl, hc, ⟨hpage, hpage'⟩, ?_⟩
  rintro _ ⟨⟩
  exact h

theorem throw {error : Error} :
    Merge.Lockstep (MonadExcept.throw error : Merge α) (MonadExcept.throw error)
      page page' c c' A :=
  Proc.Alike.pure ⟨rfl, hc, ⟨hpage, hpage'⟩, nofun⟩

end Ends

theorem bind (hx : Merge.Lockstep x x' page page' c c' M)
    (hf : ∀ a page page' c c', c.Alike c' → page.length = pageSize → page'.length = pageSize →
      M a page page' → Merge.Lockstep (f a) (f' a) page page' c c' B) :
    Merge.Lockstep (x >>= f) (x' >>= f') page page' c c' B := by
  refine Proc.Alike.bind hx ?_
  rintro ⟨⟨r, page⟩, c⟩ ⟨⟨_, page'⟩, c'⟩ ⟨rfl, hc, ⟨hpage, hpage'⟩, h⟩
  cases r with
  | ok a => exact hf a page page' c c' hc hpage hpage' (h a rfl)
  | error error => exact throw hc hpage hpage'

/-- A step of the controller that cannot fail. -/
theorem bind_state {y y' : StateT Controller Proc α} {M : α → Controller → Controller → Prop}
    (hy : Controller.Lockstep y y' c c' M)
    (hf : ∀ a c c', c.Alike c' → M a c c' → Merge.Lockstep (f a) (f' a) page page' c c' B) :
    Merge.Lockstep (liftM y >>= f) (liftM y' >>= f') page page' c c' B := by
  refine Proc.Alike.bind (M := fun r r' => ∃ a, r.1 = (.ok a, page) ∧ r'.1 = (.ok a, page') ∧
    r.2.Alike r'.2 ∧ M a r.2 r'.2) ?_ ?_
  · refine Proc.Alike.bind (M := fun r r' => r.1.2 = page ∧ r'.1.2 = page' ∧ r.1.1 = r'.1.1 ∧
      r.2.Alike r'.2 ∧ M r.1.1 r.2 r'.2) ?_ ?_
    · exact Proc.Alike.bind hy fun _ _ h => .pure ⟨rfl, rfl, h⟩
    · rintro ⟨⟨a, _⟩, c⟩ ⟨⟨_, _⟩, c'⟩ ⟨rfl, rfl, rfl, h⟩
      exact .pure ⟨a, rfl, rfl, h⟩
  · rintro ⟨_, c⟩ ⟨_, c'⟩ ⟨a, rfl, rfl, hc, h⟩
    exact hf a c c' hc h

/-- An operation of the controller. -/
theorem drive {y y' : Drive α} {M : α → Controller → Controller → Prop}
    (hy : Drive.Lockstep y y' c c' M) (hpage : page.length = pageSize)
    (hpage' : page'.length = pageSize) :
    Merge.Lockstep (liftM y) (liftM y') page page' c c' fun _ d d' => d = page ∧ d' = page' := by
  refine Proc.Alike.bind hy ?_
  rintro ⟨r, c⟩ ⟨_, c'⟩ ⟨rfl, hc, h⟩
  cases r with
  | ok a => exact Proc.Alike.pure ⟨rfl, hc, ⟨hpage, hpage'⟩, fun _ _ => ⟨rfl, rfl⟩⟩
  | error error => exact Proc.Alike.pure ⟨rfl, hc, ⟨hpage, hpage'⟩, nofun⟩

/-- Steps that do not use the controller. -/
theorem bind_alike {α' : Type} {p : Proc α} {p' : Proc α'} {f' : α' → Merge β} {M : α → α' → Prop}
    (hp : p.Alike M p')
    (hf : ∀ a a', M a a' → Merge.Lockstep (f a) (f' a') page page' c c' B) :
    Merge.Lockstep (liftM p >>= f) (liftM p' >>= f') page page' c c' B := by
  refine Proc.Alike.bind (M := fun (r : (Except Error α × Bytes) × Controller)
    (r' : (Except Error α' × Bytes) × Controller) =>
      ∃ a a', r = ((.ok a, page), c) ∧ r' = ((.ok a', page'), c') ∧ M a a') ?_ ?_
  · refine Proc.Alike.bind (M := fun r r' => ∃ a a', r = ((a, page), c) ∧ r' = ((a', page'), c') ∧
      M a a') ?_ ?_
    · refine Proc.Alike.bind (M := fun r r' => ∃ a a', r = (a, c) ∧ r' = (a', c') ∧ M a a') ?_ ?_
      · exact Proc.Alike.bind hp fun a a' h => .pure ⟨a, a', rfl, rfl, h⟩
      · rintro _ _ ⟨a, a', rfl, rfl, h⟩
        exact .pure ⟨a, a', rfl, rfl, h⟩
    · rintro _ _ ⟨a, a', rfl, rfl, h⟩
      exact .pure ⟨a, a', rfl, rfl, h⟩
  · rintro _ _ ⟨a, a', rfl, rfl, h⟩
    exact hf a a' h

theorem bind_get {f f' : Bytes → Merge β}
    (hf : Merge.Lockstep (f page) (f' page') page page' c c' B) :
    Merge.Lockstep (get >>= f) (get >>= f') page page' c c' B :=
  hf

theorem bind_set {d d' : Bytes} {f f' : PUnit → Merge β}
    (hf : Merge.Lockstep (f ⟨⟩) (f' ⟨⟩) d d' c c' B) :
    Merge.Lockstep (set d >>= f) (set d' >>= f') page page' c c' B :=
  hf

/-- A branch whose two sides come together in `y`. -/
theorem join {P : Prop} [Decidable P] {x y : Merge β} {J : Bytes → Bytes → Prop}
    (hc : c.Alike c') (hpage : page.length = pageSize) (hpage' : page'.length = pageSize)
    (hskip : ¬ P → J page page')
    (hy : ∀ page page' c c', c.Alike c' → page.length = pageSize → page'.length = pageSize →
      J page page' → Merge.Lockstep y y page page' c c' B)
    (hx : P → (∀ page page' c c', c.Alike c' → page.length = pageSize →
      page'.length = pageSize → J page page' → Merge.Lockstep y y page page' c c' B) →
      Merge.Lockstep x x page page' c c' B) :
    Merge.Lockstep (if P then x else y) (if P then x else y) page page' c c' B := by
  by_cases h : P
  · rw [if_pos h]
    exact hx h hy
  · rw [if_neg h]
    exact hy page page' c c' hc hpage hpage' (hskip h)

end Merge.Lockstep

end Controller

end NorFlash
