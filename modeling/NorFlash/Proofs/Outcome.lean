import NorFlash.Proofs.Checks

/-!
# Outcome — how procedures end on a block

`Proc.Ends` says that a procedure comes to an end on a block without a failed
bounds check, and what holds then. Operations that may fail have a condition
for each way to end: one for the value and one for the error. The rules below
take a composed operation apart at its first step.
-/

namespace NorFlash

variable {α β σ : Type} {b : RegisterBlock σ} {s : σ}

/-! ## Bounds checks that hold -/

namespace Proc

theorem run_checked {o : Option α} {a : α} (h : o = some a) :
    (checked o).run b s = (some a, s) := by
  subst h
  rfl

theorem run_count {n : Nat} (h : n < wordLimit) : (count n).run b s = (some n, s) := by
  rw [count, if_pos h]
  rfl

theorem run_advance {p : UInt64} {n : Nat} (h : p.toNat + n < wordLimit) :
    (advance p n).run b s = (some (UInt64.ofNat (p.toNat + n)), s) := by
  rw [advance, if_pos h]
  rfl

theorem run_slice {start stop size : Nat} (hstart : start ≤ stop) (hstop : stop ≤ size) :
    (slice start stop size).run b s = (some (stop - start), s) := by
  rw [slice_eq hstart hstop]
  rfl

theorem run_equal {n m : Nat} (h : n = m) : (equal n m).run b s = (some (), s) := by
  rw [equal_eq h]
  rfl

theorem run_split {n : Nat} {bytes : Bytes} (h : n ≤ bytes.length) :
    (split n bytes).run b s = (some (bytes.take n, bytes.drop n), s) := by
  rw [split_eq h]
  rfl

theorem run_overwrite {start : Nat} {new bytes : Bytes} (h : start + new.length ≤ bytes.length) :
    (overwrite start new bytes).run b s =
      (some (bytes.take start ++ new ++ bytes.drop (start + new.length)), s) := by
  have hs : Bytes.split? start bytes = some (bytes.take start, bytes.drop start) :=
    Bytes.split?_eq_some_iff.mpr
      ⟨(List.take_append_drop start bytes).symm, by rw [List.length_take]; omega⟩
  have hr : Bytes.split? new.length (bytes.drop start) =
      some ((bytes.drop start).take new.length, (bytes.drop start).drop new.length) :=
    Bytes.split?_eq_some_iff.mpr
      ⟨(List.take_append_drop _ _).symm, by rw [List.length_take, List.length_drop]; omega⟩
  refine run_checked ?_
  simp [Bytes.overwrite?, hs, hr]

end Proc

theorem Bytes.length_overwritten {start : Nat} {new bytes : Bytes}
    (h : start + new.length ≤ bytes.length) :
    (bytes.take start ++ new ++ bytes.drop (start + new.length)).length = bytes.length := by
  simp only [List.length_append, List.length_take, List.length_drop]
  omega

/-! ## Procedures -/

/-- On `b`, from `s`, the procedure ends in a value and a state with `A`. -/
def Proc.Ends (b : RegisterBlock σ) (p : Proc α) (s : σ) (A : α → σ → Prop) : Prop :=
  ∃ a t, p.run b s = (some a, t) ∧ A a t

namespace Proc.Ends

variable {p : Proc α} {f : α → Proc β} {A M : α → σ → Prop} {B : β → σ → Prop}

theorem mono (h : p.Ends b s M) (hm : ∀ a t, M a t → A a t) : p.Ends b s A := by
  obtain ⟨a, t, hr, ha⟩ := h
  exact ⟨a, t, hr, hm a t ha⟩

/-- What a run ended with is what the procedure ends with. -/
theorem of_run (h : p.Ends b s A) {a : α} {t : σ} (hr : p.run b s = (some a, t)) :
    A a t := by
  obtain ⟨a', t', hr', ha⟩ := h
  rw [hr] at hr'
  cases hr'
  exact ha

/-- There is one end: what is known of it in two ways holds together. -/
theorem and (h : p.Ends b s A) (h' : p.Ends b s M) : p.Ends b s fun a t => A a t ∧ M a t := by
  obtain ⟨a, t, hr, ha⟩ := h
  exact ⟨a, t, hr, ha, h'.of_run hr⟩

theorem pure {a : α} (h : A a s) : (Pure.pure a : Proc α).Ends b s A :=
  ⟨a, s, rfl, h⟩

theorem bind (hp : p.Ends b s M) (hf : ∀ a t, M a t → (f a).Ends b t B) :
    (p >>= f).Ends b s B := by
  obtain ⟨a, t, hr, ha⟩ := hp
  obtain ⟨v, u, hv, ho⟩ := hf a t ha
  refine ⟨v, u, ?_, ho⟩
  rw [Proc.bind_eq, run_bind, hr]
  exact hv

/-- A step whose run is known. -/
theorem step {a : α} {t : σ} (hr : p.run b s = (some a, t)) (hf : (f a).Ends b t B) :
    (p >>= f).Ends b s B :=
  bind (M := fun a' t' => a' = a ∧ t' = t) ⟨a, t, hr, rfl, rfl⟩ fun _ _ h =>
    h.1 ▸ h.2 ▸ hf

/-- A step of a stateful procedure. -/
theorem bind_state {κ : Type} {x : StateT κ Proc α} {f : α → StateT κ Proc β} {c : κ}
    {M : α × κ → σ → Prop} {B : β × κ → σ → Prop} (hx : (x c).Ends b s M)
    (hf : ∀ a c' t, M (a, c') t → (f a c').Ends b t B) : ((x >>= f) c).Ends b s B :=
  bind hx fun r t h => hf r.1 r.2 t h

/-- A step of a stateful procedure that does not use the state and whose run is
known. -/
theorem step_state {κ : Type} {f : α → StateT κ Proc β} {c : κ} {a : α} {t : σ}
    {B : β × κ → σ → Prop} (hr : p.run b s = (some a, t)) (hf : (f a c).Ends b t B) :
    ((liftM p >>= f) c).Ends b s B :=
  bind_state (x := liftM p) (M := fun r t' => r = (a, c) ∧ t' = t)
    (step hr (pure ⟨rfl, rfl⟩)) fun _ _ _ h => by
      obtain ⟨h, rfl⟩ := h
      cases h
      exact hf

/-- A look at the state. -/
theorem bind_get_state {κ : Type} {f : κ → StateT κ Proc α} {c : κ} {B : α × κ → σ → Prop}
    (hf : (f c c).Ends b s B) : ((get >>= f) c).Ends b s B :=
  hf

end Proc.Ends

/-! ## Attempts -/

/-- The attempt ends with `A`, or fails with `E`. -/
def Attempt.Ends (b : RegisterBlock σ) (x : Attempt α) (s : σ) (A : α → σ → Prop)
    (E : Error → σ → Prop) : Prop :=
  x.run.Ends b s fun r t =>
    match r with
    | .ok a => A a t
    | .error e => E e t

namespace Attempt.Ends

variable {x : Attempt α} {f : α → Attempt β} {A M : α → σ → Prop} {B : β → σ → Prop}
  {E D : Error → σ → Prop}

theorem mono (h : Attempt.Ends b x s M D) (hok : ∀ a t, M a t → A a t)
    (herr : ∀ e t, D e t → E e t) : Attempt.Ends b x s A E := by
  refine Proc.Ends.mono h fun r t => ?_
  cases r with
  | ok a => exact hok a t
  | error e => exact herr e t

theorem pure {a : α} (h : A a s) : Attempt.Ends b (Pure.pure a) s A E :=
  ⟨.ok a, s, rfl, h⟩

theorem throw {e : Error} (h : E e s) :
    Attempt.Ends b (MonadExcept.throw e : Attempt α) s A E :=
  ⟨.error e, s, rfl, h⟩

theorem bind (hx : Attempt.Ends b x s M D) (herr : ∀ e t, D e t → E e t)
    (hf : ∀ a t, M a t → Attempt.Ends b (f a) t B E) :
    Attempt.Ends b (x >>= f) s B E := by
  refine Proc.Ends.bind hx fun r t h => ?_
  cases r with
  | ok a => exact hf a t h
  | error e => exact Proc.Ends.pure (herr e t h)

theorem lift {p : Proc α} (hp : p.Ends b s A) : Attempt.Ends b (liftM p) s A E :=
  Proc.Ends.bind hp fun _ _ h => Proc.Ends.pure h

/-- A step that cannot fail. -/
theorem bind_lift {p : Proc α} (hp : p.Ends b s M)
    (hf : ∀ a t, M a t → Attempt.Ends b (f a) t B E) :
    Attempt.Ends b (liftM p >>= f) s B E :=
  bind (D := fun _ _ => False) (lift hp) (fun _ _ h => h.elim) hf

/-- A step whose run is known. -/
theorem step {p : Proc α} {a : α} {t : σ} (hr : p.run b s = (some a, t))
    (hf : Attempt.Ends b (f a) t B E) : Attempt.Ends b (liftM p >>= f) s B E :=
  bind_lift (M := fun a' t' => a' = a ∧ t' = t) ⟨a, t, hr, rfl, rfl⟩ fun _ _ h =>
    h.1 ▸ h.2 ▸ hf

/-- A branch whose two sides come together in `y`. -/
theorem join {P : Prop} [Decidable P] {x y : Attempt β} {M : σ → Prop} (hskip : ¬ P → M s)
    (hy : ∀ t, M t → Attempt.Ends b y t B E)
    (hx : P → (∀ t, M t → Attempt.Ends b y t B E) → Attempt.Ends b x s B E) :
    Attempt.Ends b (if P then x else y) s B E := by
  by_cases h : P
  · rw [if_pos h]
    exact hx h hy
  · rw [if_neg h]
    exact hy s (hskip h)

end Attempt.Ends

/-! ## Operations of a controller -/

/-- The operation ends with `A`, or fails with `E`; both see the controller
as it is left behind. -/
def Drive.Ends (b : RegisterBlock σ) (x : Drive α) (c : Controller) (s : σ)
    (A : α → Controller → σ → Prop) (E : Error → Controller → σ → Prop) : Prop :=
  (x.run c).Ends b s fun r t =>
    match r.1 with
    | .ok a => A a r.2 t
    | .error e => E e r.2 t

namespace Drive.Ends

variable {c : Controller} {x : Drive α} {f : α → Drive β}
  {A M : α → Controller → σ → Prop} {B : β → Controller → σ → Prop}
  {E D : Error → Controller → σ → Prop}

theorem mono (h : Drive.Ends b x c s M D) (hok : ∀ a c' t, M a c' t → A a c' t)
    (herr : ∀ e c' t, D e c' t → E e c' t) : Drive.Ends b x c s A E := by
  refine Proc.Ends.mono h fun r t => ?_
  obtain ⟨r, c'⟩ := r
  cases r with
  | ok a => exact hok a c' t
  | error e => exact herr e c' t

theorem and (h : Drive.Ends b x c s A E) (h' : Drive.Ends b x c s M D) :
    Drive.Ends b x c s (fun a c' t => A a c' t ∧ M a c' t) (fun e c' t => E e c' t ∧ D e c' t) := by
  refine (Proc.Ends.and h h').mono ?_
  intro r t hboth
  obtain ⟨error | a, c'⟩ := r
  · exact hboth
  · exact hboth

theorem pure {a : α} (h : A a c s) : Drive.Ends b (Pure.pure a) c s A E :=
  ⟨(.ok a, c), s, rfl, h⟩

theorem throw {e : Error} (h : E e c s) :
    Drive.Ends b (MonadExcept.throw e : Drive α) c s A E :=
  ⟨(.error e, c), s, rfl, h⟩

theorem bind (hx : Drive.Ends b x c s M D) (herr : ∀ e c' t, D e c' t → E e c' t)
    (hf : ∀ a c' t, M a c' t → Drive.Ends b (f a) c' t B E) :
    Drive.Ends b (x >>= f) c s B E := by
  refine Proc.Ends.bind hx fun r t h => ?_
  obtain ⟨r, c'⟩ := r
  cases r with
  | ok a => exact hf a c' t h
  | error e => exact Proc.Ends.pure (herr e c' t h)

/-- A step that talks to the block but not to the controller. -/
theorem lift {p : Proc α} (hp : p.Ends b s fun a t => A a c t) :
    Drive.Ends b (liftM p) c s A E :=
  Proc.Ends.bind (Proc.Ends.bind hp fun _ _ h => Proc.Ends.pure h) fun _ _ h =>
    Proc.Ends.pure h

/-- An attempt as a step. -/
theorem attempt {y : Attempt α}
    (hy : Attempt.Ends b y s (fun a t => A a c t) fun e t => E e c t) :
    Drive.Ends b (liftM y) c s A E :=
  Proc.Ends.bind hy fun r _ h => by cases r <;> exact Proc.Ends.pure h

theorem bind_attempt {y : Attempt α} {M : α → σ → Prop} {D : Error → σ → Prop}
    (hy : Attempt.Ends b y s M D) (herr : ∀ e t, D e t → E e c t)
    (hf : ∀ a t, M a t → Drive.Ends b (f a) c t B E) :
    Drive.Ends b (liftM y >>= f) c s B E := by
  refine bind (M := fun a c' t => c' = c ∧ M a t) (D := fun e c' t => c' = c ∧ D e t)
    (attempt (hy.mono (fun _ _ h => ⟨rfl, h⟩) fun _ _ h => ⟨rfl, h⟩)) ?_ ?_
  · intro e _ t hpost
    obtain ⟨rfl, h⟩ := hpost
    exact herr e t h
  · intro a _ t hpost
    obtain ⟨rfl, h⟩ := hpost
    exact hf a t h

theorem bind_lift {p : Proc α} {M : α → σ → Prop} (hp : p.Ends b s M)
    (hf : ∀ a t, M a t → Drive.Ends b (f a) c t B E) :
    Drive.Ends b (liftM p >>= f) c s B E :=
  bind (M := fun a c' t => M a t ∧ c' = c) (D := fun _ _ _ => False)
    (lift (hp.mono fun _ _ h => ⟨h, rfl⟩)) (fun _ _ _ h => h.elim)
    fun a _ t h => h.2 ▸ hf a t h.1

/-- A step whose run is known. -/
theorem step {p : Proc α} {a : α} {t : σ} (hr : p.run b s = (some a, t))
    (hf : Drive.Ends b (f a) c t B E) : Drive.Ends b (liftM p >>= f) c s B E :=
  bind_lift (M := fun a' t' => a' = a ∧ t' = t) ⟨a, t, hr, rfl, rfl⟩ fun _ _ h =>
    h.1 ▸ h.2 ▸ hf

/-- A look at the controller. -/
theorem bind_get {f : Controller → Drive β} (hf : Drive.Ends b (f c) c s B E) :
    Drive.Ends b (get >>= f) c s B E :=
  hf

/-- A replacement of the controller. -/
theorem bind_set {c' : Controller} {f : PUnit → Drive β}
    (hf : Drive.Ends b (f ⟨⟩) c' s B E) : Drive.Ends b (set c' >>= f) c s B E :=
  hf

theorem modify {g : Controller → Controller} {A : PUnit → Controller → σ → Prop}
    (h : A ⟨⟩ (g c) s) : Drive.Ends b (modify g) c s A E :=
  ⟨(.ok ⟨⟩, g c), s, rfl, h⟩

theorem set {c' : Controller} {A : PUnit → Controller → σ → Prop} (h : A ⟨⟩ c' s) :
    Drive.Ends b (MonadStateOf.set c') c s A E :=
  ⟨(.ok ⟨⟩, c'), s, rfl, h⟩

end Drive.Ends

/-! ## Operations with a page buffer -/

namespace Controller

/-- The operation ends with `A`, or fails with `E`; both see its page
buffer and the controller as they are left behind. -/
def Merge.Ends (b : RegisterBlock σ) (x : Merge α) (page : Bytes) (c : Controller) (s : σ)
    (A : α → Bytes → Controller → σ → Prop) (E : Error → Bytes → Controller → σ → Prop) :
    Prop :=
  (x.run page c).Ends b s fun r t =>
    match r.1.1 with
    | .ok a => A a r.1.2 r.2 t
    | .error e => E e r.1.2 r.2 t

namespace Merge.Ends

variable {page : Bytes} {c : Controller} {x : Merge α} {f : α → Merge β}
  {A M : α → Bytes → Controller → σ → Prop} {B : β → Bytes → Controller → σ → Prop}
  {E D : Error → Bytes → Controller → σ → Prop}

theorem mono (h : Merge.Ends b x page c s M D)
    (hok : ∀ a p c' t, M a p c' t → A a p c' t)
    (herr : ∀ e p c' t, D e p c' t → E e p c' t) : Merge.Ends b x page c s A E := by
  refine Proc.Ends.mono h fun r t => ?_
  obtain ⟨⟨r, p⟩, c'⟩ := r
  cases r with
  | ok a => exact hok a p c' t
  | error e => exact herr e p c' t

theorem and (h : Merge.Ends b x page c s A E) (h' : Merge.Ends b x page c s M D) :
    Merge.Ends b x page c s (fun a page' c' t => A a page' c' t ∧ M a page' c' t)
      (fun e page' c' t => E e page' c' t ∧ D e page' c' t) := by
  refine (Proc.Ends.and h h').mono ?_
  intro r t hboth
  obtain ⟨⟨error | a, page'⟩, c'⟩ := r
  · exact hboth
  · exact hboth

theorem pure {a : α} (h : A a page c s) : Merge.Ends b (Pure.pure a) page c s A E :=
  ⟨((.ok a, page), c), s, rfl, h⟩

theorem throw {e : Error} (h : E e page c s) :
    Merge.Ends b (MonadExcept.throw e : Merge α) page c s A E :=
  ⟨((.error e, page), c), s, rfl, h⟩

theorem bind (hx : Merge.Ends b x page c s M D)
    (herr : ∀ e p c' t, D e p c' t → E e p c' t)
    (hf : ∀ a p c' t, M a p c' t → Merge.Ends b (f a) p c' t B E) :
    Merge.Ends b (x >>= f) page c s B E := by
  refine Proc.Ends.bind hx fun r t h => ?_
  obtain ⟨⟨r, p⟩, c'⟩ := r
  cases r with
  | ok a => exact hf a p c' t h
  | error e => exact Proc.Ends.pure (herr e p c' t h)

/-- An operation of the controller as a step. -/
theorem drive {y : Drive α} (hy : Drive.Ends b y c s (fun a c' t => A a page c' t)
    fun e c' t => E e page c' t) : Merge.Ends b (liftM y) page c s A E :=
  Proc.Ends.bind hy fun r _ h => by
    obtain ⟨r, c'⟩ := r
    cases r <;> exact Proc.Ends.pure h

theorem bind_lift {p : Proc α} {M : α → σ → Prop} (hp : p.Ends b s M)
    (hf : ∀ a t, M a t → Merge.Ends b (f a) page c t B E) :
    Merge.Ends b (liftM p >>= f) page c s B E := by
  have hr : (liftM p : Merge α).run page c = p >>= fun a => Pure.pure ((.ok a, page), c) := by
    change ((p >>= _) >>= _) >>= _ = _
    simp only [bind_assoc]
    rfl
  refine bind (M := fun a p' c' t => M a t ∧ p' = page ∧ c' = c)
    (D := fun _ _ _ _ => False) ?_ (fun _ _ _ _ h => h.elim) ?_
  · rw [Merge.Ends, hr]
    exact Proc.Ends.bind hp fun _ _ h => Proc.Ends.pure ⟨h, rfl, rfl⟩
  · intro a _ _ t hpost
    obtain ⟨h, rfl, rfl⟩ := hpost
    exact hf a t h

/-- A step whose run is known. -/
theorem step {p : Proc α} {a : α} {t : σ} (hr : p.run b s = (some a, t))
    (hf : Merge.Ends b (f a) page c t B E) : Merge.Ends b (liftM p >>= f) page c s B E :=
  bind_lift (M := fun a' t' => a' = a ∧ t' = t) ⟨a, t, hr, rfl, rfl⟩ fun _ _ h =>
    h.1 ▸ h.2 ▸ hf

/-- A stateful step of the controller that cannot fail. -/
theorem bind_state {y : StateT Controller Proc α} {M : α × Controller → σ → Prop}
    (hy : (y c).Ends b s M)
    (hf : ∀ a c' t, M (a, c') t → Merge.Ends b (f a) page c' t B E) :
    Merge.Ends b (liftM y >>= f) page c s B E := by
  have hr : (liftM y : Merge α).run page c =
      y c >>= fun r => Pure.pure ((.ok r.1, page), r.2) := by
    change (y c >>= _) >>= _ = _
    simp only [bind_assoc]
    rfl
  refine bind (M := fun a p' c' t => M (a, c') t ∧ p' = page)
    (D := fun _ _ _ _ => False) ?_ (fun _ _ _ _ h => h.elim) ?_
  · rw [Merge.Ends, hr]
    exact Proc.Ends.bind hy fun _ _ h => Proc.Ends.pure ⟨h, rfl⟩
  · intro a _ c' t hpost
    obtain ⟨h, rfl⟩ := hpost
    exact hf a c' t h

/-- A look at the page buffer. -/
theorem bind_get {f : Bytes → Merge β} (hf : Merge.Ends b (f page) page c s B E) :
    Merge.Ends b (get >>= f) page c s B E :=
  hf

/-- A replacement of the page buffer. -/
theorem bind_set {page' : Bytes} {f : PUnit → Merge β}
    (hf : Merge.Ends b (f ⟨⟩) page' c s B E) :
    Merge.Ends b (set page' >>= f) page c s B E :=
  hf

/-- A branch whose two sides come together in `y`. -/
theorem join {P : Prop} [Decidable P] {x y : Merge β} {M : Bytes → Controller → σ → Prop}
    (hskip : ¬ P → M page c s)
    (hy : ∀ p c' t, M p c' t → Merge.Ends b y p c' t B E)
    (hx : P → (∀ p c' t, M p c' t → Merge.Ends b y p c' t B E) →
      Merge.Ends b x page c s B E) :
    Merge.Ends b (if P then x else y) page c s B E := by
  by_cases h : P
  · rw [if_pos h]
    exact hx h hy
  · rw [if_neg h]
    exact hy page c s (hskip h)

end Merge.Ends

end Controller

end NorFlash
