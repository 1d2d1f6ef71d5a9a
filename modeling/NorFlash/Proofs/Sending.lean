import NorFlash.Proofs.Chronicle
import NorFlash.Proofs.Deliveries

/-!
# Sending — rules for what a run delivers

`Proc.Sends` says of every command that a run delivers what it is like. A
composed operation is taken apart at its first step, as for how it ends: what
the first step sends, how it ends, and what the rest sends from there. Steps
that write no control word that could start a burst are silent wherever they
run.
-/

namespace NorFlash

/-! ## Procedures that deliver nothing -/

/-- The procedure delivers nothing, wherever it runs. -/
def Proc.Silent {α : Type} (p : Proc α) : Prop :=
  ∀ e, p.deliveries e = []

namespace Proc.Silent

variable {α β : Type} {p : Proc α} {f : α → Proc β}

theorem pure (a : α) : (Pure.pure a : Proc α).Silent := fun _ => rfl

theorem bind (hp : p.Silent) (hf : ∀ a, (f a).Silent) : (p >>= f).Silent := by
  intro e
  rw [deliveries_bind, hp, List.nil_append]
  split
  · exact hf _ _
  · rfl

theorem status : Proc.status.Silent := fun _ => rfl

theorem control : Proc.control.Silent := fun _ => rfl

theorem log (m : Message) : (Proc.log m).Silent := fun _ => rfl

theorem pause (us : UInt32) : (Proc.pause us).Silent := fun _ => rfl

theorem giveWay : Proc.giveWay.Silent := fun _ => rfl

theorem checked (o : Option α) : (Proc.checked o).Silent := by
  intro e
  cases o <;> rfl

theorem count (n : Nat) : (Proc.count n).Silent := by
  intro e
  rw [Proc.count]
  split <;> rfl

theorem advance (p : UInt64) (n : Nat) : (Proc.advance p n).Silent := by
  intro e
  rw [Proc.advance]
  split <;> rfl

theorem store {r : Register} (hr : r ≠ .control) (v : UInt32) : (Proc.store r v).Silent := by
  intro e
  cases r with
  | control => exact absurd rfl hr
  | _ => rfl

/-- A control word that inhibits transfers. -/
theorem setControl {word : UInt32} (h : hasAll word Control.transInhibit = true) :
    (Proc.setControl word).Silent := by
  intro e
  rw [Proc.setControl, deliveries_store, Emulator.delivery?_inhibited h]
  rfl

/-- An attempt is silent if its steps are. -/
theorem bind_attempt {x : Attempt α} {f : α → Attempt β} (hx : x.run.Silent)
    (hf : ∀ a, (f a).run.Silent) : (x >>= f).run.Silent :=
  bind hx fun r => by
    cases r with
    | ok a => exact hf a
    | error e => exact pure _

theorem attempt (hp : p.Silent) : (liftM p : Attempt α).run.Silent :=
  bind hp fun _ => pure _

/-- An operation of the controller is silent if its steps are. -/
theorem bind_drive {x : Drive α} {f : α → Drive β} (hx : ∀ c, (x.run c).Silent)
    (hf : ∀ a c, ((f a).run c).Silent) (c : Controller) : ((x >>= f).run c).Silent :=
  bind (hx c) fun r => by
    obtain ⟨r, c'⟩ := r
    cases r with
    | ok a => exact hf a c'
    | error e => exact pure _

theorem drive (hp : p.Silent) (c : Controller) : ((liftM p : Drive α).run c).Silent :=
  bind (bind hp fun _ => pure _) fun _ => pure _

/-- An operation with a page buffer is silent if its steps are. -/
theorem bind_merge {x : Controller.Merge α} {f : α → Controller.Merge β}
    (hx : ∀ page c, (x.run page c).Silent) (hf : ∀ a page c, ((f a).run page c).Silent)
    (page : Bytes) (c : Controller) : ((x >>= f).run page c).Silent :=
  bind (hx page c) fun r => by
    obtain ⟨⟨r, page'⟩, c'⟩ := r
    cases r with
    | ok a => exact hf a page' c'
    | error e => exact pure _

theorem merge (hp : p.Silent) (page : Bytes) (c : Controller) :
    ((liftM p : Controller.Merge α).run page c).Silent :=
  bind (bind (bind hp fun _ => pure _) fun _ => pure _) fun _ => pure _

end Proc.Silent

/-- Looking, waiting and logging deliver nothing. -/
theorem Proc.Passive.silent {α : Type} {p : Proc α} (hp : p.Passive) : p.Silent := by
  intro e
  induction p generalizing e with
  | done a => rfl
  | trap | write _ _ _ => exact hp.elim
  | read _ _ ih => exact ih _ (hp _) _
  | delay _ _ ih | yield _ ih => exact ih () hp _
  | note _ _ ih => exact ih () hp.2 _

/-! ## What a run sends -/

/-- Every command that the run delivers is as `D` says. -/
def Proc.Sends {α : Type} (p : Proc α) (e : Emulator) (D : Delivery → Prop) : Prop :=
  ∀ d ∈ p.deliveries e, D d

section Rules

open Emulator (block)

variable {α β : Type} {e t : Emulator} {D : Delivery → Prop}

namespace Proc.Sends

variable {p : Proc α} {f : α → Proc β} {M : α → Emulator → Prop}

theorem of_silent (h : p.Silent) : p.Sends e D := by
  intro d hd
  rw [h e] at hd
  cases hd

theorem mono {D' : Delivery → Prop} (h : p.Sends e D) (hD : ∀ d, D d → D' d) : p.Sends e D' :=
  fun d hd => hD d (h d hd)

theorem pure {a : α} : (Pure.pure a : Proc α).Sends e D := of_silent (.pure a)

theorem bind (hp : p.Sends e D) (hends : p.Ends block e M)
    (hf : ∀ a t, M a t → (f a).Sends t D) : (p >>= f).Sends e D := by
  obtain ⟨a, t, hr, hm⟩ := hends
  intro d hd
  rw [deliveries_bind, hr] at hd
  rcases List.mem_append.mp hd with hd | hd
  · exact hp d hd
  · exact hf a t hm d hd

/-- What follows delivers nothing, however the first part ends. -/
theorem bind_silent (hp : p.Sends e D) (hf : ∀ a, (f a).Silent) : (p >>= f).Sends e D := by
  intro d hd
  rw [deliveries_bind] at hd
  rcases List.mem_append.mp hd with hd | hd
  · exact hp d hd
  · split at hd
    · rw [hf] at hd
      cases hd
    · cases hd

/-- A silent step whose run is known. -/
theorem step {a : α} (hp : p.Silent) (hr : p.run block e = (some a, t))
    (hf : (f a).Sends t D) : (p >>= f).Sends e D :=
  bind (M := fun a' t' => a' = a ∧ t' = t) (of_silent hp) ⟨a, t, hr, rfl, rfl⟩ fun _ _ h =>
    h.1 ▸ h.2 ▸ hf

theorem bind_state {κ : Type} {x : StateT κ Proc α} {f : α → StateT κ Proc β} {c : κ}
    {M : α × κ → Emulator → Prop} (hx : (x c).Sends e D) (hends : (x c).Ends block e M)
    (hf : ∀ a c' t, M (a, c') t → (f a c').Sends t D) : ((x >>= f) c).Sends e D :=
  bind hx hends fun r t h => hf r.1 r.2 t h

/-- A look at the state. -/
theorem bind_get_state {κ : Type} {f : κ → StateT κ Proc α} {c : κ} (hf : (f c c).Sends e D) :
    ((get >>= f) c).Sends e D :=
  hf

theorem step_state {κ : Type} {f : α → StateT κ Proc β} {c : κ} {a : α} (hp : p.Silent)
    (hr : p.run block e = (some a, t)) (hf : (f a c).Sends t D) :
    ((liftM p >>= f) c).Sends e D :=
  bind_state (x := liftM p) (M := fun r t' => r = (a, c) ∧ t' = t)
    (of_silent (.bind hp fun _ => .pure _)) (Ends.step hr (Ends.pure ⟨rfl, rfl⟩))
    fun _ _ _ h => by
      obtain ⟨h, rfl⟩ := h
      cases h
      exact hf

end Proc.Sends

/-- Every command that the attempt delivers is as `D` says. -/
def Attempt.Sends (x : Attempt α) (e : Emulator) (D : Delivery → Prop) : Prop :=
  x.run.Sends e D

namespace Attempt.Sends

variable {x : Attempt α} {f : α → Attempt β} {M : α → Emulator → Prop}
  {E : Error → Emulator → Prop}

theorem bind (hx : Attempt.Sends x e D) (hends : Attempt.Ends block x e M E)
    (hf : ∀ a t, M a t → Attempt.Sends (f a) t D) : Attempt.Sends (x >>= f) e D :=
  Proc.Sends.bind hx hends fun r t h => by
    cases r with
    | ok a => exact hf a t h
    | error error => exact Proc.Sends.pure

theorem lift {p : Proc α} (hp : p.Sends e D) : Attempt.Sends (liftM p) e D :=
  Proc.Sends.bind_silent hp fun _ => .pure _

theorem bind_lift {p : Proc α} (hp : p.Sends e D) (hends : p.Ends block e M)
    (hf : ∀ a t, M a t → Attempt.Sends (f a) t D) : Attempt.Sends (liftM p >>= f) e D :=
  bind (E := fun _ _ => False) (lift hp) (Attempt.Ends.lift hends) hf

theorem step {p : Proc α} {a : α} (hp : p.Silent) (hr : p.run block e = (some a, t))
    (hf : Attempt.Sends (f a) t D) : Attempt.Sends (liftM p >>= f) e D :=
  bind_lift (M := fun a' t' => a' = a ∧ t' = t) (.of_silent hp) ⟨a, t, hr, rfl, rfl⟩
    fun _ _ h => h.1 ▸ h.2 ▸ hf

theorem bind_silent (hx : Attempt.Sends x e D) (hf : ∀ a, (f a).run.Silent) :
    Attempt.Sends (x >>= f) e D :=
  Proc.Sends.bind_silent hx fun r => by
    cases r with
    | ok a => exact hf a
    | error error => exact .pure _

/-- A count that may trap. -/
theorem bind_count {n : Nat} {f : Nat → Attempt β}
    (hf : n < wordLimit → Attempt.Sends (f n) e D) :
    Attempt.Sends (liftM (Proc.count n) >>= f) e D := by
  by_cases h : n < wordLimit
  · exact step (.count n) (Proc.run_count h) (hf h)
  · rw [Proc.count, if_neg h]
    exact .of_silent fun _ => rfl

/-- A branch whose two sides come together in `y`. -/
theorem join {P : Prop} [Decidable P] {x y : Attempt β} {M : Emulator → Prop}
    (hskip : ¬ P → M e) (hy : ∀ t, M t → Attempt.Sends y t D)
    (hx : P → (∀ t, M t → Attempt.Sends y t D) → Attempt.Sends x e D) :
    Attempt.Sends (if P then x else y) e D := by
  by_cases h : P
  · rw [if_pos h]
    exact hx h hy
  · rw [if_neg h]
    exact hy e (hskip h)

end Attempt.Sends

/-- Every command that the operation delivers is as `D` says. -/
def Drive.Sends (x : Drive α) (c : Controller) (e : Emulator) (D : Delivery → Prop) : Prop :=
  (x.run c).Sends e D

namespace Drive.Sends

variable {c : Controller} {x : Drive α} {f : α → Drive β}
  {M : α → Controller → Emulator → Prop} {E : Error → Controller → Emulator → Prop}

theorem bind (hx : Drive.Sends x c e D) (hends : Drive.Ends block x c e M E)
    (hf : ∀ a c' t, M a c' t → Drive.Sends (f a) c' t D) : Drive.Sends (x >>= f) c e D :=
  Proc.Sends.bind hx hends fun r t h => by
    obtain ⟨r, c'⟩ := r
    cases r with
    | ok a => exact hf a c' t h
    | error error => exact Proc.Sends.pure

theorem bind_silent (hx : Drive.Sends x c e D) (hf : ∀ a c', ((f a).run c').Silent) :
    Drive.Sends (x >>= f) c e D :=
  Proc.Sends.bind_silent hx fun r => by
    obtain ⟨r, c'⟩ := r
    cases r with
    | ok a => exact hf a c'
    | error error => exact .pure _

theorem pure {a : α} : Drive.Sends (Pure.pure a) c e D := Proc.Sends.pure

theorem throw {error : Error} : Drive.Sends (MonadExcept.throw error : Drive α) c e D :=
  Proc.Sends.pure

theorem lift {p : Proc α} (hp : p.Sends e D) : Drive.Sends (liftM p) c e D :=
  Proc.Sends.bind_silent (Proc.Sends.bind_silent hp fun _ => .pure _) fun _ => .pure _

theorem attempt {y : Attempt α} (hy : Attempt.Sends y e D) : Drive.Sends (liftM y) c e D :=
  Proc.Sends.bind_silent hy fun r => by cases r <;> exact .pure _

theorem bind_lift {p : Proc α} {M : α → Emulator → Prop} (hp : p.Sends e D)
    (hends : p.Ends block e M) (hf : ∀ a t, M a t → Drive.Sends (f a) c t D) :
    Drive.Sends (liftM p >>= f) c e D :=
  bind (M := fun a c' t => M a t ∧ c' = c) (E := fun _ _ _ => False) (lift hp)
    (Drive.Ends.lift (hends.mono fun _ _ h => ⟨h, rfl⟩)) fun a _ t h => h.2 ▸ hf a t h.1

theorem step {p : Proc α} {a : α} (hp : p.Silent) (hr : p.run block e = (some a, t))
    (hf : Drive.Sends (f a) c t D) : Drive.Sends (liftM p >>= f) c e D :=
  bind_lift (M := fun a' t' => a' = a ∧ t' = t) (.of_silent hp) ⟨a, t, hr, rfl, rfl⟩
    fun _ _ h => h.1 ▸ h.2 ▸ hf

theorem bind_get {f : Controller → Drive β} (hf : Drive.Sends (f c) c e D) :
    Drive.Sends (get >>= f) c e D :=
  hf

theorem bind_set {c' : Controller} {f : PUnit → Drive β} (hf : Drive.Sends (f ⟨⟩) c' e D) :
    Drive.Sends (set c' >>= f) c e D :=
  hf

end Drive.Sends

namespace Controller

/-- Every command that the operation delivers is as `D` says. -/
def Merge.Sends (x : Merge α) (page : Bytes) (c : Controller) (e : Emulator)
    (D : Delivery → Prop) : Prop :=
  (x.run page c).Sends e D

namespace Merge.Sends

variable {page : Bytes} {c : Controller} {x : Merge α} {f : α → Merge β}
  {M : α → Bytes → Controller → Emulator → Prop} {E : Error → Bytes → Controller → Emulator → Prop}

theorem bind (hx : Merge.Sends x page c e D) (hends : Merge.Ends block x page c e M E)
    (hf : ∀ a p c' t, M a p c' t → Merge.Sends (f a) p c' t D) :
    Merge.Sends (x >>= f) page c e D :=
  Proc.Sends.bind hx hends fun r t h => by
    obtain ⟨⟨r, p⟩, c'⟩ := r
    cases r with
    | ok a => exact hf a p c' t h
    | error error => exact Proc.Sends.pure

theorem drive {y : Drive α} (hy : Drive.Sends y c e D) : Merge.Sends (liftM y) page c e D :=
  Proc.Sends.bind_silent hy fun r => by
    obtain ⟨r, c'⟩ := r
    cases r <;> exact .pure _

theorem bind_silent (hx : Merge.Sends x page c e D)
    (hf : ∀ a p c', ((f a).run p c').Silent) : Merge.Sends (x >>= f) page c e D :=
  Proc.Sends.bind_silent hx fun r => by
    obtain ⟨⟨r, p⟩, c'⟩ := r
    cases r with
    | ok a => exact hf a p c'
    | error error => exact .pure _

/-- A stateful step of the controller that cannot fail. -/
theorem state {y : StateT Controller Proc α} (hy : (y c).Sends e D) :
    Merge.Sends (liftM y) page c e D :=
  Proc.Sends.bind_silent (Proc.Sends.bind_silent hy fun _ => .pure _) fun _ => .pure _

/-- A silent step whose run is known. -/
theorem step {p : Proc α} {a : α} (hp : p.Silent) (hr : p.run block e = (some a, t))
    (hf : Merge.Sends (f a) page c t D) : Merge.Sends (liftM p >>= f) page c e D := by
  refine bind (M := fun a' p' c' t' => a' = a ∧ p' = page ∧ c' = c ∧ t' = t)
    (E := fun _ _ _ _ => False) ?_ ?_ ?_
  · exact .of_silent (.bind (.bind (.bind hp fun _ => .pure _) fun _ => .pure _) fun _ => .pure _)
  · exact Proc.Ends.bind (Proc.Ends.bind (Proc.Ends.step hr (Proc.Ends.pure ⟨rfl, rfl, rfl, rfl⟩))
      fun _ _ h => Proc.Ends.pure h) fun _ _ h => Proc.Ends.pure h
  · rintro _ _ _ _ ⟨rfl, rfl, rfl, rfl⟩
    exact hf

theorem bind_get {f : Bytes → Merge β} (hf : Merge.Sends (f page) page c e D) :
    Merge.Sends (get >>= f) page c e D :=
  hf

theorem bind_set {page' : Bytes} {f : PUnit → Merge β} (hf : Merge.Sends (f ⟨⟩) page' c e D) :
    Merge.Sends (set page' >>= f) page c e D :=
  hf

/-- A branch whose two sides come together in `y`. -/
theorem join {P : Prop} [Decidable P] {x y : Merge β} {M : Bytes → Controller → Emulator → Prop}
    (hskip : ¬ P → M page c e) (hy : ∀ p c' t, M p c' t → Merge.Sends y p c' t D)
    (hx : P → (∀ p c' t, M p c' t → Merge.Sends y p c' t D) → Merge.Sends x page c e D) :
    Merge.Sends (if P then x else y) page c e D := by
  by_cases h : P
  · rw [if_pos h]
    exact hx h hy
  · rw [if_neg h]
    exact hy page c e (hskip h)

end Merge.Sends

end Controller

end Rules

end NorFlash
