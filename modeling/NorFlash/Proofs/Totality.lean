import NorFlash.Proofs.BurstBounds
import NorFlash.Tool.Commands

/-!
# Totality — no operation fails a bounds check

Offsets are advanced by counts, buffers are cut and sums and differences are formed in
many loops, and each of these is a bounds check at which a procedure may stop. On every
block, whatever it answers, none of the checks fails: an offset is advanced only after
bytes went through on a slave that exists, and an attach succeeds only if a header, the
dummy bytes and some data fit the FIFO.
-/

namespace NorFlash

variable {α β σ : Type} {T : Terms} {v : Vendor} {f : Flash} {desk : Desk} {offset : UInt64}

/-! ## Terms that allow no failed check -/

/-- Any burst may be sent, but no bounds check may fail. -/
def Terms.strict : Terms where
  burst _ := True
  overrun := False

/-- **A procedure that abides by strict terms ends on every block.** -/
theorem Proc.Abides.ends {p : Proc α} {A : α → Prop} (h : p.Abides .strict A)
    (b : RegisterBlock σ) (s : σ) : p.Ends b s fun a _ => A a := by
  have hend := ((h []).obeys trivial b s).2
  rcases hrun : p.run b s with ⟨_ | a, t⟩
  · rw [hrun] at hend
    exact hend.elim
  · exact ⟨a, t, hrun, h.of_run hrun⟩

/-! ## Operations -/

namespace Operation

/-- The sum of header and dummy bytes fits a word, and no buffer is longer than half
of the address space. -/
def Sized : Operation → Prop
  | attach tuning => Opcode.headerLen + tuning.readDummyLen < wordLimit
  | command request => request.Sized
  | call request => request.Sized

/-- The flash, if there is one, has a fitted controller. -/
def Fitted (f : Option Flash) : Prop :=
  ∀ g, f = some g → g.controller.Fitted

theorem Fitted.none : Fitted none := nofun

theorem Fitted.some {g : Flash} (h : g.controller.Fitted) : Fitted (some g) := by
  rintro _ ⟨⟩
  exact h

/-- **Every operation leaves a fitted controller.** -/
theorem abides_fitted (hall : ∀ burst, T.burst burst) {op : Operation} {f : Option Flash}
    (hf : Fitted f) (hsized : T.overrun ∨ op.Sized) : (op.perform f).Abides T Fitted := by
  cases op with
  | attach tuning =>
    refine Proc.Abides.bind (Attempt.Abides.bind (Controller.abides_attach tuning (hall _)
      (hall _) hsized) fun c hc => .pure (A := fun g : Flash => g.controller.Fitted) hc.1)
      fun r hr => ?_
    cases r with
    | error e => exact .pure .none
    | ok g => exact .pure (.some (hr g rfl))
  | command request =>
    cases f with
    | none => exact .pure .none
    | some g =>
      have hg := (hf g rfl).within_of_all hall
      refine Proc.Abides.bind (FlashProc.Abides.onController (A := fun _ => True)
        (request.abides_perform hg hsized)) fun r hr => ?_
      exact .pure (.some hr.1.toFitted)
  | call request =>
    cases f with
    | none => exact .pure .none
    | some g =>
      have hg := (hf g rfl).within_of_all hall
      refine Proc.Abides.bind (request.abides_perform hg hsized) fun r hr => ?_
      exact .pure (.some hr.1.toFitted)

end Operation

/-- **Every flash that operations lead to has a fitted controller.** -/
theorem Course.fitted (b : RegisterBlock σ) (ops : List Operation) {t : Course σ}
    (h : Operation.Fitted t.flash) : Operation.Fitted (t.run b ops).flash := by
  induction ops generalizing t with
  | nil => exact h
  | cons op ops ih =>
    refine ih ?_
    have hop : (op.perform t.flash).Abides .lax Operation.Fitted :=
      Operation.abides_fitted (fun _ => trivial) h (.inl trivial)
    rw [Course.step]
    rcases hrun : (op.perform t.flash).run b t.state with ⟨_ | g, u⟩
    · exact .none
    · exact hop.of_run hrun

/-! ## Writing all of the data -/

namespace Session

variable {s : Session}

theorem abides_writeAllOn (hf : f.controller.Within T v) {fuel : Nat} {data : Bytes}
    (hfuel : data.length ≤ fuel) (hlen : T.overrun ∨ data.length ≤ signedLimit) :
    Abides T v (writeAllOn fuel data) s f fun _ _ => True := by
  induction fuel generalizing data s f with
  | zero =>
    obtain rfl : data = [] := List.eq_nil_of_length_eq_zero (by omega)
    exact .pure hf trivial
  | succ fuel ih =>
    cases data with
    | nil => exact .pure hf trivial
    | cons byte more =>
      refine .bind (abides_write hf hlen) fun r s f hf hr => ?_
      rcases r with e | n
      · exact .pure hf trivial
      · cases n with
        | zero => exact .pure hf trivial
        | succ n =>
          -- a byte was accepted, so the rest is shorter
          have hle := hr.1 (n + 1) rfl
          refine .bind_lift hf (.split (.inr hle)) fun parts f hf hparts => ?_
          have hsum := congrArg List.length hparts.1
          rw [List.length_append, hparts.2] at hsum
          exact ih hf (by omega) (hlen.imp_right fun h => by omega)

theorem abides_writeAll (hf : f.controller.Within T v) {data : Bytes}
    (hlen : T.overrun ∨ data.length ≤ signedLimit) :
    Abides T v (writeAll data) s f fun _ _ => True :=
  abides_writeAllOn hf (Nat.le_refl _) hlen

end Session

/-! ## Verifying -/

/-- The first difference lies inside both buffers, behind a common front. -/
theorem Bytes.mismatch?_eq_some {as bs : Bytes} {j : Nat} (h : mismatch? as bs = some j) :
    ∃ (ha : j < as.length) (hb : j < bs.length), as[j] ≠ bs[j] ∧ as.take j = bs.take j := by
  induction as generalizing bs j with
  | nil => cases bs <;> cases h
  | cons a as ih =>
    cases bs with
    | nil => cases h
    | cons b bs =>
      rw [mismatch?] at h
      by_cases heq : a = b
      · rw [if_pos heq] at h
        obtain ⟨k, hk, rfl⟩ := Option.map_eq_some_iff.mp h
        obtain ⟨ha, hb, hne, htake⟩ := ih hk
        exact ⟨Nat.succ_lt_succ ha, Nat.succ_lt_succ hb, hne, by simp [heq, htake]⟩
      · rw [if_neg heq] at h
        cases h
        exact ⟨Nat.succ_pos _, Nat.succ_pos _, heq, rfl⟩

/-- Buffers of one length that nowhere differ are the same. -/
theorem Bytes.mismatch?_eq_none {as bs : Bytes} (hlen : as.length = bs.length)
    (h : mismatch? as bs = none) : as = bs := by
  induction as generalizing bs with
  | nil => exact (List.eq_nil_of_length_eq_zero hlen.symm).symm
  | cons a as ih =>
    cases bs with
    | nil => cases hlen
    | cons b bs =>
      rw [mismatch?] at h
      by_cases heq : a = b
      · rw [if_pos heq, Option.map_eq_none_iff] at h
        rw [heq, ih (Nat.succ.inj hlen) h]
      · rw [if_neg heq] at h
        cases h

/-- A read that brought everything it was asked for addressed a slave that exists. -/
theorem Flash.abides_readAt_addressed (hf : f.controller.Within T v) (offset : UInt64) {len : Nat}
    (hpos : 0 < len) (hlen : T.overrun ∨ len ≤ signedLimit) :
    FlashProc.Abides T v (readAt offset len) f fun arrival =>
      arrival.outcome = .ok () → Addressed offset := by
  refine .bind_get ?_
  split
  · exact .pure hf nofun
  rename_i hleft
  refine .bind_get ?_
  have hmin : min len (f.remaining offset) = len := Nat.min_eq_left (Nat.not_lt.mp hleft)
  dsimp only
  rw [hmin, if_neg (Nat.ne_of_gt hpos)]
  refine .bind (.log hf) fun _ f hf _ => .onController ?_
  refine .bind (abides_prepare hf offset) fun r c hc hr => ?_
  cases r with
  | error e => exact .pure hc nofun
  | ok _ =>
    refine (abides_readPages hc (hr () rfl) [] (Nat.le_refl _) (hlen.imp_right fun h => ?_)).mono
      fun _ _ _ _ => hr () rfl
    omega

/-- From this desk the command abides by the terms and leaves a flash of the same
kind behind; `A` holds where it does not fail. -/
def Command.Abides (T : Terms) (v : Vendor) (x : Command α) (desk : Desk) (A : α → Prop) : Prop :=
  (x.run desk).Abides T fun r => r.2.flash.controller.Within T v ∧ ∀ a, r.1 = .ok a → A a

namespace Command

variable {x : Command α} {g : α → Command β} {A M : α → Prop} {B : β → Prop}

theorem Abides.pure {a : α} (hf : desk.flash.controller.Within T v) (h : A a) :
    Abides T v (Pure.pure a) desk A :=
  Proc.Abides.pure ⟨hf, fun _ ha => Except.ok.inj ha ▸ h⟩

theorem Abides.throw {e : ToolError} (hf : desk.flash.controller.Within T v) :
    Abides T v (MonadExcept.throw e : Command α) desk A :=
  Proc.Abides.pure ⟨hf, nofun⟩

theorem Abides.bind (hx : Abides T v x desk M)
    (hg : ∀ a desk, desk.flash.controller.Within T v → M a → Abides T v (g a) desk B) :
    Abides T v (x >>= g) desk B := by
  refine Proc.Abides.bind hx fun r hr => ?_
  obtain ⟨r, desk⟩ := r
  cases r with
  | ok a => exact hg a desk hr.1 (hr.2 a rfl)
  | error e => exact Proc.Abides.pure ⟨hr.1, nofun⟩

theorem Abides.lift {p : Proc α} (hf : desk.flash.controller.Within T v) (hp : p.Abides T A) :
    Abides T v (liftM p) desk A :=
  Proc.Abides.bind (Proc.Abides.bind hp fun _ h => Proc.Abides.pure
    (A := fun r : α × Desk => A r.1 ∧ r.2 = desk) ⟨h, rfl⟩) fun _ h =>
    Proc.Abides.pure ⟨h.2 ▸ hf, fun _ ha => Except.ok.inj ha ▸ h.1⟩

theorem Abides.onFlash {y : FlashProc α} (hy : FlashProc.Abides T v y desk.flash A) :
    Abides T v (onFlash y) desk A :=
  Proc.Abides.bind (Proc.Abides.bind hy fun _ h => Proc.Abides.pure
    (A := fun r : α × Desk => r.2.flash.controller.Within T v ∧ A r.1) h) fun _ h =>
    Proc.Abides.pure ⟨h.1, fun _ ha => Except.ok.inj ha ▸ h.2⟩

/-- Every piece after the first lies on a slave that answered. -/
theorem abides_verifyPieces (hf : desk.flash.controller.Within T v) {fuel k : Nat}
    {rest : Bytes} (hfuel : rest.length ≤ fuel)
    (hahead : T.overrun ∨ (rest ≠ [] → Ahead offset (k * pieceSize) ∧
      k * pieceSize + rest.length ≤ signedLimit)) :
    Abides T v (verifyPieces offset fuel k rest) desk fun _ => True := by
  induction fuel generalizing k rest desk with
  | zero =>
    obtain rfl : rest = [] := List.eq_nil_of_length_eq_zero (by omega)
    exact .pure hf trivial
  | succ fuel ih =>
    cases rest with
    | nil => exact .pure hf trivial
    | cons byte more =>
      have hahead := hahead.imp_right fun h => h (List.cons_ne_nil _ _)
      have hlong := hahead.imp_right fun h => Nat.le_trans (Nat.le_add_left _ _) h.2
      generalize hpiece : (byte :: more).take pieceSize = piece
      have hlen := congrArg List.length hpiece
      rw [List.length_take, List.length_cons] at hlen
      have hpos : 0 < piece.length := by
        rw [← hlen, pieceSize]
        omega
      rw [verifyPieces, hpiece]
      refine .bind (.lift hf (.count (hahead.imp_right fun h => ?_)))
        fun done desk hf hdone => ?_
      · exact lt_wordLimit_of_signed h.1.le
      rw [← hdone] at hahead
      refine .bind (.lift hf (.advance (hahead.imp_right fun h => h.1.lt)))
        fun position desk hf hposition => ?_
      refine .bind (.lift hf (.slice (.inr (by omega)))) fun len desk hf hlen' => ?_
      obtain rfl : len = piece.length := by omega
      refine .bind (.onFlash (Flash.abides_readAt_addressed hf position hpos
        (hlong.imp_right fun h => ?_))) fun arrival desk hf hr => ?_
      · rw [List.length_cons] at h
        omega
      obtain ⟨bytes, outcome⟩ := arrival
      cases outcome with
      | error e => exact .throw hf
      | ok _ =>
        have hslave : Addressed position := hr rfl
        dsimp only
        split
        · rename_i i hi
          obtain ⟨-, hi, -⟩ := Bytes.mismatch?_eq_some hi
          have hin : Ahead position i := by
            refine ⟨?_, .inr hslave⟩
            rw [signedLimit]
            rw [pieceSize] at hlen
            omega
          exact .bind (.lift hf (.advance (.inr hin.lt))) fun _ _ hf _ => .throw hf
        · refine ih hf ?_ (hahead.imp_right fun h hne => ?_)
          · rw [List.length_drop, List.length_cons, pieceSize]
            rw [List.length_cons] at hfuel
            omega
          · have hmore := List.length_pos_iff.mpr hne
            have hlimit := h.2
            rw [List.length_drop] at *
            have hoffset : Addressed offset := hslave.of_le (by omega)
            have hnext : (k + 1) * pieceSize = done + pieceSize := by
              rw [hdone, Nat.add_mul, Nat.one_mul]
            exact ⟨⟨by omega, .inr hoffset⟩, by omega⟩

end Command

/-! ## Calls of a driver -/

/-- Something that a user asks of the driver. -/
inductive DriverCall where
  | operation (op : Operation)
  | writeAll (s : Session) (data : Bytes)
  | verify (workspace : Workspace) (offset : UInt64) (expected : Bytes)

namespace DriverCall

/-- Carry out the call; without a flash only an attach does something. -/
def perform : DriverCall → Option Flash → Proc (Option Flash)
  | operation op, f => op.perform f
  | writeAll _ _, none | verify _ _ _, none => return none
  | writeAll s data, some f => do
    let (_, f) ← Session.writeAll data s f
    return some f
  | verify workspace offset expected, some flash => do
    let (_, desk) ← (Command.verify offset expected).run { flash, workspace }
    return some desk.flash

/-- Carry out calls one after the other. -/
def performAll : List DriverCall → Option Flash → Proc (Option Flash)
  | [], f => return f
  | call :: rest, f => do performAll rest (← call.perform f)

/-- No buffer is longer than half of the address space. -/
def Sized : DriverCall → Prop
  | operation op => op.Sized
  | writeAll _ data => data.length ≤ signedLimit
  | verify _ _ expected => expected.length ≤ signedLimit

open Operation (Fitted)

theorem abides_perform (hall : ∀ burst, T.burst burst) {call : DriverCall} {f : Option Flash}
    (hf : Fitted f) (hsized : T.overrun ∨ call.Sized) :
    (call.perform f).Abides T Fitted := by
  cases call with
  | operation op => exact Operation.abides_fitted hall hf hsized
  | writeAll s data =>
    cases f with
    | none => exact .pure .none
    | some g =>
      have hg := (hf g rfl).within_of_all hall
      exact .bind (Session.abides_writeAll hg hsized) fun r hr => .pure (.some hr.1.toFitted)
  | verify workspace offset expected =>
    cases f with
    | none => exact .pure .none
    | some g =>
      have hg := (hf g rfl).within_of_all hall
      have hverify : Command.Abides T g.controller.vendor (Command.verify offset expected)
          { flash := g, workspace } fun _ => True := by
        refine Command.abides_verifyPieces hg (Nat.le_refl _) (hsized.imp_right fun h _ => ?_)
        rw [Nat.zero_mul, Nat.zero_add]
        exact ⟨.start offset, h⟩
      exact .bind hverify fun r hr => .pure (.some hr.1.toFitted)

end DriverCall

end NorFlash
