import NorFlash.Proofs.FlatSpace
import NorFlash.Session

/-!
# Sessions — calls on an open session

A session call is a read or a write of the flash at the session's position,
which it moves on by the bytes that went through. No position that a call
leaves behind is beyond 64 bits.
-/

namespace NorFlash

variable {α β σ : Type} {b : RegisterBlock σ} {st : σ}
variable {c c' : Controller} {e m t : Emulator} {i : Fin maxSlaves} {p : UInt64} {a n : Nat}
  {data : Bytes} {f : Flash} {s : Session}

/-! ## Calls as procedures -/

/-- An operation of the flash as a step of a call. -/
theorem Proc.Ends.bind_flash {x : FlashProc α} {g : α → Session.Call β}
    {M : α × Flash → σ → Prop} {B : (β × Session) × Flash → σ → Prop}
    (hx : (x f).Ends b st M)
    (hg : ∀ v f' u, M (v, f') u → (g v s f').Ends b u B) :
    ((liftM x >>= g) s f).Ends b st B :=
  Proc.Ends.bind (M := fun r u => M (r.1.1, r.2) u ∧ r.1.2 = s)
    (Proc.Ends.bind hx fun _ _ hv => Proc.Ends.pure ⟨hv, rfl⟩) fun r u hr => by
      obtain ⟨⟨v, s'⟩, f'⟩ := r
      obtain ⟨hv, rfl⟩ := hr
      exact hg v f' u hv

/-- A step of a call. -/
theorem Proc.Ends.bind_call {x : Session.Call α} {g : α → Session.Call β}
    {M : (α × Session) × Flash → σ → Prop} {B : (β × Session) × Flash → σ → Prop}
    (hx : (x s f).Ends b st M)
    (hg : ∀ v s' f' u, M ((v, s'), f') u → (g v s' f').Ends b u B) :
    ((x >>= g) s f).Ends b st B :=
  Proc.Ends.bind hx fun r u hr => hg r.1.1 r.1.2 r.2 u hr

/-- A step of a call that uses neither the session nor the flash and whose run
is known. -/
theorem Proc.Ends.step_call {x : Proc α} {g : α → Session.Call β} {v : α} {u : σ}
    {B : (β × Session) × Flash → σ → Prop} (hx : x.run b st = (some v, u))
    (hg : (g v s f).Ends b u B) : ((liftM x >>= g) s f).Ends b st B :=
  Proc.Ends.bind_flash (x := liftM x) (M := fun r u' => r = (v, f) ∧ u' = u)
    (Proc.Ends.step hx (Proc.Ends.pure ⟨rfl, rfl⟩)) fun _ _ _ h => by
      obtain ⟨h, rfl⟩ := h
      cases h
      exact hg

/-- A look at the session. -/
theorem Proc.Ends.bind_get_call {g : Session → Session.Call β}
    {B : (β × Session) × Flash → σ → Prop} (hg : (g s s f).Ends b st B) :
    ((get >>= g) s f).Ends b st B :=
  hg

namespace Session

/-- The session after `n` bytes. -/
def moved (s : Session) (n : Nat) : Session :=
  { s with position := UInt64.ofNat (s.position.toNat + n) }

theorem ends_advance (h : s.position.toNat + n < wordLimit) :
    (Session.advance n s f).Ends b st fun r u => r = (((), s.moved n), f) ∧ u = st := by
  apply Proc.Ends.bind_get_call
  apply Proc.Ends.step_call (Proc.run_advance h)
  exact Proc.Ends.pure ⟨rfl, rfl⟩

/-- What a session answers to a write that ended so, and where it is then. -/
def answer (s : Session) : Except PartialWrite Nat → Except IoError Nat × Session
  | .ok n => (.ok n, s.moved n)
  | .error stopped =>
    if stopped.written = 0 then (.error stopped.toIoError, s)
    else (.ok stopped.written, s.moved stopped.written)

/-- A write that failed is answered well if it stored something. -/
theorem answer_of_pos {stopped : PartialWrite} (h : 0 < stopped.written) :
    s.answer (.error stopped) = (.ok stopped.written, s.moved stopped.written) :=
  if_neg (Nat.ne_of_gt h)

theorem of_answer_eq_ok {s' : Session} {stopped : PartialWrite}
    (h : s.answer (.error stopped) = (.ok n, s')) :
    0 < n ∧ stopped.written = n ∧ s' = s.moved n := by
  by_cases hzero : stopped.written = 0
  · rw [answer, if_pos hzero] at h
    cases h
  · rw [answer_of_pos (Nat.pos_of_ne_zero hzero)] at h
    cases h
    exact ⟨Nat.pos_of_ne_zero hzero, rfl, rfl⟩

/-- How far a write that ended so moves the position. -/
def progress : Except PartialWrite Nat → Nat
  | .ok n => n
  | .error stopped => stopped.written

end Session

/-! ## Reads and writes -/

/-- What a write took fits the chip, so the position can move past it. -/
theorem Wrote.progress_lt {taken : Bytes} {w : Except PartialWrite Nat} (h : Attached c e)
    (hw : Wrote p taken c e w c' t)
    (hfit : taken.length ≤ e.config.capacity - (chipOffset p).toNat) :
    p.toNat + Session.progress w < wordLimit := by
  -- an offset inside a chip is far below the end of the address space
  have hadvance : ∀ {i n}, Locates p i (chipOffset p).toNat → 0 < taken.length →
      n ≤ taken.length → p.toNat + n < wordLimit := by
    intro i n hp hpos hn
    exact (hp.advance (h.lt_word32 (by omega))).1
  cases hw with
  | stored hdata hbegun _ =>
    exact hadvance hbegun.located (List.length_pos_iff.mpr hdata) (Nat.le_refl _)
  | refused _ _ => exact p.toNat_lt
  | stopped hbegun hstopped =>
    have := hstopped.lt
    exact hadvance hbegun.located (by omega) (Nat.le_of_lt this)

/-- A session read is a read at the position, which moves if it went well. -/
theorem Attached.ends_sessionRead (h : Attached f.controller e) (s : Session) (len : Nat) :
    (Session.read len s f).Ends Emulator.block e fun r t =>
      FlashRead s.position len f e r.1.1 r.2 t ∧
        (r.1.1.outcome = .ok () → r.1.2 = s.moved r.1.1.bytes.length) ∧
        (r.1.1.outcome ≠ .ok () → r.1.2 = s) := by
  apply Proc.Ends.bind_get_call
  refine Proc.Ends.bind_flash (h.ends_read s.position len) ?_
  intro r f' t hread
  obtain ⟨bytes, outcome⟩ := r
  cases outcome with
  | error error => exact Proc.Ends.pure ⟨hread, nofun, fun _ => rfl⟩
  | ok =>
    have hfits : s.position.toNat + bytes.length < wordLimit := by
      by_cases hne : bytes = []
      · rw [hne]
        exact s.position.toNat_lt
      · obtain ⟨i, hp⟩ := hread.located hne
        have hle := hread.le
        have hpos := List.length_pos_iff.mpr hne
        rw [h.remaining_eq] at hle
        refine (hp.advance (h.lt_word32 ?_)).1
        dsimp only at *
        omega
    refine Proc.Ends.bind_call (Session.ends_advance hfits) ?_
    intro _ _ _ _ hpost
    obtain ⟨hs, rfl⟩ := hpost
    cases hs
    exact Proc.Ends.pure ⟨hread, fun _ => rfl, fun hne => absurd rfl hne⟩

/-- A session write is a write at the position; one that stopped on the way
counts as accepted in part. -/
theorem Proc.Ends.sessionWrite {M : Except PartialWrite Nat × Flash → σ → Prop}
    (hwrite : (Flash.write s.position data f).Ends b st M)
    (hfits : ∀ w f' u, M (w, f') u → s.position.toNat + Session.progress w < wordLimit) :
    (Session.write data s f).Ends b st fun r u => ∃ w, r.1 = s.answer w ∧ M (w, r.2) u := by
  apply Proc.Ends.bind_get_call
  refine Proc.Ends.bind_flash hwrite ?_
  intro r f' u hm
  rcases r with stopped | n
  · have hfits := hfits _ f' u hm
    -- only a write that stored nothing is answered with an error
    by_cases hzero : stopped.written = 0
    · dsimp only
      rw [if_pos hzero]
      refine Proc.Ends.pure ⟨_, ?_, hm⟩
      rw [Session.answer, if_pos hzero]
    · dsimp only
      rw [if_neg hzero]
      refine Proc.Ends.bind_call (Session.ends_advance hfits) ?_
      intro _ _ _ _ hpost
      obtain ⟨hs, rfl⟩ := hpost
      cases hs
      refine Proc.Ends.pure ⟨_, ?_, hm⟩
      rw [Session.answer, if_neg hzero]
  · refine Proc.Ends.bind_call (Session.ends_advance (hfits _ f' u hm)) ?_
    intro _ _ _ _ hpost
    obtain ⟨hs, rfl⟩ := hpost
    cases hs
    exact Proc.Ends.pure ⟨_, rfl, hm⟩

theorem Attached.ends_sessionWrite (h : Attached f.controller e) (s : Session) (data : Bytes) :
    (Session.write data s f).Ends Emulator.block e fun r t =>
      r.2.sessionOpen = f.sessionOpen ∧
        ∃ w, Wrote s.position (data.take (f.remaining s.position)) f.controller e w
          r.2.controller t ∧ r.1 = s.answer w := by
  have hfit : (data.take (f.remaining s.position)).length ≤
      e.config.capacity - (chipOffset s.position).toNat := by
    rw [List.length_take, h.remaining_eq]
    exact Nat.min_le_left _ _
  refine (Proc.Ends.sessionWrite (h.ends_write s.position data)
    fun _ _ _ hw => hw.2.progress_lt h hfit).mono ?_
  intro r t hpost
  obtain ⟨w, hanswer, hopen, hwrote⟩ := hpost
  exact ⟨hopen, w, hwrote, hanswer⟩

/-! ## Writing all of the data -/

/-- A session write that answers a count accepted that many bytes. -/
theorem Wrote.accepted {taken : Bytes} {w : Except PartialWrite Nat} (h : Wrote p taken c e w c' t)
    {s' : Session} (hw : s.answer w = (.ok n, s')) :
    0 < n ∧ n ≤ taken.length ∧ s' = s.moved n := by
  cases h with
  | stored hdata _ _ =>
    cases hw
    exact ⟨List.length_pos_iff.mpr hdata, Nat.le_refl _, rfl⟩
  | refused _ _ =>
    obtain ⟨hn, rfl, -⟩ := Session.of_answer_eq_ok hw
    exact absurd hn (Nat.lt_irrefl 0)
  | stopped _ hstopped =>
    obtain ⟨hn, rfl, hs⟩ := Session.of_answer_eq_ok hw
    exact ⟨hn, Nat.le_of_lt hstopped.lt, hs⟩

theorem Session.writeAllOn_nil (fuel : Nat) : Session.writeAllOn fuel [] = pure (.ok ()) := by
  cases fuel <;> rfl

/-- One call of the loop. -/
theorem Proc.Ends.writeAllOn_step {fuel : Nat}
    {M : (Except IoError Nat × Session) × Flash → σ → Prop}
    {A : (Except IoError Unit × Session) × Flash → σ → Prop} (hdata : data ≠ [])
    (hwrite : (Session.write data s f).Ends b st M)
    (herror : ∀ error s' f' u, M ((.error error, s'), f') u → A ((.error error, s'), f') u)
    (hok : ∀ n s' f' u, M ((.ok n, s'), f') u → 0 < n ∧ n ≤ data.length ∧
      (Session.writeAllOn fuel (data.drop n) s' f').Ends b u A) :
    (Session.writeAllOn (fuel + 1) data s f).Ends b st A := by
  cases data with
  | nil => exact absurd rfl hdata
  | cons byte more =>
    rw [Session.writeAllOn]
    generalize byte :: more = data at *
    refine Proc.Ends.bind_call hwrite ?_
    intro r s' f' u hm
    rcases r with error | n
    · exact Proc.Ends.pure (herror error s' f' u hm)
    · obtain ⟨hpos, hle, hrest⟩ := hok n s' f' u hm
      obtain ⟨k, rfl⟩ := Nat.exists_eq_add_of_lt hpos
      exact Proc.Ends.step_call (Proc.run_split hle) hrest

theorem Proc.Ends.writeAll_step {M : (Except IoError Nat × Session) × Flash → σ → Prop}
    {A : (Except IoError Unit × Session) × Flash → σ → Prop} (hdata : data ≠ [])
    (hwrite : (Session.write data s f).Ends b st M)
    (herror : ∀ error s' f' u, M ((.error error, s'), f') u → A ((.error error, s'), f') u)
    (hok : ∀ n s' f' u, M ((.ok n, s'), f') u → 0 < n ∧ n ≤ data.length ∧
      (Session.writeAllOn (data.length - 1) (data.drop n) s' f').Ends b u A) :
    (Session.writeAll data s f).Ends b st A := by
  have hlen : data.length - 1 + 1 = data.length :=
    Nat.sub_add_cancel (List.length_pos_iff.mpr hdata)
  rw [Session.writeAll, ← hlen]
  exact writeAllOn_step hdata hwrite herror hok

end NorFlash
