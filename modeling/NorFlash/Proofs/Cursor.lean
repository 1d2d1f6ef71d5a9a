import NorFlash.Proofs.Bounds
import NorFlash.Proofs.Totality

/-!
# Cursor — where a session stands

A seek may place a session anywhere up to the largest signed position: beyond the
end of a chip, in the bits that no chip uses, or on a slave that does not exist.
Wherever it stands, a read or a write is cut off at the end of its chip, so the
position moves within the low 32 bits of its offset and stays a signed one.
-/

namespace NorFlash

variable {σ : Type} {b : RegisterBlock σ} {st t : σ} {s s' : Session} {f f' : Flash}
  {p : UInt64} {len n : Nat} {data : Bytes}

/-! ## What is cut off -/

namespace Flash

theorem remaining_le_signed (hf : f.controller.Fitted) (p : UInt64) :
    f.remaining p ≤ signedLimit := by
  have hcapacity := hf.capacity
  rw [remaining, capacity]
  simp only [sectorSize, signedLimit] at *
  omega

/-- What remains of a chip lies ahead in the low 32 bits of an offset. -/
theorem remaining_lt (hf : f.controller.Fitted) (p : UInt64) (h : n ≤ f.remaining p) :
    n = 0 ∨ p.toNat % word32Limit + n < word32Limit := by
  have hcapacity := hf.capacity
  rw [remaining, capacity, chipOffset_toNat] at h
  simp only [sectorSize, word32Limit] at *
  omega

/-- A read asks for no more than remains. -/
theorem read_cut (p : UInt64) (len : Nat) (f : Flash) :
    read p len f = read p (min len (f.remaining p)) f := by
  rw [read, FlashProc.get_bind, read, FlashProc.get_bind, Nat.min_assoc, Nat.min_self]

/-- A write gives no more than remains. -/
theorem write_cut (p : UInt64) (data : Bytes) (f : Flash) :
    write p data f = write p (data.take (f.remaining p)) f := by
  rw [write, FlashProc.get_bind, write, FlashProc.get_bind, List.take_take, Nat.min_self]

end Flash

theorem Session.read_cut (s : Session) (len : Nat) (f : Flash) :
    Session.read len s f = Session.read (min len (f.remaining s.position)) s f := by
  show (Flash.read s.position len f >>= _) >>= _ =
    (Flash.read s.position (min len (f.remaining s.position)) f >>= _) >>= _
  rw [Flash.read_cut]

/-! ## Steps of the cursor -/

namespace Session

/-- The session is `n` bytes further on; bits 32 to 63 of its position are as they
were. -/
structure Advanced (s : Session) (n : Nat) (s' : Session) : Prop where
  position : s'.position.toNat = s.position.toNat + n
  upper : s'.position.toNat / word32Limit = s.position.toNat / word32Limit

theorem Advanced.of_moved (h : s.Moved n s')
    (hn : n = 0 ∨ s.position.toNat % word32Limit + n < word32Limit) : s.Advanced n s' := by
  refine ⟨h, ?_⟩
  rw [show s'.position.toNat = s.position.toNat + n from h]
  simp only [word32Limit] at *
  omega

theorem advanced_moved
    (hn : n = 0 ∨ s.position.toNat % word32Limit + n < word32Limit) :
    s.Advanced n (s.moved n) := by
  refine .of_moved ?_ hn
  have hlt := s.position.toNat_lt
  rw [Moved, moved, UInt64.toNat_ofNat_of_lt']
  simp only [word32Limit, UInt64.size] at *
  omega

/-- Whoever stays below the largest position in all but the low 32 bits stays below
it. -/
theorem Advanced.position_le (h : s.Advanced n s') (hs : (s.position.toNat : Int) ≤ maxPosition) :
    (s'.position.toNat : Int) ≤ maxPosition := by
  have hupper := h.upper
  simp only [maxPosition, signedLimit, word32Limit] at *
  omega

/-- What a read leaves of a session. -/
def ReadLaw (s : Session) (arrival : Arrival) (s' : Session) : Prop :=
  match arrival.outcome with
  | .ok () => s.Advanced arrival.bytes.length s'
  | .error _ => s' = s

/-- What a write answers and leaves, where the write to the flash ended so. -/
def WriteLaw (s : Session) : Except PartialWrite Nat → Except IoError Nat → Session → Prop
  | .ok n, r, s' => r = .ok n ∧ s.Advanced n s'
  | .error stopped, r, s' =>
    if 0 < stopped.written then r = .ok stopped.written ∧ s.Advanced stopped.written s'
    else r = .error (.driver stopped.error) ∧ s' = s

/-- What a seek to an exact integer answers. -/
def SeekLaw (goal : Int) (r : Except IoError Session) : Prop :=
  if 0 ≤ goal ∧ goal ≤ maxPosition then
    ∃ s', r = .ok s' ∧ (s'.position.toNat : Int) = goal
  else
    ∃ e, r = .error e ∧ e.kind = .invalidInput

theorem ReadLaw.position_le {arrival : Arrival} (h : s.ReadLaw arrival s')
    (hs : (s.position.toNat : Int) ≤ maxPosition) : (s'.position.toNat : Int) ≤ maxPosition := by
  rw [ReadLaw] at h
  split at h
  · exact h.position_le hs
  · exact h ▸ hs

theorem WriteLaw.position_le {w : Except PartialWrite Nat} {r : Except IoError Nat}
    (h : s.WriteLaw w r s') (hs : (s.position.toNat : Int) ≤ maxPosition) :
    (s'.position.toNat : Int) ≤ maxPosition := by
  cases w with
  | ok n => exact h.2.position_le hs
  | error stopped =>
    rw [WriteLaw] at h
    split at h
    · exact h.2.position_le hs
    · exact h.2 ▸ hs

/-- A read on any fitted controller ends and keeps to its law. -/
theorem ends_read (hf : f.controller.Fitted) (s : Session) (len : Nat) (b : RegisterBlock σ)
    (st : σ) :
    (read len s f).Ends b st fun r _ => r.2.controller.Fitted ∧ s.ReadLaw r.1.1 r.1.2 := by
  have hsigned : min len (f.remaining s.position) ≤ signedLimit :=
    Nat.le_trans (Nat.min_le_right _ _) (Flash.remaining_le_signed hf _)
  rw [Session.read_cut]
  have habides := Session.abides_read (T := .strict) (s := s)
    (hf.within_of_all fun _ => trivial) (.inr hsigned)
  refine (habides.ends b st).mono fun r _ h => ⟨h.1.toFitted, ?_⟩
  obtain ⟨-, hshown, hafter⟩ := h
  have hn := Flash.remaining_lt hf s.position (Nat.le_trans hshown.1 (Nat.min_le_right _ _))
  obtain ⟨⟨⟨bytes, outcome⟩, s'⟩, f'⟩ := r
  cases outcome with
  | ok _ => exact .of_moved hafter hn
  | error e => exact hafter

theorem writeLaw_answer {w : Except PartialWrite Nat}
    (hn : progress w = 0 ∨ s.position.toNat % word32Limit + progress w < word32Limit) :
    s.WriteLaw w (s.answer w).1 (s.answer w).2 := by
  cases w with
  | ok n => exact ⟨rfl, advanced_moved hn⟩
  | error stopped =>
    by_cases hpos : 0 < stopped.written
    · rw [answer_of_pos hpos, WriteLaw, if_pos hpos]
      exact ⟨rfl, advanced_moved hn⟩
    · rw [answer, if_pos (Nat.eq_zero_of_not_pos hpos), WriteLaw, if_neg hpos]
      exact ⟨rfl, rfl⟩

/-- A write on any fitted controller ends, and keeps to its law with what came of the
write to the flash. -/
theorem ends_write (hf : f.controller.Fitted) (s : Session) (data : Bytes) (b : RegisterBlock σ)
    (st : σ) :
    (write data s f).Ends b st fun r t => r.2.controller.Fitted ∧
      ∃ w, (Flash.write s.position data f).run b st = (some (w, r.2), t) ∧
        s.WriteLaw w r.1.1 r.1.2 := by
  have htaken : (data.take (f.remaining s.position)).length ≤ f.remaining s.position := by
    rw [List.length_take]
    exact Nat.min_le_left _ _
  have hsigned := Nat.le_trans htaken (Flash.remaining_le_signed hf s.position)
  have habides := Flash.abides_write (T := .strict) (hf.within_of_all fun _ => trivial)
    s.position (.inr hsigned)
  rw [FlashProc.Abides, ← Flash.write_cut] at habides
  obtain ⟨⟨w, f'⟩, t, hrun, hwithin, haccepted, -⟩ := habides.ends b st
  have hn := Flash.remaining_lt hf s.position (Nat.le_trans haccepted htaken)
  have hfits : s.position.toNat + progress w < wordLimit := by
    have hlt := s.position.toNat_lt
    simp only [word32Limit, wordLimit] at *
    omega
  have hwrite : (Flash.write s.position data f).Ends b st fun r u => r = (w, f') ∧ u = t :=
    ⟨(w, f'), t, hrun, rfl, rfl⟩
  refine (Proc.Ends.sessionWrite hwrite ?_).mono ?_
  · rintro _ _ _ ⟨⟨⟩, rfl⟩
    exact hfits
  · rintro ⟨⟨r, s'⟩, f''⟩ u ⟨w', hanswer, hw, rfl⟩
    cases hw
    refine ⟨hwithin.toFitted, w, hrun, ?_⟩
    have hlaw := writeLaw_answer hn
    rwa [← hanswer] at hlaw

/-- A seek that aims at `target` succeeds where that is a signed position. -/
theorem seek_of_target {whence : SeekFrom} {target : Option UInt64}
    (h : s.target whence = .ok target) :
    s.seek whence = match target.filter fun p => (p.toNat : Int) ≤ maxPosition with
      | some position => .ok { position }
      | none => .error .seekOutOfRange := by
  rw [seek, h]
  show (match target.filter fun p => (p.toNat : Int) ≤ maxPosition with
    | some position => pure { position }
    | none => throw .seekOutOfRange : Except IoError Session) = _
  cases target.filter _ <;> rfl

/-- **A seek is exact**: the words it aims at are those equal to the goal. -/
theorem seekLaw_of_target {whence : SeekFrom} {target : Option UInt64} {goal : Int}
    (h : s.target whence = .ok target)
    (hgoal : ∀ p, target = some p ↔ (p.toNat : Int) = goal) :
    SeekLaw goal (s.seek whence) := by
  rw [seek_of_target h, SeekLaw]
  by_cases hsigned : 0 ≤ goal ∧ goal ≤ maxPosition
  · -- a signed position is a word, so the seek aims at it
    have hword : ((UInt64.ofNat goal.toNat).toNat : Int) = goal := by
      rw [UInt64.toNat_ofNat_of_lt']
      · omega
      · simp only [maxPosition, signedLimit, UInt64.size] at *
        omega
    rw [if_pos hsigned, (hgoal _).mpr hword, Option.filter_some, hword,
      if_pos (decide_eq_true hsigned.2)]
    exact ⟨_, rfl, hword⟩
  · rw [if_neg hsigned]
    cases target with
    | none => exact ⟨_, rfl, rfl⟩
    | some p =>
      have hp := (hgoal p).mp rfl
      have hbig : ¬ (p.toNat : Int) ≤ maxPosition := by omega
      rw [Option.filter_some, if_neg (by simpa using hbig)]
      exact ⟨_, rfl, rfl⟩

/-- A seek that succeeds aims inside the signed positions. -/
theorem position_le_of_seek {whence : SeekFrom} (h : s.seek whence = .ok s') :
    (s'.position.toNat : Int) ≤ maxPosition := by
  cases htarget : s.target whence with
  | error e =>
    rw [seek, htarget] at h
    cases h
  | ok target =>
    rw [seek_of_target htarget] at h
    cases hfound : target.filter fun p => (p.toNat : Int) ≤ maxPosition with
    | none =>
      rw [hfound] at h
      cases h
    | some p =>
      rw [hfound] at h
      cases h
      obtain ⟨-, hsigned⟩ := Option.filter_eq_some_iff.mp hfound
      simpa using hsigned

/-! ## Sessions that calls lead to -/

/-- A session is reached on a block if it was opened on a flash that operations led to,
and moved on from there by reads, writes and seeks; meanwhile others may call the
flash. -/
inductive Reached (b : RegisterBlock σ) : Session → Flash → σ → Prop where
  | opened {start t : σ} {ops : List Operation} {f f' : Flash} {s : Session}
    (hflash : (Course.run b ops { state := start }).flash = some f)
    (hopen : (openOn f).run b (Course.run b ops { state := start }).state =
      (some (.ok s, f'), t)) : Reached b s f' t
  | read {st t : σ} {s s' : Session} {f f' : Flash} {len : Nat} {arrival : Arrival}
    (h : Reached b s f st)
    (hrun : (read len s f).run b st = (some ((arrival, s'), f'), t)) : Reached b s' f' t
  | write {st t : σ} {s s' : Session} {f f' : Flash} {data : Bytes} {r : Except IoError Nat}
    (h : Reached b s f st)
    (hrun : (write data s f).run b st = (some ((r, s'), f'), t)) : Reached b s' f' t
  | seek {st : σ} {s s' : Session} {f : Flash} {whence : SeekFrom} (h : Reached b s f st)
    (hseek : s.seek whence = .ok s') : Reached b s' f st
  | meanwhile {st t : σ} {s : Session} {f f' : Flash} {request : FlashCall}
    (h : Reached b s f st)
    (hrun : (request.perform f).run b st = (some ((), f'), t)) : Reached b s f' t

theorem run_openOn (h : ¬ f.sessionOpen = true) :
    openOn f = pure (.ok {}, { f with sessionOpen := true }) := by
  rw [openOn, FlashProc.get_bind, if_neg h]
  rfl

/-- **A session that calls lead to has a signed position** and a fitted controller. -/
theorem Reached.invariant (h : Reached b s f st) :
    f.controller.Fitted ∧ (s.position.toNat : Int) ≤ maxPosition := by
  induction h with
  | @opened start t ops f f' s hflash hopen =>
    have hf : f.controller.Fitted := Course.fitted b ops .none f hflash
    by_cases hbusy : f.sessionOpen = true
    · have hrefused : openOn f = pure (.error .busy, f) := by
        rw [openOn, FlashProc.get_bind, if_pos hbusy]
        rfl
      rw [hrefused] at hopen
      cases hopen
    · rw [run_openOn hbusy] at hopen
      cases hopen
      exact ⟨hf, by decide⟩
  | read h hrun ih =>
    obtain ⟨hf, hs⟩ := ih
    have hend := (ends_read hf _ _ b _).of_run hrun
    exact ⟨hend.1, hend.2.position_le hs⟩
  | write h hrun ih =>
    obtain ⟨hf, hs⟩ := ih
    obtain ⟨hf', w, -, hlaw⟩ := (ends_write hf _ _ b _).of_run hrun
    exact ⟨hf', hlaw.position_le hs⟩
  | seek h hseek ih => exact ⟨ih.1, position_le_of_seek hseek⟩
  | @meanwhile _ _ _ _ _ request h hrun ih =>
    have habides := request.abides_perform (T := .lax) (ih.1.within_of_all fun _ => trivial)
      (.inl trivial)
    exact ⟨(habides.of_run hrun).1.toFitted, ih.2⟩

/-- What the calls of a session do at its position, on a block. -/
structure Lawful (b : RegisterBlock σ) (s : Session) (f : Flash) (st : σ) : Prop where
  position_le : (s.position.toNat : Int) ≤ maxPosition
  read : ∀ len, (Session.read len s f).Ends b st fun r _ => s.ReadLaw r.1.1 r.1.2
  write : ∀ data, (Session.write data s f).Ends b st fun r t =>
    ∃ w, (Flash.write s.position data f).run b st = (some (w, r.2), t) ∧
      s.WriteLaw w r.1.1 r.1.2
  seek_start : ∀ offset : UInt64, SeekLaw offset.toNat (s.seek (.start offset))
  seek_current : ∀ delta : Int64,
    SeekLaw (s.position.toNat + delta.toInt) (s.seek (.current delta))
  seek_fromEnd : ∀ delta : Int64,
    ∃ e, s.seek (.fromEnd delta) = .error e ∧ e.kind = .invalidInput

end Session

/-- **The law of the cursor.** Wherever reads, writes and seeks have moved a session, on
any block: its position is a signed one. The next read or write ends without an
overflow. If it answers a count, the position moves on by that count, and bits 32 to 63
of it stay; a write that stopped early is answered with what was written, if anything
was. If it fails, the position stays. A seek from the front or from the position goes
to the exact target if that is a signed position, and any other seek is refused as
invalid input. -/
theorem session_cursor_law (h : Session.Reached b s f st) : s.Lawful b f st where
  position_le := h.invariant.2
  read len := (Session.ends_read h.invariant.1 s len b st).mono fun _ _ h => h.2
  write data := (Session.ends_write h.invariant.1 s data b st).mono fun _ _ h => h.2
  seek_start offset := by
    refine Session.seekLaw_of_target rfl fun p => ?_
    rw [Option.some_inj, Int.natCast_inj, UInt64.toNat_inj, eq_comm]
  seek_current _ := Session.seekLaw_of_target rfl fun _ => addSigned?_eq_some_iff
  seek_fromEnd _ := ⟨_, rfl, rfl⟩

/-- A session of a default driver on a default emulator that was moved to the largest
position, far beyond the last slave. -/
theorem session_cursor_law_default :
    ∃ s f e, Session.Reached Emulator.block s f e ∧ s.position = 0x7fffffffffffffff ∧
      s.Lawful Emulator.block f e := by
  have hopenable : Attempt.Ends Emulator.block (Flash.attach {}) (.ofConfig {})
      (fun f _ => f.sessionOpen = false) (fun _ _ => False) := by
    refine .bind (Emulator.Prepared.fresh.fresh_and_config.1.ends_attach {} (by decide)) ?_
      fun _ _ _ => .pure rfl
    exact fun _ _ hn => hn attachable_default
  obtain ⟨r, t, hrun, hr⟩ := hopenable
  cases r with
  | error e => exact hr.elim
  | ok f =>
    have hstep : Course.run Emulator.block [.attach {}] { state := .ofConfig {} } =
        Course.step Emulator.block { state := .ofConfig {} } (.attach {}) := rfl
    have hflash : (Course.run Emulator.block [.attach {}] { state := .ofConfig {} }).flash =
        some f := by
      rw [hstep, Course.step, Operation.run_attach hrun]
      rfl
    have hopened : Session.Reached Emulator.block {} { f with sessionOpen := true } t := by
      refine .opened hflash ?_
      rw [Session.run_openOn (by simp [hr]), hstep, Course.step, Operation.run_attach hrun]
      rfl
    have hseek : Session.seek {} (.start 0x7fffffffffffffff) =
        .ok { position := 0x7fffffffffffffff } := rfl
    have hreached := hopened.seek hseek
    exact ⟨_, _, _, hreached, rfl, session_cursor_law hreached⟩

end NorFlash
