import NorFlash.Proofs.Refusals
import NorFlash.Proofs.Saving

/-!
# Visits — one session at a time

The users of a flash open and drop sessions, work in them and run commands, in any
order. A session that is open keeps every other one out until it is dropped, and so it
keeps out the commands, which open one of their own.
-/

namespace NorFlash

variable {α σ : Type} {b : RegisterBlock σ} {st : σ} {f : Flash}

/-! ## Visits -/

/-- A flash and the sessions that are open on it. -/
structure Shared where
  flash : Flash
  live : List Session := []

/-- Something that a user of the flash does. Sessions are named by their place among
those that are open; a command brings its own workspace. -/
inductive Visit where
  | openSession
  | drop (k : Nat)
  | read (k : Nat) (len : Nat)
  | write (k : Nat) (data : Bytes)
  | seek (k : Nat) (whence : SeekFrom)
  | readFile (workspace : Workspace) (output : String) (offset : UInt64) (length : Option Nat)
  | writeFile (workspace : Workspace) (input : String) (offset : UInt64) (verified : Bool)

namespace Shared

/-- A call on the session at a place, if one is open there. -/
def onSession (k : Nat) (x : Session.Call α) (h : Shared) : Proc Shared :=
  match h.live[k]? with
  | none => pure h
  | some s => do
    let ((_, s), flash) ← x s h.flash
    return { flash, live := h.live.set k s }

/-- A command on the flash. -/
def onDesk (workspace : Workspace) (x : Command Unit) (h : Shared) : Proc Shared := do
  let (_, desk) ← x.run { flash := h.flash, workspace }
  return { h with flash := desk.flash }

end Shared

namespace Visit

/-- What a visit does. A session that is dropped is closed. -/
def perform (h : Shared) : Visit → Proc Shared
  | openSession => do
    match ← Session.openOn h.flash with
    | (.ok s, flash) => return { flash, live := h.live ++ [s] }
    | (.error _, flash) => return { h with flash }
  | drop k =>
    match h.live[k]? with
    | none => return h
    | some _ => do
      let (_, flash) ← Session.close h.flash
      return { flash, live := h.live.eraseIdx k }
  | read k len => h.onSession k (Session.read len)
  | write k data => h.onSession k (Session.write data)
  | seek k whence =>
    match h.live[k]? with
    | none => return h
    | some s =>
      match s.seek whence with
      | .error _ => return h
      | .ok s => return { h with live := h.live.set k s }
  | readFile workspace output offset length =>
    h.onDesk workspace (Command.read output offset length)
  | writeFile workspace input offset verified =>
    h.onDesk workspace (Command.write input offset verified)

/-- Visits one after the other. -/
def performAll : List Visit → Shared → Proc Shared
  | [], h => return h
  | visit :: rest, h => do performAll rest (← perform h visit)

end Visit

namespace Shared

/-- The flash is open as long as its one session is. -/
structure Sound (h : Shared) : Prop where
  fitted : h.flash.controller.Fitted
  atMostOne : h.live.length ≤ 1
  held : h.flash.sessionOpen = true ↔ h.live ≠ []

variable {h : Shared}

theorem ends_onSession (hsound : h.Sound) (k : Nat) {x : Session.Call α}
    (hx : Session.StaysOpen x)
    (hends : ∀ s, (x s h.flash).Ends b st fun r _ => r.2.controller.Fitted) :
    (h.onSession k x).Ends b st fun h' _ => h'.Sound := by
  rw [onSession]
  split
  · exact .pure hsound
  · rename_i s hs
    refine .bind ((hx s).ends (hends s)) fun r t hr => .pure ⟨hr.1, ?_, ?_⟩
    · exact (List.length_set).symm ▸ hsound.atMostOne
    · have hlive : h.live ≠ [] := by
        rintro hnil
        rw [hnil] at hs
        cases hs
      have hset : h.live.set k r.1.2 ≠ [] := by
        rwa [Ne, List.set_eq_nil_iff]
      have hopen : r.2.sessionOpen = true := hr.2.trans (hsound.held.mpr hlive)
      exact iff_of_true hopen hset

/-- A command comes to an end and leaves the flash as open as it was. -/
theorem ends_command (hsound : h.Sound) (workspace : Workspace) {x : Command Unit}
    (hx : Command.Leaves x) (habides : ∀ desk : Desk, desk.flash.controller.Fitted →
      Command.Abides .strict desk.flash.controller.vendor x desk fun _ => True) :
    (x.run { flash := h.flash, workspace }).Ends b st fun r _ =>
      r.2.flash.controller.Fitted ∧ (r.2.flash.sessionOpen = true ↔ h.live ≠ []) := by
  have hends := (habides { flash := h.flash, workspace } hsound.fitted).ends b st
  refine (hx.ends hends).mono fun r t hr => ⟨hr.1.1.toFitted, ?_⟩
  have hsame : r.2.flash.sessionOpen = h.flash.sessionOpen := hr.2
  rw [hsame]
  exact hsound.held

theorem ends_onDesk (hsound : h.Sound) (workspace : Workspace) {x : Command Unit}
    (hx : Command.Leaves x) (habides : ∀ desk : Desk, desk.flash.controller.Fitted →
      Command.Abides .strict desk.flash.controller.vendor x desk fun _ => True) :
    (h.onDesk workspace x).Ends b st fun h' _ => h'.Sound :=
  .bind (ends_command hsound workspace hx habides) fun _ _ hr =>
    .pure ⟨hr.1, hsound.atMostOne, hr.2⟩

end Shared

namespace Visit

open Shared (Sound)

variable {h : Shared}

theorem perform_openSession_busy (hsound : h.Sound) (hlive : h.live ≠ []) :
    perform h openSession = pure h := by
  rw [perform, Session.openOn_eq, Session.openLaw, if_pos (hsound.held.mpr hlive)]
  rfl

/-- **One visit.** It comes to an end, and at most one session is open then. -/
theorem ends_perform (hsound : h.Sound) (visit : Visit) (b : RegisterBlock σ) (st : σ) :
    (perform h visit).Ends b st fun h' _ => h'.Sound := by
  cases visit with
  | openSession =>
    by_cases hlive : h.live = []
    · have hclosed : ¬ h.flash.sessionOpen = true := fun hopen => hsound.held.mp hopen hlive
      rw [perform, Session.openOn_eq, Session.openLaw, if_neg hclosed, hlive]
      exact .pure ⟨hsound.fitted, Nat.le_refl 1, iff_of_true rfl (List.cons_ne_nil _ _)⟩
    · rw [perform_openSession_busy hsound hlive]
      exact .pure hsound
  | drop k =>
    rw [perform]
    split
    · exact .pure hsound
    · rename_i s hs
      -- the session that is dropped was the only one
      have hk : k < h.live.length := (List.getElem?_eq_some_iff.mp hs).1
      have hnil : h.live.eraseIdx k = [] := by
        refine List.eq_nil_of_length_eq_zero ?_
        have hle := hsound.atMostOne
        rw [List.length_eraseIdx_of_lt hk]
        omega
      refine .pure ⟨hsound.fitted, ?_, ?_⟩
      · rw [hnil]
        exact Nat.zero_le 1
      · rw [hnil]
        exact iff_of_false Bool.false_ne_true fun hne => hne rfl
  | read k len =>
    exact Shared.ends_onSession hsound k (Session.staysOpen_read len) fun s =>
      (Session.ends_read hsound.fitted s len b st).mono fun _ _ hr => hr.1
  | write k data =>
    exact Shared.ends_onSession hsound k (Session.staysOpen_write data) fun s =>
      (Session.ends_write hsound.fitted s data b st).mono fun _ _ hr => hr.1
  | seek k whence =>
    rw [perform]
    split
    · exact .pure hsound
    · rename_i s hs
      split
      · exact .pure hsound
      · rename_i s' hs'
        refine .pure ⟨hsound.fitted, ?_, ?_⟩
        · exact (List.length_set).symm ▸ hsound.atMostOne
        · rw [Ne, List.set_eq_nil_iff]
          exact hsound.held
  | readFile workspace output offset length =>
    exact Shared.ends_onDesk hsound workspace (Command.leaves_read output offset length)
      fun desk hf => Command.abides_read (hf.within_of_all fun _ => trivial) output offset length
  | writeFile workspace input offset verified =>
    exact Shared.ends_onDesk hsound workspace (Command.leaves_write input offset verified)
      fun desk hf => Command.abides_write (hf.within_of_all fun _ => trivial) input offset verified

theorem performAll_append (first rest : List Visit) (h : Shared) :
    performAll (first ++ rest) h = performAll first h >>= performAll rest := by
  induction first generalizing h with
  | nil => rfl
  | cons visit more ih =>
    rw [List.cons_append, performAll, performAll, bind_assoc]
    congr 1
    funext h'
    exact ih h'

theorem ends_performAll (hsound : h.Sound) (visits : List Visit) (b : RegisterBlock σ) (st : σ) :
    (performAll visits h).Ends b st fun h' _ => h'.Sound := by
  induction visits generalizing h st with
  | nil => exact .pure hsound
  | cons visit rest ih => exact .bind (ends_perform hsound visit b st) fun h t hsound => ih hsound t

end Visit

/-- What a flash admits next. -/
structure Shared.Exclusive (b : RegisterBlock σ) (h : Shared) (st : σ) : Prop where
  atMostOne : h.live.length ≤ 1
  openFree : h.live = [] →
    Session.openOn h.flash = pure (.ok {}, { h.flash with sessionOpen := true })
  openBusy : h.live ≠ [] → Session.openOn h.flash = pure (.error .busy, h.flash) ∧
    Visit.openSession.perform h = pure h
  readFile : ∀ workspace output offset length,
    ((Command.read output offset length).run { flash := h.flash, workspace }).Ends b st
      fun r _ => r.2.flash.sessionOpen = true ↔ h.live ≠ []
  writeFile : ∀ workspace input offset verified,
    ((Command.write input offset verified).run { flash := h.flash, workspace }).Ends b st
      fun r _ => r.2.flash.sessionOpen = true ↔ h.live ≠ []
  readFileBusy : h.live ≠ [] → ∀ (desk : Desk) output offset length, desk.flash = h.flash →
    (Command.read output offset length).run desk =
      pure (.error (Command.refusal h.flash offset), desk)
  writeFileBusy : h.live ≠ [] → ∀ (desk : Desk) input data offset verified,
    desk.flash = h.flash → desk.workspace.read input = .ok data →
    (Command.write input offset verified).run desk =
      pure (.error (Command.refusal h.flash offset), { desk with
        printed := ("Read " ++ Command.formatSize data.length ++ " from " ++
          Text.Quoted.encode input ++ "\n") :: desk.printed })

theorem Shared.Sound.exclusive {h : Shared} (hsound : h.Sound) (b : RegisterBlock σ) (st : σ) :
    h.Exclusive b st where
  atMostOne := hsound.atMostOne
  openFree hlive := by
    have hclosed : ¬ h.flash.sessionOpen = true := fun hopen => hsound.held.mp hopen hlive
    rw [Session.openOn_eq, Session.openLaw, if_neg hclosed]
  openBusy hlive := by
    refine ⟨?_, Visit.perform_openSession_busy hsound hlive⟩
    rw [Session.openOn_eq, Session.openLaw, if_pos (hsound.held.mpr hlive)]
  readFile workspace output offset length :=
    (Shared.ends_command hsound workspace (Command.leaves_read output offset length)
      fun desk hf => Command.abides_read (hf.within_of_all fun _ => trivial) output offset
        length).mono fun _ _ hr => hr.2
  writeFile workspace input offset verified :=
    (Shared.ends_command hsound workspace (Command.leaves_write input offset verified)
      fun desk hf => Command.abides_write (hf.within_of_all fun _ => trivial) input offset
        verified).mono fun _ _ hr => hr.2
  readFileBusy hlive desk output offset length hdesk := by
    have hopen := hsound.held.mpr hlive
    rw [← hdesk] at hopen ⊢
    exact Command.run_read_busy hopen output offset length
  writeFileBusy hlive desk input data offset verified hdesk hfile := by
    have hopen := hsound.held.mpr hlive
    rw [← hdesk] at hopen ⊢
    exact Command.run_write_busy hopen hfile offset verified

theorem Shared.sound_of_attach {tuning : Tuning} {s t : σ}
    (hattach : (Flash.attach tuning).run.run b s = (some (.ok f), t)) :
    Sound { flash := f } := by
  obtain ⟨hfitted, hclosed⟩ := Flash.closed_of_attach hattach
  exact ⟨hfitted, Nat.zero_le 1, iff_of_false (hclosed ▸ Bool.false_ne_true) fun hne => hne rfl⟩

/-- **One session at a time.** After an attach on any block, whatever sessions are
opened and dropped, whatever is done in them and whatever commands are run: every visit
comes to its end, and at most one session is open. The next open succeeds if none is,
and is otherwise refused as busy with everything left as it is. A command comes to its
end with no session of its own open; while a session is open, a command for an offset
inside the chip is refused as busy before it touches a register or writes a file. -/
theorem session_admission {tuning : Tuning} {s t : σ}
    (hattach : (Flash.attach tuning).run.run b s = (some (.ok f), t)) (visits : List Visit) :
    (Visit.performAll visits { flash := f }).Ends b t fun h u => h.Exclusive b u :=
  (Visit.ends_performAll (Shared.sound_of_attach hattach) visits b t).mono
    fun _ u hsound => hsound.exclusive b u

/-! ## A flash that is given back -/

/-- On the emulator a request that is turned down changes nothing. -/
theorem Proc.Declines.run_block {p : Proc α} {a : α} (h : p.Declines a) (e : Emulator) :
    p.run Emulator.block e = (some a, e) := by
  obtain ⟨ha, hlines⟩ := h Emulator.block e
  clear h
  induction p with
  | done v => exact Prod.ext ha rfl
  | trap => cases ha
  | read r next _ =>
    obtain ⟨_, hline⟩ := hlines _ (List.mem_append_right _ (List.mem_singleton_self _))
    cases hline
  | write r v next _ =>
    obtain ⟨_, hline⟩ := hlines _ (List.mem_append_right _ (List.mem_singleton_self _))
    cases hline
  | delay us next _ =>
    obtain ⟨_, hline⟩ := hlines _ (List.mem_append_right _ (List.mem_singleton_self _))
    cases hline
  | yield next _ =>
    obtain ⟨_, hline⟩ := hlines _ (List.mem_append_right _ (List.mem_singleton_self _))
    cases hline
  | note m next ih => exact ih () ha fun d hd => hlines d (List.mem_append_left _ hd)

/-- Visits that decline one after the other. -/
theorem Visit.declines_append {first rest : List Visit} {h h' h'' : Shared}
    (hfirst : (performAll first h).Declines h') (hrest : (performAll rest h').Declines h'') :
    (performAll (first ++ rest) h).Declines h'' := by
  rw [performAll_append]
  exact .bind hfirst hrest

/-- A session that is moved to a missing slave and fails to read there. -/
def strayVisits : List Visit :=
  [.openSession, .seek 0 (.start 0x200000000000000), .read 0 4]

theorem declines_strayVisits (hclosed : f.sessionOpen = false)
    (hleft : 0 < f.remaining 0x200000000000000) :
    (Visit.performAll strayVisits { flash := f }).Declines
      { flash := { f with sessionOpen := true }, live := [{ position := 0x200000000000000 }] } := by
  have hopened : (Visit.openSession.perform { flash := f }).Declines
      { flash := { f with sessionOpen := true }, live := [{}] } := by
    rw [Visit.perform, Session.openOn_eq, Session.openLaw, hclosed]
    exact .pure _
  have hstray : ¬ Addressed 0x200000000000000 := fun h => absurd (addressed_iff.mp h) (by decide)
  have hread := (Session.guarded { position := 0x200000000000000 }
    { f with sessionOpen := true }).read_stray 4 (by decide) hleft hstray
  -- the seek goes where it is told to, as there is a session to move
  exact .bind hopened (.bind (.pure _) (.bind (.bind hread (.pure _)) (.pure _)))

/-- While a session is open a command and another session are kept out. -/
theorem declines_givenBack (hclosed : f.sessionOpen = false) (s : Session) (offset : UInt64)
    (length : Option Nat) :
    (Visit.performAll [.readFile {} "out" offset length, .openSession, .drop 0]
      { flash := { f with sessionOpen := true }, live := [s] }).Declines { flash := f } := by
  have hread : ((Visit.readFile {} "out" offset length).perform
      { flash := { f with sessionOpen := true }, live := [s] }).Declines
      { flash := { f with sessionOpen := true }, live := [s] } := by
    rw [Visit.perform, Shared.onDesk, Command.run_read_busy rfl]
    exact .pure _
  have hopen : (Visit.openSession.perform
      { flash := { f with sessionOpen := true }, live := [s] }).Declines
      { flash := { f with sessionOpen := true }, live := [s] } := by
    rw [Visit.perform, Session.openOn_eq, Session.openLaw, if_pos rfl]
    exact .pure _
  have hsame : ({ f with sessionOpen := false } : Flash) = f := by rw [← hclosed]
  refine .bind hread (.bind hopen (.bind (a := { flash := f }) ?_ (.pure _)))
  rw [← hsame]
  exact .pure _

/-- A session that reads in vain keeps a command and another session out; once it is dropped the
command is admitted and reads what the chip holds. -/
theorem session_admission_default :
    ∃ f t, (Flash.attach {}).run.run Emulator.block (.loaded {} 0xfff [0x5a, 0xa5]) =
        (some (.ok f), t) ∧
      (Visit.performAll strayVisits { flash := f }).Ends Emulator.block t (fun h u =>
        h.Exclusive Emulator.block u ∧ h.live ≠ []) ∧
      (Visit.performAll (strayVisits ++ [.readFile {} "out" 0xfff (some 2), .openSession, .drop 0])
        { flash := f }).Ends Emulator.block t fun h u =>
          h.Exclusive Emulator.block u ∧ h.live = [] ∧
          ((Command.read "out" 0xfff (some 2)).run { flash := h.flash, workspace := {} }).Ends
            Emulator.block u fun r _ =>
              r.1 = .ok () ∧ r.2.workspace.read "out" = .ok [0x5a, 0xa5] := by
  obtain ⟨r, t, hrun, hr⟩ := (Emulator.prepared_loaded {} 0xfff [0x5a, 0xa5]).ends_attach {}
    (by decide)
  cases r with
  | error e => exact absurd (attachable_default.loaded _ _) hr
  | ok f =>
    have hengaged : Engaged {} (.loaded {} 0xfff [0x5a, 0xa5]) f.controller t := hr
    have hclosed : f.sessionOpen = false := (Flash.closed_of_attach hrun).2
    have hcapacity : f.capacity = sectorSize := hengaged.capacity_eq
    have hstray := declines_strayVisits hclosed (by rw [Flash.remaining, hcapacity]; decide)
    have hback := Visit.declines_append hstray (declines_givenBack hclosed _ 0xfff (some 2))
    refine ⟨f, t, hrun, ?_, ?_⟩
    · obtain ⟨h, u, hvisits, hexclusive⟩ := session_admission hrun strayVisits
      rw [hstray.run_block] at hvisits
      cases hvisits
      exact ⟨_, t, hstray.run_block t, hexclusive, List.cons_ne_nil _ _⟩
    obtain ⟨h, u, hvisits, hexclusive⟩ := session_admission hrun
      (strayVisits ++ [.readFile {} "out" 0xfff (some 2), .openSession, .drop 0])
    rw [hback.run_block] at hvisits
    cases hvisits
    refine ⟨_, t, hback.run_block t, hexclusive, rfl, ?_⟩
    have hp : Locates 0xfff firstChip (chipOffset 0xfff).toNat := ⟨by decide, by decide⟩
    have hlegible : Legible firstChip f.controller t :=
      (Reachable.attach (Emulator.prepared_loaded ..) hrun).legible rfl
        (hengaged.unhindered rfl (by decide)) hp
    have hleft : f.remaining 0xfff ≠ 0 := by
      rw [Flash.remaining, hcapacity]
      decide
    let desk : Desk := { flash := f, workspace := {} }
    have hattached : Attached desk.flash.controller t := hengaged.ready.attached
    refine Proc.Ends.mono (Command.ends_read hattached (Bool.eq_false_iff.mp hclosed) "out" 0xfff
      (some 2)) fun r u hpost => ?_
    obtain ⟨error | ⟨⟩, d⟩ := r
    · obtain ⟨-, -, hfault⟩ := hpost
      obtain ⟨fault, bytes, -, hwrite⟩ := hfault hleft firstChip hp hlegible
      cases hwrite
    · obtain ⟨-, -, bytes, hwrite, hlen, hholds⟩ := hpost
      refine ⟨rfl, (Workspace.read_write hwrite).trans (congrArg _ ?_)⟩
      refine (hholds (hengaged.tuning ▸ rfl)).unique
        (hengaged.holdsAt_loaded (n := 0) rfl (by decide) (by decide)) (hlen.trans ?_)
      dsimp only [Flash.remaining]
      rw [hcapacity]
      decide

end NorFlash
