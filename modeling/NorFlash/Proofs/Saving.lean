import NorFlash.Proofs.Readback

/-!
# Saving — reading a range into a file

A range is read in pieces of 64 KiB, one behind the other. If all of them arrive they are what
the chip holds there, and the file is written once with all of it; if one does not, no file is
touched. Whatever faults strike on the way, no byte of a chip changes.
-/

namespace NorFlash

variable {α β σ : Type} {b : RegisterBlock σ} {st : σ} {c c' : Controller} {e m t : Emulator}
  {i : Fin maxSlaves} {f f' : Flash} {config : EmulatorConfig} {tuning : Tuning} {p : UInt64}
  {n : Nat} {data : Bytes} {s : Session} {desk : Desk}

/-! ## Files that are written -/

theorem Except.exists_of_bind_eq_ok {ε : Type} {x : Except ε α} {g : α → Except ε β} {v : β}
    (h : x >>= g = .ok v) : ∃ u, x = .ok u ∧ g u = .ok v := by
  cases x with
  | error _ => cases h
  | ok u => exact ⟨u, rfl, h⟩

namespace Workspace

variable {w w' : Workspace} {name : FileName} {parts : List (List Char)} {path : String}
  {bytes : Bytes}

/-- The workspace with a file at this name. -/
def put (w : Workspace) (name : FileName) (bytes : Bytes) : Workspace :=
  { w with files := (name, bytes) :: w.files.filter (·.1 != name) }

theorem write_eq_ok (h : w.write path bytes = .ok w') :
    ∃ parts name, partsOf path = .ok parts ∧ w.resolve parts = .ok name ∧
      w.isDirectory name = false ∧ w' = w.put name bytes := by
  rw [write] at h
  obtain ⟨parts, hparts, h⟩ := Except.exists_of_bind_eq_ok h
  cases hholder : holderParts? parts with
  | some holder =>
    rw [hholder] at h
    obtain ⟨_, -, h⟩ := Except.exists_of_bind_eq_ok h
    cases h
  | none =>
    rw [hholder] at h
    obtain ⟨name, hresolve, h⟩ := Except.exists_of_bind_eq_ok h
    by_cases hdirectory : w.isDirectory name = true
    · rw [if_pos hdirectory] at h
      cases h
    · rw [if_neg hdirectory] at h
      cases h
      exact ⟨parts, name, hparts, hresolve, Bool.eq_false_iff.mpr hdirectory, rfl⟩

theorem isDirectory_iff : w.isDirectory name = true ↔
    name.isAbove = true ∨ name = [[]] ∨ name ∈ w.directories ∨
      ∃ entry ∈ w.files, name.length < entry.1.length ∧ entry.1.take name.length = name := by
  simp only [isDirectory, Bool.or_eq_true, beq_iff_eq, List.contains_eq_mem, decide_eq_true_eq,
    List.any_eq_true, Bool.and_eq_true, or_assoc]

/-- What was a directory is one after a file was written. -/
theorem isDirectory_put {other : FileName} (h : w.isDirectory other = true) :
    (w.put name bytes).isDirectory other = true := by
  rw [isDirectory_iff] at *
  rcases h with habove | hroot | hknown | ⟨entry, hentry, hlen, htake⟩
  · exact .inl habove
  · exact .inr (.inl hroot)
  · exact .inr (.inr (.inl hknown))
  · refine .inr (.inr (.inr ?_))
    -- a file that was replaced lies where it lay
    by_cases hname : entry.1 = name
    · exact ⟨(name, bytes), List.mem_cons_self, hname ▸ hlen, hname ▸ htake⟩
    · refine ⟨entry, List.mem_cons_of_mem _ (List.mem_filter.mpr ⟨hentry, ?_⟩), hlen, htake⟩
      simpa using hname

/-- A file is no directory for being written. -/
theorem isDirectory_put_self (h : w.isDirectory name = false) :
    (w.put name bytes).isDirectory name = false := by
  rw [← Bool.not_eq_true, isDirectory_iff] at *
  intro hput
  apply h
  rcases hput with habove | hroot | hknown | ⟨entry, hentry, hlen, htake⟩
  · exact .inl habove
  · exact .inr (.inl hroot)
  · exact .inr (.inr (.inl hknown))
  · rcases List.mem_cons.mp hentry with rfl | hentry
    · exact absurd hlen (Nat.lt_irrefl _)
    · exact .inr (.inr (.inr ⟨entry, (List.mem_filter.mp hentry).1, hlen, htake⟩))

theorem find?_put : (w.put name bytes).find? name = some bytes := by
  simp only [find?, put, List.lookup_cons_self]

/-- Whether a part fits into a name does not depend on the files. -/
theorem follow_cons (part : List Char) : ∃ (long : Prop) (_ : Decidable long),
    ∀ (w : Workspace) (start : FileName) (rest : List (List Char)),
      w.follow start (part :: rest) =
        if w.isDirectory start then
          if long then .error .nameTooLong else w.follow (FileName.step start part) rest
        else if (w.find? start).isSome then .error .notDirectory
        else .error .notFound :=
  ⟨_, _, fun _ _ _ => rfl⟩

theorem follow_put {start other : FileName} (h : w.follow start parts = .ok other) :
    (w.put name bytes).follow start parts = .ok other := by
  induction parts generalizing start with
  | nil => exact h
  | cons part rest ih =>
    obtain ⟨long, _, hfollow⟩ := follow_cons part
    rw [hfollow] at *
    by_cases hdirectory : w.isDirectory start = true
    · rw [if_pos hdirectory] at h
      rw [if_pos (isDirectory_put hdirectory)]
      by_cases hlong : long
      · rw [if_pos hlong] at h
        cases h
      · rw [if_neg hlong] at *
        exact ih h
    · rw [if_neg hdirectory] at h
      split at h <;> cases h

/-- A path that means a name means it after a file was written. -/
theorem resolve_put {other : FileName} (h : w.resolve parts = .ok other) :
    (w.put name bytes).resolve parts = .ok other := by
  unfold resolve at *
  split at h
  · cases h
  · exact follow_put h
  · exact follow_put h

/-- **A file that was written is read back.** -/
theorem read_write (h : w.write path bytes = .ok w') : w'.read path = .ok bytes := by
  obtain ⟨parts, name, hparts, hresolve, hdirectory, rfl⟩ := write_eq_ok h
  simp only [read, hparts, resolve_put hresolve, isDirectory_put_self hdirectory, find?_put,
    bind, Except.bind, Bool.false_eq_true, if_false]
  rfl

end Workspace

/-! ## Reading piece by piece -/

theorem Emulator.HoldsAt.holds (h : e.HoldsAt p data) (hp : Locates p i (chipOffset p).toNat) :
    Holds e i (chipOffset p).toNat data := by
  intro k hk
  obtain ⟨j, hj, hcell⟩ := h k hk
  obtain rfl : i = j := Fin.ext (hp.slave.symm.trans hj)
  exact hcell

/-- What came of reading the `n` bytes at `p`: all that the chip holds there or a failure, and
no failure where nothing hinders the reads. -/
structure Gathered (p : UInt64) (n : Nat) (c : Controller) (e : Emulator)
    (r : Except ToolError Bytes) (c' : Controller) (t : Emulator) : Prop where
  kept : Kept c e c' t
  contents : SameContents e t
  length : ∀ bytes, r = .ok bytes → bytes.length = n
  holds : c.tuning.readDummyLen = Chip.readDummyLen →
    ∀ bytes, r = .ok bytes → e.HoldsAt p bytes
  legible : ∀ i, Locates p i (chipOffset p).toNat → Legible i c e → ∃ bytes, r = .ok bytes

/-- Nothing is there to read. -/
theorem Attached.gathered_nil (h : Attached c e) (p : UInt64) :
    Gathered p 0 c e (.ok []) c e where
  kept := h.kept
  contents := .refl e
  length _ hok := by cases hok; rfl
  holds _ _ hok := by cases hok; exact .nil e p
  legible _ _ _ := ⟨[], rfl⟩

/-- A failure that something accounts for. -/
theorem Kept.gathered_error (hk : Kept c e c' t) (hs : SameContents e t) (error : ToolError)
    (hcause : ∀ i, Locates p i (chipOffset p).toNat → ¬ Legible i c e) :
    Gathered p n c e (.error error) c' t where
  kept := hk
  contents := hs
  length _ hok := by cases hok
  holds _ _ hok := by cases hok
  legible i hp h := absurd h (hcause i hp)

namespace FlashRead

variable {arrival : Arrival} {f₁ : Flash}

/-- A piece that fails to be read was hindered. -/
theorem not_legible {error : Error} (hr : FlashRead p n f e arrival f' t)
    (hfail : arrival.outcome = .error error) (hpos : 0 < n) (hfit : n ≤ f.remaining p)
    (i : Fin maxSlaves) (hp : Locates p i (chipOffset p).toNat) :
    ¬ Legible i f.controller e := by
  intro h
  rw [h.attached.remaining_eq] at hfit
  have hall := hr.all h hp hpos (by omega)
  rw [hall.ok] at hfail
  cases hfail

/-- A piece that was read, and what came of the rest. -/
theorem gathered {r : Except ToolError Bytes} {k : Nat}
    (hr : FlashRead p k f e arrival f₁ m) (hok : arrival.outcome = .ok ()) (hpos : 0 < k)
    (h : Attached f.controller e) (hfit : k + n ≤ f.remaining p)
    (hrest : Gathered (UInt64.ofNat (p.toNat + k)) n f₁.controller m r c' t) :
    Gathered p (k + n) f.controller e (r.map (arrival.bytes ++ ·)) c' t := by
  have hremaining := h.remaining_eq p
  have hlen : arrival.bytes.length = k := by
    rw [hr.done hok]
    omega
  obtain ⟨i, hp⟩ := hr.located (List.length_pos_iff.mp (hlen ▸ hpos))
  obtain ⟨-, hplace⟩ := hp.advance (n := k) (h.lt_word32 (by omega))
  have hplace' := hplace
  rw [← hplace.chipOffset_eq] at hplace'
  refine ⟨hr.kept.trans hrest.kept, hr.contents.trans hrest.contents, ?_, ?_, ?_⟩
  · intro bytes hbytes
    cases r with
    | error error => cases hbytes
    | ok rest =>
      cases hbytes
      rw [List.length_append, hlen, hrest.length rest rfl]
  · intro hdummy bytes hbytes
    cases r with
    | error error => cases hbytes
    | ok rest =>
      cases hbytes
      have hback := (hrest.holds (hr.kept.tuning ▸ hdummy) rest rfl).holds hplace'
      rw [hplace.chipOffset_eq, ← hlen] at hback
      exact ((hr.holds hdummy i hp).append fun j hj =>
        (hr.contents.cell i _).symm.trans (hback j hj)).holdsAt hp
  · intro j hj hlegible
    obtain rfl : i = j := (hp.unique hj).1
    obtain ⟨rest, rfl⟩ :=
      hrest.legible i hplace' (hr.all hlegible hp hpos (by omega)).legible
    exact ⟨arrival.bytes ++ rest, rfl⟩

end FlashRead

namespace Command

/-- The pieces of a range. What was read before, the newest byte first, stays in front. -/
theorem ends_readPieces (h : Attached f.controller e) {fuel left : Nat} (got : Bytes)
    (hfuel : left ≤ fuel) (hfit : left ≤ f.remaining s.position) :
    (readPieces fuel left got s f).Ends Emulator.block e fun r t =>
      ∃ q, r.1.1 = q.map (got.reverse ++ ·) ∧
        Gathered s.position left f.controller e q r.2.controller t := by
  induction fuel generalizing left got s f e with
  | zero =>
    obtain rfl : left = 0 := by omega
    rw [readPieces]
    exact Proc.Ends.pure ⟨.ok [], by rw [Except.map, List.append_nil], h.gathered_nil _⟩
  | succ fuel ih =>
    cases left with
    | zero =>
      rw [readPieces]
      exact Proc.Ends.pure ⟨.ok [], by rw [Except.map, List.append_nil], h.gathered_nil _⟩
    | succ left =>
      rw [readPieces]
      have hsize : 0 < pieceSize := by decide
      have hpos : 0 < min (left + 1) pieceSize := by omega
      have hle : min (left + 1) pieceSize ≤ left + 1 := Nat.min_le_left _ _
      refine Proc.Ends.bind_call (h.ends_sessionRead s _) fun arrival s' f₁ m hpost => ?_
      obtain ⟨hread, hmoved, -⟩ := hpost
      generalize min (left + 1) pieceSize = k at *
      obtain ⟨bytes, outcome⟩ := arrival
      dsimp only at hread hmoved ⊢
      cases outcome with
      | error error =>
        exact Proc.Ends.pure ⟨_, rfl, hread.kept.gathered_error hread.contents _
          (hread.not_legible rfl hpos (by omega))⟩
      | ok =>
        obtain rfl : s' = s.moved bytes.length := hmoved rfl
        obtain rfl : bytes.length = k := by
          rw [hread.done rfl]
          omega
        have hne : bytes ≠ [] := List.length_pos_iff.mp hpos
        dsimp only
        rw [if_neg (mt List.isEmpty_iff.mp hne)]
        obtain ⟨i, hp⟩ := hread.located hne
        have hremaining := h.remaining_eq s.position
        obtain ⟨-, hplace⟩ := hp.advance (n := bytes.length) (h.lt_word32 (by omega))
        -- behind the piece there is still room for the rest
        have hafter : f₁.remaining (s.moved bytes.length).position =
            f.remaining s.position - bytes.length := by
          rw [hread.kept.attached.remaining_eq, hread.kept.config, Session.moved,
            hplace.chipOffset_eq, hremaining]
          omega
        refine (ih hread.kept.attached _ (by omega) (by omega)).mono fun r t hrest => ?_
        obtain ⟨q, hq, hrest⟩ := hrest
        refine ⟨q.map (bytes ++ ·), ?_, ?_⟩
        · rw [hq]
          cases q with
          | error error => rfl
          | ok rest => simp [Except.map, List.reverseAux_eq]
        · have hwhole := hread.gathered rfl hpos h (by omega) hrest
          rwa [Nat.add_sub_of_le hle] at hwhole

/-- A range that is read: how much of it there is, and what the chip holds there. -/
theorem ends_readRange (h : Attached desk.flash.controller e)
    (hclosed : ¬ desk.flash.sessionOpen = true) (p : UInt64) (length : Option Nat) :
    Ends Emulator.block (readRange p length) desk e
      (fun bytes d t => d.workspace = desk.workspace ∧ SameContents e t ∧
        desk.flash.remaining p ≠ 0 ∧
        bytes.length = min (length.getD (desk.flash.remaining p)) (desk.flash.remaining p) ∧
        (desk.flash.controller.tuning.readDummyLen = Chip.readDummyLen → e.HoldsAt p bytes))
      (fun _ d t => d.workspace = desk.workspace ∧ SameContents e t ∧
        (desk.flash.remaining p ≠ 0 → ∀ i, Locates p i (chipOffset p).toNat →
          ¬ Legible i desk.flash.controller e)) := by
  by_cases hzero : desk.flash.remaining p = 0
  · rw [Ends, readRange, run_bind_error (run_remainingFrom hzero)]
    exact Proc.Ends.pure ⟨rfl, .refl e, fun hne => absurd hzero hne⟩
  refine .step (run_remainingFrom_ok hzero) ?_
  dsimp only
  generalize htotal : min (length.getD (desk.flash.remaining p)) (desk.flash.remaining p) = total
  refine (ends_withSession hclosed (A := fun r f t =>
    Gathered p total desk.flash.controller e r f.controller t) (fun _ => ?_) fun hfar => ?_).mono
      ?_ ?_
  · refine (ends_readPieces (f := { desk.flash with sessionOpen := true })
      (s := { position := p }) h [] (Nat.le_refl total) (htotal ▸ Nat.min_le_right _ _)).mono
        fun r t hpost => ?_
    obtain ⟨q, hq, hgathered⟩ := hpost
    rw [hq]
    cases q <;> exact hgathered
  · exact h.kept.gathered_error (.refl e) _ fun i hp _ => hfar hp.le_maxPosition
  · intro bytes d t hpost
    obtain ⟨f, hgathered, rfl⟩ := hpost
    exact ⟨rfl, hgathered.contents, hzero, hgathered.length bytes rfl,
      fun hdummy => hgathered.holds hdummy bytes rfl⟩
  · intro error d t hpost
    obtain ⟨f, hgathered, rfl⟩ := hpost
    refine ⟨rfl, hgathered.contents, fun _ i hp hlegible => ?_⟩
    obtain ⟨bytes, hok⟩ := hgathered.legible i hp hlegible
    cases hok

/-- A file is written at once, or the workspace stays as it is. -/
theorem ends_writeFile (path : String) (bytes : Bytes) :
    Ends b (writeFile path bytes) desk st
      (fun _ d t => desk.workspace.write path bytes = .ok d.workspace ∧ t = st)
      (fun error d t => d = desk ∧ t = st ∧
        ∃ fault, error = .file fault ∧ desk.workspace.write path bytes = .error fault) := by
  rw [Ends, writeFile, run_get_bind]
  cases hwrite : desk.workspace.write path bytes with
  | error fault => exact Proc.Ends.pure ⟨rfl, rfl, fault, rfl, rfl⟩
  | ok w => exact Proc.Ends.pure ⟨rfl, rfl⟩

/-- A range that is read into a file, and what a failure leaves. -/
theorem ends_read (h : Attached desk.flash.controller e)
    (hclosed : ¬ desk.flash.sessionOpen = true) (output : String) (p : UInt64)
    (length : Option Nat) :
    Ends Emulator.block (read output p length) desk e
      (fun _ d t => SameContents e t ∧ desk.flash.remaining p ≠ 0 ∧
        ∃ bytes, desk.workspace.write output bytes = .ok d.workspace ∧
          bytes.length = min (length.getD (desk.flash.remaining p)) (desk.flash.remaining p) ∧
          (desk.flash.controller.tuning.readDummyLen = Chip.readDummyLen → e.HoldsAt p bytes))
      (fun error d t => d.workspace = desk.workspace ∧ SameContents e t ∧
        (desk.flash.remaining p ≠ 0 → ∀ i, Locates p i (chipOffset p).toNat →
          Legible i desk.flash.controller e → ∃ fault bytes, error = .file fault ∧
            desk.workspace.write output bytes = .error fault)) := by
  refine .bind ((ends_readRange h hclosed p length).mono (fun _ _ _ => id) ?_) ?_
  · intro error d t hpost
    obtain ⟨hworkspace, hsame, hcause⟩ := hpost
    exact ⟨hworkspace, hsame, fun hne i hp hlegible => absurd hlegible (hcause hne i hp)⟩
  · intro bytes d m hrange
    obtain ⟨hworkspace, hsame, hne, hlen, hholds⟩ := hrange
    refine .bind ((ends_writeFile output bytes).mono (fun _ _ _ => id) ?_) ?_
    · intro error d' t hpost
      obtain ⟨rfl, rfl, fault, rfl, hfault⟩ := hpost
      rw [hworkspace] at hfault
      exact ⟨hworkspace, hsame, fun _ _ _ _ => ⟨fault, bytes, rfl, hfault⟩⟩
    · intro _ d' t hpost
      obtain ⟨hwrite, rfl⟩ := hpost
      rw [hworkspace] at hwrite
      exact Proc.Ends.pure ⟨hsame, hne, bytes, hwrite, hlen, hholds⟩

end Command

/-- **A range is saved exactly, or no file is touched.** Whatever faults strike, a read that
ends well started inside the chip, and its file holds what the chip holds from the offset on, up
to the end of the chip unless fewer bytes were asked for. A read that fails leaves the files
alone, and no byte of a chip changes. Where nothing hinders it, a read inside the chip fails
only if its file cannot be written. -/
theorem Reachable.read_saves (h : Reachable config tuning f e)
    (hdummy : tuning.readDummyLen = Chip.readDummyLen) (hclosed : f.sessionOpen = false)
    (hdesk : desk.flash = f) (output : String) (p : UInt64) (length : Option Nat) :
    ((Command.read output p length).run desk).Ends Emulator.block e fun r t =>
      (∀ i b, t.cell i b = e.cell i b) ∧
      (r.1 = .ok () → (chipOffset p).toNat < f.capacity ∧ ∃ bytes,
        r.2.workspace.read output = .ok bytes ∧
        desk.workspace.write output bytes = .ok r.2.workspace ∧
        bytes.length = min (length.getD (f.capacity - (chipOffset p).toNat))
          (f.capacity - (chipOffset p).toNat) ∧
        e.HoldsAt p bytes) ∧
      (∀ error, r.1 = .error error → r.2.workspace = desk.workspace) ∧
      (Unhindered p tuning e → (chipOffset p).toNat < f.capacity →
        ∀ error, r.1 = .error error → ∃ fault bytes, error = .file fault ∧
          desk.workspace.write output bytes = .error fault) := by
  subst hdesk
  obtain ⟨hattached, htuning, -⟩ := h.invariant (by rw [hdummy]; decide)
  have hread := Command.ends_read hattached (Bool.eq_false_iff.mp hclosed) output p length
  rw [Flash.remaining] at hread
  refine Proc.Ends.mono hread fun r t hpost => ?_
  obtain ⟨error | ⟨⟩, d⟩ := r
  · obtain ⟨hworkspace, hsame, hfault⟩ := hpost
    refine ⟨hsame.cell, fun hok => ?_, fun _ _ => hworkspace, fun hclear hin error' herror => ?_⟩
    · cases hok
    cases herror
    obtain ⟨i, hslave, -⟩ := hclear.responsive
    have hp : Locates p i (chipOffset p).toNat := ⟨hslave, (chipOffset_toNat p).symm⟩
    exact hfault (Nat.sub_ne_zero_of_lt hin) i hp (h.legible hdummy hclear hp)
  · obtain ⟨hsame, hne, bytes, hwrite, hlen, hholds⟩ := hpost
    refine ⟨hsame.cell, fun _ => ⟨Nat.lt_of_sub_ne_zero hne, bytes, Workspace.read_write hwrite,
      hwrite, hlen, hholds (htuning ▸ hdummy)⟩, fun _ herror => ?_, fun _ _ _ herror => ?_⟩
    all_goals cases herror

/-- Two bytes that a chip holds and the erased one behind them are read into a file. -/
theorem read_saves_default :
    ∃ f e, Reachable {} {} f e ∧
      ((Command.read "out" 0x10 (some 3)).run { flash := f, workspace := {} }).Ends
        Emulator.block e fun r _ =>
          r.1 = .ok () ∧ r.2.workspace.read "out" = .ok [0x5a, 0xa5, 0xff] := by
  have hprepared := Emulator.prepared_loaded {} 0x10 [0x5a, 0xa5]
  obtain ⟨r, e, hrun, hr⟩ := hprepared.ends_attach {} (by decide)
  cases r with
  | error error => exact absurd (attachable_default.loaded _ _) hr
  | ok f =>
    have hengaged : Engaged {} (.loaded {} 0x10 [0x5a, 0xa5]) f.controller e := hr
    have hreachable : Reachable {} {} f e := .attach hprepared hrun
    have hclosed : f.sessionOpen = false := (Flash.closed_of_attach hrun).2
    have hcapacity : f.capacity = sectorSize := hengaged.capacity_eq
    have hin : (chipOffset 0x10).toNat < f.capacity := by
      rw [hcapacity]
      decide
    have hwrite : ∀ bytes, ({} : Workspace).write "out" bytes =
        .ok { files := [(["out".toList], bytes)] } := fun _ => rfl
    refine ⟨f, e, hreachable, (hreachable.read_saves rfl hclosed rfl "out" 0x10
      (some 3)).mono fun r t hpost => ?_⟩
    obtain ⟨-, hok, -, hfile⟩ := hpost
    have hclear := hengaged.unhindered (p := 0x10) rfl (by decide)
    have hgood : r.1 = .ok () := by
      cases hresult : r.1 with
      | ok _ => rfl
      | error error =>
        obtain ⟨fault, bytes, -, hfault⟩ := hfile hclear hin error hresult
        rw [hwrite] at hfault
        cases hfault
    obtain ⟨-, bytes, hread, -, hlen, hholds⟩ := hok hgood
    refine ⟨hgood, hread.trans (congrArg _ ?_)⟩
    refine hholds.unique (hengaged.holdsAt_loaded (n := 1) rfl (by decide) (by decide)) ?_
    rw [hlen, hcapacity]
    decide

end NorFlash
