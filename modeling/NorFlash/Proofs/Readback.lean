import NorFlash.Proofs.Admission

/-!
# Readback — comparing a chip with expected bytes

On a chip that nothing hinders a read brings all that it is asked for, and leaves the chip
as free as it was: the chip was waited for, so it is not busy afterwards. A comparison reads
pieces of 64 KiB one behind the other. It passes if the chip holds the expected bytes, and
else names the first place at which it does not.
-/

namespace NorFlash

variable {α β σ : Type} {b : RegisterBlock σ} {st : σ} {c c' : Controller} {e m t : Emulator}
  {i : Fin maxSlaves} {f f' : Flash} {config : EmulatorConfig} {tuning : Tuning}
  {p offset : UInt64} {a n j : Nat} {data front back : Bytes} {desk : Desk}

/-! ## What a chip holds, and where it differs -/

/-- At most one buffer of a length stands at a place. -/
theorem Holds.unique (h : Holds e i a front) (h' : Holds e i a back)
    (hlen : front.length = back.length) : front = back :=
  List.ext_getElem hlen fun k hk hk' => (h k hk).symm.trans (h' k hk')

theorem holds_iff_readRange :
    Holds e i a data ↔ (e.chip i).contents.readRange a data.length = data := by
  have hrange := holds_readRange e i a data.length
  constructor
  · exact fun h => hrange.unique h (PageStore.length_readRange _ _ _)
  · intro h
    rwa [h] at hrange

/-- The chip holds the first `j` bytes of the data at `a`, and not the next one. -/
structure DiffersAt (e : Emulator) (i : Fin maxSlaves) (a : Nat) (data : Bytes) (j : Nat) :
    Prop where
  front : Holds e i a (data.take j)
  differs : ∃ h : j < data.length, e.cell i (a + j) ≠ data[j]

namespace DiffersAt

theorem not_holds (h : DiffersAt e i a data j) : ¬ Holds e i a data := by
  intro hholds
  obtain ⟨hlt, hne⟩ := h.differs
  exact hne (hholds j hlt)

theorem append (h : DiffersAt e i a front j) (back : Bytes) :
    DiffersAt e i a (front ++ back) j := by
  obtain ⟨hlt, hne⟩ := h.differs
  refine ⟨?_, by rw [List.length_append]; omega, ?_⟩
  · rw [List.take_append_of_le_length (Nat.le_of_lt hlt)]
    exact h.front
  · rw [List.getElem_append_left hlt]
    exact hne

/-- A difference behind a front that the chip holds. -/
theorem behind (h : DiffersAt e i (a + front.length) back j) (hfront : Holds e i a front) :
    DiffersAt e i a (front ++ back) (front.length + j) := by
  obtain ⟨hlt, hne⟩ := h.differs
  refine ⟨?_, by rw [List.length_append]; omega, ?_⟩
  · rw [List.take_length_add_append]
    exact hfront.append h.front
  · rw [List.getElem_append_right (Nat.le_add_right _ _)]
    simpa [Nat.add_assoc] using hne

theorem of_contents (h : DiffersAt t i a data j) (hs : SameContents e t) :
    DiffersAt e i a data j := by
  obtain ⟨hlt, hne⟩ := h.differs
  refine ⟨fun k hk => ?_, hlt, ?_⟩
  · rw [← hs.cell]
    exact h.front k hk
  · rwa [← hs.cell]

end DiffersAt

/-- Two buffers of one length are compared: what stands at a place, and what should. -/
theorem Holds.compare (h : Holds e i a front) (hlen : front.length = data.length) :
    match Bytes.mismatch? front data with
    | none => Holds e i a data
    | some j => DiffersAt e i a data j := by
  cases hcompare : Bytes.mismatch? front data with
  | none =>
    rw [Bytes.mismatch?_eq_none hlen hcompare] at h
    exact h
  | some j =>
    obtain ⟨hfront, hdata, hne, htake⟩ := Bytes.mismatch?_eq_some hcompare
    refine ⟨htake ▸ h.take j, hdata, ?_⟩
    rw [h j hfront]
    exact hne

/-! ## Reads that nothing hinders -/

/-- Where no fault is armed and the FIFOs can be emptied, a call leaves it so. -/
theorem Kept.clear (hk : Kept c e c' t) (hunarmed : e.armed = none) (hfree : ¬ e.Blocked) :
    t.armed = none ∧ ¬ t.Blocked := by
  refine ⟨hk.unarmed hunarmed, (hk.harmless ⟨hfree, fun plan hplan => ?_⟩).free⟩
  rw [hunarmed] at hplan
  cases hplan

/-- Nothing hinders reads of chip `i`, and they bring what it holds. -/
structure Legible (i : Fin maxSlaves) (c : Controller) (e : Emulator) : Prop where
  attached : Attached c e
  dummy : c.tuning.readDummyLen = Chip.readDummyLen
  unarmed : e.armed = none
  free : ¬ e.Blocked
  timely : (e.chip i).busy.toNat ≤ c.tuning.pollBudget.maxPolls

/-- All `n` bytes of the range at `a` arrived, and reads are not hindered after it. -/
structure ReadAll (i : Fin maxSlaves) (a n : Nat) (c : Controller) (e : Emulator)
    (arrival : Arrival) (c' : Controller) (t : Emulator) : Prop where
  ok : arrival.outcome = .ok ()
  length : arrival.bytes.length = n
  holds : Holds e i a arrival.bytes
  kept : Kept c e c' t
  contents : SameContents e t
  legible : Legible i c' t

/-- A read of bytes that the chip has brings them all. A chip that was waited for is ready
after the read, however long its programs and erases take. -/
theorem FlashRead.all {arrival : Arrival} (hr : FlashRead p n f e arrival f' t)
    (h : Legible i f.controller e) (hp : Locates p i a) (hpos : 0 < n)
    (hfit : a + n ≤ e.config.capacity) :
    ReadAll i a n f.controller e arrival f'.controller t := by
  have hplace : Locates p i (chipOffset p).toNat := hp.chipOffset_eq ▸ hp
  have hremaining : f.remaining p = e.config.capacity - a := by
    rw [h.attached.remaining_eq, hp.chipOffset_eq]
  have hok : arrival.outcome = .ok () := by
    refine Classical.byContradiction fun hne => ?_
    rcases hr.cause hne ⟨i, hp.slave, h.timely⟩ with hb | hn
    · exact h.free hb
    · exact hn (Emulator.Unarmed.spares h.unarmed)
  have hlen : arrival.bytes.length = n := by
    rw [hr.done hok]
    omega
  have hne : arrival.bytes ≠ [] := List.length_pos_iff.mp (hlen ▸ hpos)
  obtain ⟨hunarmed, hfree⟩ := hr.kept.clear h.unarmed h.free
  have hholds := hr.holds h.dummy i hplace
  rw [hp.chipOffset_eq] at hholds
  refine ⟨hok, hlen, hholds, hr.kept, hr.contents, hr.kept.attached, ?_, hunarmed, hfree, ?_⟩
  · rw [hr.kept.tuning]
    exact h.dummy
  · rw [hr.idle hok hne i hplace]
    exact Nat.zero_le _

theorem Legible.ends_readAt (h : Legible i f.controller e) (hp : Locates p i a) (hpos : 0 < n)
    (hfit : a + n ≤ e.config.capacity) :
    (Flash.readAt p n f).Ends Emulator.block e fun r t =>
      ReadAll i a n f.controller e r.1 r.2.controller t := by
  have hremaining : f.remaining p = e.config.capacity - a := by
    rw [h.attached.remaining_eq, hp.chipOffset_eq]
  refine (h.attached.ends_readAt p n).mono fun r t hpost => ?_
  rcases hpost with ⟨hlt, -⟩ | ⟨-, hread⟩
  · omega
  · exact hread.all h hp hpos hfit

/-- A reachable flash on which nothing hinders a call at the offset. -/
theorem Reachable.legible (h : Reachable config tuning f e)
    (hdummy : tuning.readDummyLen = Chip.readDummyLen) (hclear : Unhindered p tuning e)
    (hp : Locates p i a) : Legible i f.controller e := by
  obtain ⟨hattached, htuning, -⟩ := h.invariant (by rw [hdummy]; decide)
  obtain ⟨j, hj, htimely⟩ := hclear.responsive
  obtain rfl : j = i := Fin.ext (hj.symm.trans hp.slave)
  exact ⟨hattached, htuning ▸ hdummy, hclear.unarmed, hclear.free, htuning ▸ htimely⟩

/-! ## Commands by their ends -/

/-- A seek from the front goes to any signed position. -/
theorem Session.seek_start (s : Session) (offset : UInt64) :
    s.seek (.start offset) =
      if (offset.toNat : Int) ≤ maxPosition then .ok { position := offset }
      else .error .seekOutOfRange := by
  rw [seek_of_target rfl, Option.filter_some]
  by_cases h : (offset.toNat : Int) ≤ maxPosition <;> simp [h]

/-- Places on a chip are signed positions. -/
theorem Locates.le_maxPosition (h : Locates p i a) : (p.toNat : Int) ≤ Session.maxPosition := by
  have hlt := p.toNat_lt
  have hslave := h.slave
  have hi := i.isLt
  simp only [Address.ofOffset, Address.slaveWeight, UInt8.toNat_ofNat', maxSlaves,
    Session.maxPosition, signedLimit] at *
  omega

namespace Command

/-- The command ends with `A`, or fails with `E`; both see the desk as it is left behind. -/
def Ends (b : RegisterBlock σ) (x : Command α) (desk : Desk) (st : σ) (A : α → Desk → σ → Prop)
    (E : ToolError → Desk → σ → Prop) : Prop :=
  (x.run desk).Ends b st fun r t =>
    match r.1 with
    | .ok v => A v r.2 t
    | .error error => E error r.2 t

namespace Ends

variable {x : Command α} {g : α → Command β} {M A : α → Desk → σ → Prop} {B : β → Desk → σ → Prop}
  {E D : ToolError → Desk → σ → Prop}

theorem mono (h : Ends b x desk st M D) (hok : ∀ v d t, M v d t → A v d t)
    (herr : ∀ error d t, D error d t → E error d t) : Ends b x desk st A E := by
  refine Proc.Ends.mono h fun r t => ?_
  obtain ⟨error | v, d⟩ := r
  · exact herr error d t
  · exact hok v d t

theorem pure {v : α} (h : A v desk st) : Ends b (Pure.pure v) desk st A E :=
  Proc.Ends.pure h

theorem throw {error : ToolError} (h : E error desk st) :
    Ends b (MonadExcept.throw error : Command α) desk st A E :=
  Proc.Ends.pure h

theorem bind (hx : Ends b x desk st M E)
    (hg : ∀ v d t, M v d t → Ends b (g v) d t B E) : Ends b (x >>= g) desk st B E := by
  refine Proc.Ends.bind hx fun r t hr => ?_
  obtain ⟨error | v, d⟩ := r
  · exact Proc.Ends.pure hr
  · exact hg v d t hr

/-- A step that reads and writes no register. -/
theorem step {v : α} {d : Desk} (hx : x.run desk = Pure.pure (.ok v, d))
    (hg : Ends b (g v) d st B E) : Ends b (x >>= g) desk st B E := by
  rw [Ends, run_bind_ok hx]
  exact hg

/-- A step that does not use the desk and whose run is known. -/
theorem step_lift {q : Proc α} {v : α} {st' : σ} (hq : q.run b st = (some v, st'))
    (hg : Ends b (g v) desk st' B E) : Ends b (liftM q >>= g) desk st B E := by
  refine bind (M := fun v' d t => v' = v ∧ d = desk ∧ t = st') ?_ fun v' d t hpost => ?_
  · refine Proc.Ends.bind (M := fun r t => r = (v, desk) ∧ t = st')
      (Proc.Ends.step hq (Proc.Ends.pure ⟨rfl, rfl⟩)) fun r t hpost => ?_
    obtain ⟨rfl, rfl⟩ := hpost
    exact Proc.Ends.pure ⟨rfl, rfl, rfl⟩
  · obtain ⟨rfl, rfl, rfl⟩ := hpost
    exact hg

theorem onFlash {y : FlashProc α}
    (hy : (y desk.flash).Ends b st fun r t => A r.1 { desk with flash := r.2 } t) :
    Ends b (onFlash y) desk st A E :=
  Proc.Ends.bind (Proc.Ends.bind hy fun _ _ h => Proc.Ends.pure h) fun _ _ h =>
    Proc.Ends.pure h

end Ends

/-- Something that is done in a session, where none is open. The session is closed again,
also if its start is no position that a session can be at. -/
theorem ends_withSession {body : Session.Call (Except ToolError α)}
    {A : Except ToolError α → Flash → σ → Prop} (hclosed : ¬ desk.flash.sessionOpen = true)
    (hnear : (offset.toNat : Int) ≤ Session.maxPosition →
      (body { position := offset } { desk.flash with sessionOpen := true }).Ends b st
        fun r t => A r.1.1 r.2 t)
    (hfar : ¬ (offset.toNat : Int) ≤ Session.maxPosition →
      A (.error (.session .seekOutOfRange)) { desk.flash with sessionOpen := true } st) :
    Ends b (withSession offset body) desk st
      (fun v d t => ∃ f, A (.ok v) f t ∧
        d = { desk with flash := { f with sessionOpen := false } })
      (fun error d t => ∃ f, A (.error error) f t ∧
        d = { desk with flash := { f with sessionOpen := false } }) := by
  have hstart : (startingAt offset body {} { desk.flash with sessionOpen := true }).Ends b st
      fun r t => A r.1 r.2 t := by
    rw [startingAt, Session.seek_start]
    by_cases hposition : (offset.toNat : Int) ≤ Session.maxPosition
    · rw [if_pos hposition]
      exact Proc.Ends.bind (hnear hposition) fun _ _ ha => Proc.Ends.pure ha
    · rw [if_neg hposition]
      exact Proc.Ends.pure (hfar hposition)
  refine .bind (.onFlash (A := fun result d t => ∃ f, A result f t ∧
    d = { desk with flash := { f with sessionOpen := false } }) ?_) fun result d t hpost => ?_
  · show (Session.openOn desk.flash >>= _).Ends b st _
    rw [Session.openOn_eq, Session.openLaw, if_neg hclosed]
    show (startingAt offset body {} _ >>= _).Ends b st _
    exact Proc.Ends.bind hstart fun r t ha => Proc.Ends.pure ⟨r.2, ha, rfl⟩
  · cases result <;> exact Proc.Ends.pure hpost

end Command

/-! ## Comparing -/

/-- The chip holds what is expected at `a`. -/
structure Passed (i : Fin maxSlaves) (a : Nat) (data : Bytes) (c : Controller) (e : Emulator)
    (c' : Controller) (t : Emulator) : Prop where
  holds : Holds e i a data
  kept : Kept c e c' t
  contents : SameContents e t

/-- The chip does not hold what is expected at `a`. The error names the first byte that
differs, counted from the offset `start` on. -/
structure Refuted (i : Fin maxSlaves) (a : Nat) (data : Bytes) (start : Nat) (e : Emulator)
    (error : ToolError) (t : Emulator) : Prop where
  contents : SameContents e t
  differs : ∃ j q, DiffersAt e i a data j ∧ error = .verifyFailed q ∧ q.toNat = start + j

section Pieces

variable {c₁ : Controller} {arrival : Arrival} {start : Nat} {error : ToolError}

theorem Attached.passed_nil (h : Attached c e) (i : Fin maxSlaves) (a : Nat) :
    Passed i a [] c e c e :=
  ⟨.nil e i a, h.kept, .refl e⟩

theorem Passed.append (h : Passed i a front c e c₁ m)
    (h' : Passed i (a + front.length) back c₁ m c' t) : Passed i a (front ++ back) c e c' t where
  holds := h.holds.append fun k hk => (h.contents.cell i _).symm.trans (h'.holds k hk)
  kept := h.kept.trans h'.kept
  contents := h.contents.trans h'.contents

/-- A difference behind a front that passed. -/
theorem Passed.refuted (h : Passed i a front c e c₁ m)
    (h' : Refuted i (a + front.length) back (start + front.length) m error t) :
    Refuted i a (front ++ back) start e error t := by
  obtain ⟨hsame, j, q, hdiffers, rfl, hq⟩ := h'
  refine ⟨h.contents.trans hsame, front.length + j, q, ?_, rfl, by omega⟩
  exact (hdiffers.of_contents h.contents).behind h.holds

theorem ReadAll.passed (h : ReadAll i a data.length c e arrival c' t)
    (hnone : Bytes.mismatch? arrival.bytes data = none) : Passed i a data c e c' t := by
  have hcompare := h.holds.compare h.length
  rw [hnone] at hcompare
  exact ⟨hcompare, h.kept, h.contents⟩

theorem ReadAll.differs (h : ReadAll i a data.length c e arrival c' t)
    (hsome : Bytes.mismatch? arrival.bytes data = some j) : DiffersAt e i a data j := by
  have hcompare := h.holds.compare h.length
  rw [hsome] at hcompare
  exact hcompare

end Pieces

namespace Command

/-- Pieces are compared one behind the other, up to the first difference. -/
theorem ends_verifyPieces (h : Legible i desk.flash.controller e) (hp : Locates offset i a)
    {fuel k done : Nat} (hdone : k * pieceSize = done) {rest : Bytes} (hfuel : rest.length ≤ fuel)
    (hfit : rest ≠ [] → a + done + rest.length ≤ e.config.capacity) :
    Ends Emulator.block (verifyPieces offset fuel k rest) desk e
      (fun _ d t => Passed i (a + done) rest desk.flash.controller e d.flash.controller t)
      (fun error _ t => Refuted i (a + done) rest (offset.toNat + done) e error t) := by
  induction fuel generalizing k done rest desk e with
  | zero =>
    obtain rfl : rest = [] := List.eq_nil_of_length_eq_zero (by omega)
    exact .pure (h.attached.passed_nil i _)
  | succ fuel ih =>
    cases rest with
    | nil => exact .pure (h.attached.passed_nil i _)
    | cons byte more =>
      have hfit := hfit (List.cons_ne_nil _ _)
      have hlt := h.attached.lt_word32 hfit
      obtain ⟨hword, hplace⟩ := hp.advance (n := done) (by omega)
      rw [verifyPieces]
      have hsize : 0 < pieceSize := by decide
      have hpiece : (byte :: more).take pieceSize ≠ [] := List.cons_ne_nil _ _
      have hsplit := List.take_append_drop pieceSize (byte :: more)
      have hlen : ((byte :: more).take pieceSize).length = min pieceSize (byte :: more).length :=
        List.length_take
      have hrest : ((byte :: more).drop pieceSize).length = (byte :: more).length - pieceSize :=
        List.length_drop
      -- the shape of the buffer mattered for the loop only
      generalize (byte :: more).take pieceSize = piece at *
      generalize (byte :: more).drop pieceSize = later at *
      generalize byte :: more = rest at *
      have hpos := List.length_pos_iff.mpr hpiece
      refine .step_lift (Proc.run_count (lt_wordLimit_of_word32 (by omega))) ?_
      rw [hdone]
      refine .step_lift (Proc.run_advance hword) ?_
      refine .step_lift (Proc.run_slice (Nat.zero_le _) (by omega)) ?_
      rw [Nat.sub_zero]
      refine .bind (.onFlash (A := fun arrival d t => ReadAll i (a + done) piece.length
        desk.flash.controller e arrival d.flash.controller t)
        (h.ends_readAt hplace hpos (by omega))) fun arrival d m hread => ?_
      rw [hread.ok]
      dsimp only
      cases hmismatch : Bytes.mismatch? arrival.bytes piece with
      | some j =>
        have hdiffers := hread.differs hmismatch
        obtain ⟨hj, -⟩ := hdiffers.differs
        obtain ⟨hword', -⟩ := hplace.advance (n := j) (by omega)
        refine .step_lift (Proc.run_advance hword') (.throw ⟨hread.contents, j, _, ?_, rfl, ?_⟩)
        · exact hsplit ▸ hdiffers.append later
        · rw [UInt64.toNat_ofNat_of_lt' hword', UInt64.toNat_ofNat_of_lt' hword]
      | none =>
        have hpassed := hread.passed hmismatch
        by_cases hlater : later = []
        · -- the last piece, which may be a short one
          subst hlater
          rw [List.append_nil] at hsplit
          subst hsplit
          cases fuel <;> exact .pure hpassed
        have hfull : piece.length = pieceSize := by
          have := List.length_pos_iff.mpr hlater
          omega
        rw [← hfull] at hrest
        have hfits : later ≠ [] → a + (done + piece.length) + later.length ≤ m.config.capacity :=
          fun _ => by rw [hread.kept.config]; omega
        have hmore : (k + 1) * pieceSize = done + piece.length := by
          rw [Nat.add_mul, Nat.one_mul, hdone, hfull]
        have hnext := ih hread.legible hmore (by omega) hfits
        rw [← Nat.add_assoc, ← Nat.add_assoc] at hnext
        rw [← hsplit]
        exact hnext.mono (fun _ _ _ hlast => hpassed.append hlast)
          fun _ _ _ hlast => hpassed.refuted hlast

theorem ends_verify (h : Legible i desk.flash.controller e) (hp : Locates offset i a)
    (hfit : a + data.length ≤ e.config.capacity) :
    Ends Emulator.block (verify offset data) desk e
      (fun _ d t => Passed i a data desk.flash.controller e d.flash.controller t)
      (fun error _ t => Refuted i a data offset.toNat e error t) := by
  have hpieces := ends_verifyPieces h hp (k := 0) (Nat.zero_mul _) (Nat.le_refl data.length)
    fun _ => hfit
  simp only [Nat.add_zero] at hpieces
  exact hpieces

end Command

/-- **Verification is exact.** On a chip that nothing hinders a comparison passes if and only
if the chip holds the expected bytes at the offset, whatever the pieces it is read in; else it
names the first offset at which it does not. No byte of any chip changes. -/
theorem Reachable.verify_exact (h : Reachable config tuning f e)
    (hdummy : tuning.readDummyLen = Chip.readDummyLen) (hclear : Unhindered p tuning e)
    (hslave : (Address.ofOffset p).slave.toNat = i.val) (expected : Bytes)
    (hfit : (chipOffset p).toNat + expected.length ≤ f.capacity) (hdesk : desk.flash = f) :
    ((Command.verify p expected).run desk).Ends Emulator.block e fun r t =>
      (r.1 = .ok () ↔
        (e.chip i).contents.readRange (chipOffset p).toNat expected.length = expected) ∧
      ((e.chip i).contents.readRange (chipOffset p).toNat expected.length ≠ expected →
        ∃ j q, DiffersAt e i (chipOffset p).toNat expected j ∧
          r.1 = .error (.verifyFailed q) ∧ q.toNat = p.toNat + j) ∧
      ∀ k b, t.cell k b = e.cell k b := by
  subst hdesk
  have hp : Locates p i (chipOffset p).toNat := ⟨hslave, (chipOffset_toNat p).symm⟩
  have hlegible := h.legible hdummy hclear hp
  rw [Flash.capacity, hlegible.attached.capacity_eq] at hfit
  refine Proc.Ends.mono (Command.ends_verify hlegible hp hfit) fun r t hpost => ?_
  obtain ⟨error | ⟨⟩, d⟩ := r
  · obtain ⟨hsame, j, q, hdiffers, rfl, hq⟩ := hpost
    have hne := mt holds_iff_readRange.mpr hdiffers.not_holds
    refine ⟨⟨fun hok => ?_, fun heq => absurd heq hne⟩, fun _ => ⟨j, q, hdiffers, rfl, hq⟩,
      hsame.cell⟩
    cases hok
  · obtain ⟨hholds, -, hsame⟩ := hpost
    have heq := holds_iff_readRange.mp hholds
    exact ⟨⟨fun _ => heq, fun _ => rfl⟩, fun hne => absurd heq hne, hsame.cell⟩

/-- Attaching leaves a fresh emulator erased. -/
theorem Engaged.cell_eq (h : Engaged tuning (.ofConfig config) c t) (i : Fin maxSlaves)
    (a : Nat) : t.cell i a = 0xff :=
  (h.contents.cell i a).trans (Emulator.cell_ofConfig config i a)

/-- The second of two bytes that are expected of an erased chip is not there. -/
theorem verify_exact_default :
    ∃ f e, Reachable {} {} f e ∧
      ((Command.verify 0x10 [0xff, 0x00]).run { flash := f, workspace := {} }).Ends
        Emulator.block e fun r _ => r.1 = .error (.verifyFailed 0x11) := by
  obtain ⟨f, e, hr, hengaged⟩ := Emulator.Prepared.fresh.exists_reachable attachable_default
  have hcapacity : f.capacity = sectorSize := hengaged.capacity_eq
  refine ⟨f, e, hr, (hr.verify_exact (i := firstChip) rfl (hengaged.unhindered rfl (by decide))
    (by decide) [0xff, 0x00] (by rw [hcapacity]; decide) rfl).mono fun r t hpost => ?_⟩
  have hne : (e.chip firstChip).contents.readRange (chipOffset 0x10).toNat 2 ≠ [0xff, 0x00] := by
    intro heq
    have hholds : Holds e firstChip _ [0xff, 0x00] := holds_iff_readRange.mpr heq
    have hsecond := hholds 1 (by decide)
    rw [hengaged.cell_eq] at hsecond
    exact absurd hsecond (by decide)
  obtain ⟨j, q, hdiffers, hfailed, hq⟩ := hpost.2.1 hne
  obtain ⟨hj, hcell⟩ := hdiffers.differs
  rw [hengaged.cell_eq] at hcell
  -- the first byte is as expected
  cases j with
  | zero => exact absurd rfl hcell
  | succ j =>
    obtain rfl : j = 0 := Nat.lt_one_iff.mp (Nat.succ_lt_succ_iff.mp hj)
    obtain rfl : q = 0x11 := UInt64.toNat_inj.mp hq
    exact hfailed

end NorFlash
