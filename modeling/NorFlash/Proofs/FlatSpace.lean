import NorFlash.Proofs.Pages

/-!
# Flat space — reads, writes and erases of a flash

A read goes page by page, a write by page operations. What a read brings, and
what a write stored before it stopped, starts at the offset and has no gaps.
-/

namespace NorFlash

open Emulator (Passed Stopped Spares Unarmed)

variable {c c' : Controller} {e m t : Emulator} {i : Fin maxSlaves} {p : UInt64} {a n : Nat}
  {data page : Bytes} {f : Flash}

/-! ## Preparation -/

/-- The slave of the offset exists, and the budget covers the time it is busy. -/
def Responsive (p : UInt64) (c : Controller) (e : Emulator) : Prop :=
  ∃ i : Fin maxSlaves, (Address.ofOffset p).slave.toNat = i.val ∧
    (e.chip i).busy.toNat ≤ c.tuning.pollBudget.maxPolls

/-- Preparation addresses the chip of an offset and changes no byte. -/
theorem Attached.ends_prepare (h : Attached c e) (p : UInt64) :
    Drive.Ends Emulator.block (Flash.prepare p) c e
      (fun _ c' t => ∃ i, Locates p i (chipOffset p).toNat ∧ Ran Spares i c e c' t ∧
        SameContents e t ∧ ¬ t.Blocked)
      (fun _ c' t => Failed Spares (Responsive p c e) c e c' t ∧ SameContents e t) := by
  refine Drive.Ends.bind (h.ends_setActiveSlave _) ?_ ?_
  · intro _ _ _ hpost
    obtain ⟨rfl, rfl, hn⟩ := hpost
    refine ⟨⟨h.kept, .of_not ?_⟩, .refl e⟩
    intro hpost
    obtain ⟨i, hi, -⟩ := hpost
    exact hn (hi ▸ i.isLt)
  intro _ c₁ _ hpost
  obtain ⟨rfl, hk, hslave, hlt⟩ := hpost
  have hp := Locates.of_slave hlt
  have hi : c₁.bus.slave.toNat = (Address.ofOffset p).slave.toNat := by rw [hslave]
  refine (hk.attached.ends_wait (i := ⟨_, hlt⟩) hi).mono ?_ ?_
  · intro _ _ t hpost
    obtain ⟨rfl, hw⟩ := hpost
    exact ⟨_, hp, (hw.ran hi).of_kept hk, hw.contents, hw.free⟩
  · intro _ _ t hpost
    obtain ⟨rfl, hout⟩ := hpost
    refine ⟨(hout.failed.of_kept hk).mono (fun _ h => h) ?_, hout.contents⟩
    intro hpost
    obtain ⟨i, hi, hbusy⟩ := hpost
    obtain rfl : i = ⟨_, hlt⟩ := Fin.ext hi.symm
    rw [hk.tuning]
    exact hbusy

/-! ## Reading -/

/-- What arrived before an error is part of a larger range, too. -/
theorem ReadOut.widen {bytes : Bytes} {error : Error} {k : Nat}
    (h : ReadOut i a k c e bytes (.error error) c' t) (hk : k ≤ n) :
    ReadOut i a n c e bytes (.error error) c' t :=
  ⟨h.contents, Nat.le_trans h.le hk, h.holds, nofun, h.failed⟩

/-- Pages bring a range from its front on, until one fails. -/
theorem Ready.ends_readPages (h : Ready c e i) (hp : Locates p i a) {fuel left d : Nat}
    (hfuel : left ≤ fuel) (hfit : a + d + left ≤ e.config.capacity) (got : Bytes) :
    (Flash.readPages p fuel left d got c).Ends Emulator.block e fun r t =>
      ∃ bytes, r.1.bytes = got.reverse ++ bytes ∧
        ReadOut i (a + d) left c e bytes r.1.outcome r.2 t := by
  induction fuel generalizing left d got c e with
  | zero =>
    obtain rfl : left = 0 := by omega
    exact Proc.Ends.pure ⟨[], (List.append_nil _).symm, h.readOut_nil⟩
  | succ fuel ih =>
    cases left with
    | zero => exact Proc.Ends.pure ⟨[], (List.append_nil _).symm, h.readOut_nil⟩
    | succ left =>
      rw [Flash.readPages_succ]
      have hlt := h.attached.lt_word32 hfit
      obtain ⟨hword, hpos⟩ := hp.advance (n := d) (by omega)
      apply Proc.Ends.step_state (Proc.run_advance hword)
      have hmod := Nat.mod_lt (a + d) pageSize_pos
      rw [hpos.pageIndex_eq]
      generalize hhere : min (left + 1) (pageSize - (a + d) % pageSize) = here
      apply Proc.Ends.step_state (Proc.run_count (lt_wordLimit_of_word32 (by omega)))
      refine Proc.Ends.bind_state (h.ends_bulkRead hpos (n := here) (by omega)) ?_
      intro r c₁ e₁ hread
      obtain ⟨bytes, outcome⟩ := r
      dsimp only at *
      rw [List.reverseAux_eq]
      -- a page that failed ends the read, and what it brought before counts
      cases outcome with
      | error error =>
        refine Proc.Ends.pure ⟨bytes, ?_, hread.widen (by omega)⟩
        rw [List.reverse_append, List.reverse_reverse]
      | ok =>
        obtain ⟨hran, hlen⟩ := hread.done rfl
        have hcap := hran.kept.config
        refine (ih hran.ready (by omega) (by rw [hcap]; omega) _).mono ?_
        intro r t hpost
        obtain ⟨arrival, c'⟩ := r
        obtain ⟨rest, hrest, hread'⟩ := hpost
        refine ⟨bytes ++ rest, ?_, hread.append ?_ (by omega)⟩
        · rw [hrest, List.reverse_append, List.reverse_reverse, List.append_assoc]
        · rw [Nat.add_assoc]
          exact hread'

/-- What a read of up to `len` bytes at `p` brought. -/
structure FlashRead (p : UInt64) (len : Nat) (f : Flash) (e : Emulator) (arrival : Arrival)
    (f' : Flash) (t : Emulator) : Prop where
  kept : Kept f.controller e f'.controller t
  session : f'.sessionOpen = f.sessionOpen
  contents : SameContents e t
  le : arrival.bytes.length ≤ min len (f.remaining p)
  located : arrival.bytes ≠ [] → ∃ i, Locates p i (chipOffset p).toNat
  holds : f.controller.tuning.readDummyLen = Chip.readDummyLen →
    ∀ i, Locates p i (chipOffset p).toNat → Holds e i (chipOffset p).toNat arrival.bytes
  done : arrival.outcome = .ok () → arrival.bytes.length = min len (f.remaining p)
  idle : arrival.outcome = .ok () → arrival.bytes ≠ [] →
    ∀ i, Locates p i (chipOffset p).toNat → (t.chip i).busy = 0
  cause : arrival.outcome ≠ .ok () → Responsive p f.controller e → e.Blocked ∨ ¬ Spares e.armed

/-- A look at the flash. -/
theorem FlashProc.get_bind {α : Type} (k : Flash → FlashProc α) (f : Flash) :
    (get >>= k) f = k f f := rfl

/-- An operation of the controller as one of the flash. -/
theorem Proc.Ends.onController {α : Type} {x : StateT Controller Proc α}
    {A : α × Flash → Emulator → Prop} (hx : (x f.controller).Ends Emulator.block e
      fun r t => A (r.1, { f with controller := r.2 }) t) :
    (Flash.onController x f).Ends Emulator.block e A :=
  Proc.Ends.bind hx fun _ _ h => Proc.Ends.pure h

theorem Attached.remaining_eq (h : Attached f.controller e) (p : UInt64) :
    f.remaining p = e.config.capacity - (chipOffset p).toNat := by
  rw [Flash.remaining, Flash.capacity, h.capacity_eq]

/-- **A read** brings the front of what the chip holds. -/
theorem Attached.ends_read (h : Attached f.controller e) (p : UInt64) (len : Nat) :
    (Flash.read p len f).Ends Emulator.block e fun r t => FlashRead p len f e r.1 r.2 t := by
  apply Proc.Ends.bind_get_state
  have hremaining := h.remaining_eq p
  by_cases hzero : min len (f.remaining p) = 0
  · rw [if_pos hzero]
    exact Proc.Ends.pure ⟨h.kept, rfl, .refl e, Nat.zero_le _, fun hne => absurd rfl hne,
      fun _ i _ => .nil e i _, fun _ => hzero.symm, fun _ hne => absurd rfl hne,
      fun hne => absurd rfl hne⟩
  rw [if_neg hzero]
  apply Proc.Ends.step_state Emulator.run_log
  apply Proc.Ends.onController
  refine Proc.Ends.bind_state (h.ends_prepare p) ?_
  intro r c₁ e₁ hprepared
  rcases r with error | _
  · obtain ⟨hf, hsame⟩ := hprepared
    exact Proc.Ends.pure ⟨hf.kept, rfl, hsame, Nat.zero_le _, fun hne => absurd rfl hne,
      fun _ i _ => .nil e i _, nofun, nofun, fun _ => hf.stopped.cause⟩
  · obtain ⟨i, hp, hran, hsame, hfree⟩ := hprepared
    have hcap := hran.kept.config
    refine (hran.ready.ends_readPages hp (d := 0) (Nat.le_refl _) (by rw [hcap]; omega)
      []).mono ?_
    intro r t hpost
    obtain ⟨⟨bytes, outcome⟩, c'⟩ := r
    obtain ⟨_, rfl, hread⟩ := hpost
    rw [Nat.add_zero] at hread
    -- an outcome of either kind keeps what the preparation set up
    have hkept : Kept f.controller e c' t := by
      cases outcome with
      | ok => exact hran.kept.trans (hread.done rfl).1.kept
      | error error => exact hran.kept.trans (hread.failed nofun).kept
    refine ⟨hkept, rfl, hsame.trans hread.contents, hread.le, fun _ => ⟨i, hp⟩, ?_, ?_, ?_, ?_⟩
    · intro hdummy j hj
      obtain rfl : i = j := (hp.unique hj).1
      intro k hk
      rw [← hsame.cell]
      exact hread.holds (hran.kept.tuning ▸ hdummy) k hk
    · exact fun hok => (hread.done hok).2
    · intro hok _ j hj
      obtain rfl : i = j := (hp.unique hj).1
      exact (hread.done hok).1.idle
    · exact fun hne _ => (hran.failed (hread.failed hne)).stopped.cause trivial

/-- A read at a place is refused, or it is a read. -/
theorem Attached.ends_readAt (h : Attached f.controller e) (p : UInt64) (len : Nat) :
    (Flash.readAt p len f).Ends Emulator.block e fun r t =>
      f.remaining p < len ∧ r = (.refused .addressOutOfBounds, f) ∧ t = e ∨
        len ≤ f.remaining p ∧ FlashRead p len f e r.1 r.2 t := by
  apply Proc.Ends.bind_get_state
  by_cases hlen : f.remaining p < len
  · rw [if_pos hlen]
    exact Proc.Ends.pure (.inl ⟨hlen, rfl, rfl⟩)
  · rw [if_neg hlen]
    exact (h.ends_read p len).mono fun _ _ hread => .inr ⟨by omega, hread⟩

/-! ## Writing -/

/-- Programming stopped after `n` bytes of the data at `a`, in the unit that the
rest of it starts with. -/
structure Interrupted (i : Fin maxSlaves) (a : Nat) (data : Bytes) (n : Nat) (c : Controller)
    (e : Emulator) (c' : Controller) (t : Emulator) : Prop where
  lt : n < data.length
  failed : Failed Unarmed (Able c e) c e c' t
  able : 0 < n → Able c e
  aligned : 0 < n → pageUnitStart (a + n) (data.length - n) = a + n
  holds : c.tuning.readDummyLen = Chip.readDummyLen → Holds t i a (data.take n)
  gapped : c.tuning.readDummyLen = Chip.readDummyLen → Gapped i a (a + data.length) e t
  same : c.tuning.readDummyLen = Chip.readDummyLen →
    SameOutside i (min a (pageUnitStart (a + n) (data.length - n)))
      (pageUnitStart (a + n) (data.length - n) + (pageUnit (a + n) (data.length - n)).bytes) e t

/-- All of the data is stored at `a`. -/
structure Complete (i : Fin maxSlaves) (a : Nat) (data : Bytes) (c : Controller) (e : Emulator)
    (c' : Controller) (t : Emulator) : Prop where
  ran : Ran Unarmed i c e c' t
  able : data ≠ [] → Able c e
  holds : c.tuning.readDummyLen = Chip.readDummyLen → Holds t i a data
  same : c.tuning.readDummyLen = Chip.readDummyLen → SameOutside i a (a + data.length) e t

theorem Ready.complete_nil (h : Ready c e i) : Complete i a [] c e c e :=
  ⟨h.ran, fun hne => absurd rfl hne, fun _ => .nil e i a,
    fun _ => (SameContents.refl e).sameOutside⟩

/-- A page operation that stopped at the front of the data. -/
theorem Broken.interrupted (h : Broken i a data (pageUnit a data.length) c e c' t)
    (hdata : data ≠ []) : Interrupted i a data 0 c e c' t := by
  refine ⟨List.length_pos_iff.mpr hdata, h.failed, fun hn => absurd hn (Nat.lt_irrefl 0),
    fun hn => absurd hn (Nat.lt_irrefl 0), fun _ => .nil t i a, h.gapped, fun _ => ?_⟩
  have hle : pageUnitStart a data.length ≤ a := Nat.sub_le _ _
  rw [Nat.add_zero, Nat.sub_zero, Nat.min_eq_right hle]
  exact h.same

section Onwards

variable {c₁ : Controller} {e₁ : Emulator} {k : Nat}

/-- All of the data, page operation by page operation. -/
theorem Stored.complete (h : Stored i a data n c e c₁ e₁)
    (h' : Complete i (a + n) (data.drop n) c₁ e₁ c' t)
    (hfit : a + data.length ≤ e.config.capacity) : Complete i a data c e c' t := by
  have hle := h.le
  have hcap := h.ran.kept.config
  have hrest : a + n + (data.drop n).length = a + data.length := by
    rw [List.length_drop]
    omega
  -- the later operations leave alone what the first one stored
  have hsame' : c.tuning.readDummyLen = Chip.readDummyLen →
      SameOutside i (a + n) (a + data.length) e₁ t := by
    intro hdummy
    have hsame := h'.same (h.ran.kept.tuning ▸ hdummy)
    rwa [hrest] at hsame
  refine ⟨h.ran.trans h'.ran, fun _ => h.able, fun hdummy => ?_, fun hdummy => ?_⟩
  · rw [← List.take_append_drop n data]
    exact (h.holds hdummy).append_of_same hle (by rw [hcap]; omega) (hsame' hdummy)
      (h'.holds (h.ran.kept.tuning ▸ hdummy))
  · refine ((h.same hdummy).mono (Nat.le_refl a) ?_).trans ((hsame' hdummy).mono ?_ ?_) hcap
    all_goals omega

/-- An interruption after page operations that went through. -/
theorem Stored.interrupted (h : Stored i a data n c e c₁ e₁)
    (h' : Interrupted i (a + n) (data.drop n) k c₁ e₁ c' t)
    (hfit : a + data.length ≤ e.config.capacity) (hlt : a + data.length < word32Limit) :
    Interrupted i a data (n + k) c e c' t := by
  have hle := h.le
  have hpos := h.pos
  have hcap := h.ran.kept.config
  have hklt := h'.lt
  have hsame' := h'.same
  have hgapped' := h'.gapped
  have haligned' := h'.aligned
  have hlen : (data.drop n).length = data.length - n := List.length_drop
  rw [hlen] at hklt hsame' hgapped' haligned'
  rw [Nat.add_assoc, Nat.sub_sub] at hsame' haligned'
  -- the unit that was being programmed starts after what is stored
  have hstart : pageUnitStart (a + (n + k)) (data.length - (n + k)) = a + (n + k) := by
    by_cases hk : 0 < k
    · exact haligned' hk
    · obtain rfl : k = 0 := by omega
      rw [pageUnitStart, Nat.add_zero, mod_pageUnit (h.aligned (by omega)) (by omega),
        Nat.sub_zero]
  have hunit := (pageUnit (a + (n + k)) (data.length - (n + k))).bytes_pos
  rw [hstart, Nat.min_eq_left (by omega)] at hsame'
  have hdummy' : c.tuning.readDummyLen = Chip.readDummyLen →
      c₁.tuning.readDummyLen = Chip.readDummyLen := fun hdummy => h.ran.kept.tuning ▸ hdummy
  refine ⟨by omega, (h.ran.failed h'.failed).mono (fun _ hk => hk) h.ran.kept.able_iff.mpr,
    fun _ => h.able, fun _ => hstart, fun hdummy => ?_, fun hdummy => ?_, fun hdummy => ?_⟩
  · rw [List.take_add]
    exact (h.holds hdummy).append_of_same hle (by rw [hcap]; omega) (hsame' (hdummy' hdummy))
      (h'.holds (hdummy' hdummy))
  · obtain ⟨q, r, hcell⟩ := hgapped' (hdummy' hdummy)
    refine ⟨q, r, fun j b hb hne => ?_⟩
    rw [← h.same hdummy j b hb fun hj => by have := hne hj; omega]
    exact hcell j b (hcap ▸ hb) fun hj => by have := hne hj; omega
  · rw [hstart, Nat.min_eq_left (by omega)]
    refine ((h.same hdummy).mono (Nat.le_refl a) (by omega)).trans ?_ hcap
    exact (hsame' (hdummy' hdummy)).mono (by omega) (Nat.le_refl _)

end Onwards

/-- Page operations program the data from its front on, until one fails. -/
theorem Ready.ends_writePages (h : Ready c e i) (hp : Locates p i a) {fuel d : Nat}
    (hfuel : data.length ≤ fuel) (hfit : a + d + data.length ≤ e.config.capacity)
    (hpage : page.length = pageSize) :
    (Flash.writePages p fuel d data page c).Ends Emulator.block e fun r t =>
      match r.1 with
      | .ok n => n = d + data.length ∧ Complete i (a + d) data c e r.2 t
      | .error stopped => ∃ n, stopped.written = d + n ∧
          Interrupted i (a + d) data n c e r.2 t := by
  induction fuel generalizing d data page c e with
  | zero =>
    obtain rfl : data = [] := List.eq_nil_of_length_eq_zero (by omega)
    exact Proc.Ends.pure ⟨rfl, h.complete_nil⟩
  | succ fuel ih =>
    cases data with
    | nil => exact Proc.Ends.pure ⟨rfl, h.complete_nil⟩
    | cons byte more =>
      rw [Flash.writePages]
      have hlt := h.attached.lt_word32 hfit
      obtain ⟨hword, hpos⟩ := hp.advance (n := d) (by omega)
      apply Proc.Ends.step_state (Proc.run_advance hword)
      -- the shape of the data mattered for the loop only
      have hdata : byte :: more ≠ [] := List.cons_ne_nil byte more
      generalize byte :: more = data at *
      refine Proc.Ends.bind_state (h.ends_programPage hpos hdata hfit hpage) ?_
      intro r c₁ e₁ hpageop
      obtain ⟨error | n, page'⟩ := r
      · refine Proc.Ends.step_state Emulator.run_log (Proc.Ends.pure ⟨0, rfl, ?_⟩)
        exact Broken.interrupted hpageop hdata
      · obtain ⟨hpage', hstored⟩ := hpageop
        have hle := hstored.le
        have hcap := hstored.ran.kept.config
        have hlen : (data.drop n).length = data.length - n := List.length_drop
        have hpos := hstored.pos
        apply Proc.Ends.step_state (Proc.run_split hle)
        dsimp only
        apply Proc.Ends.step_state (Proc.run_count (lt_wordLimit_of_word32 (by omega)))
        refine (ih hstored.ran.ready (by omega) (by rw [hcap]; omega) hpage').mono ?_
        intro r t hr
        obtain ⟨stopped | m, c'⟩ := r
        · obtain ⟨k, hwritten, hstopped⟩ := hr
          rw [← Nat.add_assoc] at hstopped
          exact ⟨n + k, by omega, hstored.interrupted hstopped hfit hlt⟩
        · obtain ⟨hm, hcomplete⟩ := hr
          rw [← Nat.add_assoc] at hcomplete
          exact ⟨by omega, hstored.complete hcomplete hfit⟩

/-- A write at `p` got to programming, on chip `i`. -/
structure Begun (p : UInt64) (i : Fin maxSlaves) (c : Controller) (e : Emulator) : Prop where
  located : Locates p i (chipOffset p).toNat
  free : ¬ e.Blocked
  prepared : ∃ c' t, ((Flash.prepare p).run c).run Emulator.block e = (some (.ok (), c'), t)

/-- Programming after a preparation that went through. -/
theorem Complete.of_start (hran : Ran Spares i c e c' m) (hsame : SameContents e m)
    {c'' : Controller} (h : Complete i a data c' m c'' t) : Complete i a data c e c'' t := by
  have hdummy' : c.tuning.readDummyLen = Chip.readDummyLen →
      c'.tuning.readDummyLen = Chip.readDummyLen := fun hdummy => hran.kept.tuning ▸ hdummy
  refine ⟨(hran.mono fun _ => Unarmed.spares).trans h.ran, ?_, fun hdummy => ?_, fun hdummy => ?_⟩
  · exact fun hne => hran.kept.able_iff.mp (h.able hne)
  · exact h.holds (hdummy' hdummy)
  · exact hsame.sameOutside.trans (h.same (hdummy' hdummy)) hran.kept.config

theorem Interrupted.of_start (hran : Ran Spares i c e c' m) (hsame : SameContents e m)
    {c'' : Controller} (h : Interrupted i a data n c' m c'' t) :
    Interrupted i a data n c e c'' t := by
  have hdummy' : c.tuning.readDummyLen = Chip.readDummyLen →
      c'.tuning.readDummyLen = Chip.readDummyLen := fun hdummy => hran.kept.tuning ▸ hdummy
  refine ⟨h.lt, ?_, ?_, h.aligned, fun hdummy => ?_, fun hdummy => ?_, fun hdummy => ?_⟩
  · exact ((hran.mono fun _ => Unarmed.spares).failed h.failed).mono (fun _ hk => hk)
      hran.kept.able_iff.mpr
  · exact fun hn => hran.kept.able_iff.mp (h.able hn)
  · exact h.holds (hdummy' hdummy)
  · obtain ⟨q, r, hcell⟩ := h.gapped (hdummy' hdummy)
    refine ⟨q, r, fun j b hb hne => ?_⟩
    rw [← hsame.cell]
    exact hcell j b (hran.kept.config ▸ hb) hne
  · exact hsame.sameOutside.trans (h.same (hdummy' hdummy)) hran.kept.config

/-- How a write of the bytes `taken` at `p` ends: with all of them stored, before
it programmed anything, or on the way. -/
inductive Wrote (p : UInt64) (taken : Bytes) (c : Controller) (e : Emulator) :
    Except PartialWrite Nat → Controller → Emulator → Prop where
  | stored {i : Fin maxSlaves} {c' : Controller} {t : Emulator} (hdata : taken ≠ [])
    (hbegun : Begun p i c e) (hdone : Complete i (chipOffset p).toNat taken c e c' t) :
    Wrote p taken c e (.ok taken.length) c' t
  | refused {error : Error} {c' : Controller} {t : Emulator} (hsame : SameContents e t)
    (hfailed : Failed Spares (taken ≠ [] ∧ Responsive p c e) c e c' t) :
    Wrote p taken c e (.error ⟨0, error⟩) c' t
  | stopped {i : Fin maxSlaves} {n : Nat} {error : Error} {c' : Controller} {t : Emulator}
    (hbegun : Begun p i c e)
    (hstopped : Interrupted i (chipOffset p).toNat taken n c e c' t) :
    Wrote p taken c e (.error ⟨n, error⟩) c' t

theorem Wrote.kept {taken : Bytes} {r : Except PartialWrite Nat}
    (h : Wrote p taken c e r c' t) : Kept c e c' t := by
  cases h with
  | stored _ _ hdone => exact hdone.ran.kept
  | refused _ hfailed => exact hfailed.kept
  | stopped _ hstopped => exact hstopped.failed.kept

/-- **A write** stores its data as far as the chip goes, or fails. -/
theorem Attached.ends_write (h : Attached f.controller e) (p : UInt64) (data : Bytes) :
    (Flash.write p data f).Ends Emulator.block e fun r t => r.2.sessionOpen = f.sessionOpen ∧
      Wrote p (data.take (f.remaining p)) f.controller e r.1 r.2.controller t := by
  apply Proc.Ends.bind_get_state
  have hremaining := h.remaining_eq p
  have hlen : (data.take (f.remaining p)).length = min (f.remaining p) data.length :=
    List.length_take
  generalize data.take (f.remaining p) = taken at *
  by_cases hempty : taken = []
  · rw [if_pos (by simpa using hempty)]
    exact Proc.Ends.pure ⟨rfl, .refused (.refl e) ⟨h.kept, .of_not fun hn => hn.1 hempty⟩⟩
  have hpos := List.length_pos_iff.mpr hempty
  rw [if_neg (by simpa using hempty)]
  apply Proc.Ends.step_state Emulator.run_log
  apply Proc.Ends.onController
  obtain ⟨⟨r, c₁⟩, e₁, hrun, hprepared⟩ := h.ends_prepare p
  refine Proc.Ends.bind_state (M := fun r' t => r' = (r, c₁) ∧ e₁ = t)
    ⟨(r, c₁), e₁, hrun, rfl, rfl⟩ ?_
  intro _ _ _ hpost
  obtain ⟨hr, rfl⟩ := hpost
  cases hr
  rcases r with error | _
  · obtain ⟨hf, hsame⟩ := hprepared
    exact Proc.Ends.pure ⟨rfl, .refused hsame (hf.mono (fun _ hk => hk) And.right)⟩
  · obtain ⟨i, hp, hran, hsame, hfree⟩ := hprepared
    have hbegun : Begun p i f.controller e :=
      ⟨hp, fun hb => hfree (hran.kept.stays hb), c₁, e₁, hrun⟩
    have hcap := hran.kept.config
    refine (hran.ready.ends_writePages hp (d := 0) (Nat.le_refl _) (by rw [hcap]; omega)
      (Bytes.length_filled _ _)).mono ?_
    intro r t hr
    obtain ⟨⟨n, error⟩ | n, c'⟩ := r
    · obtain ⟨_, rfl, hstopped⟩ := hr
      rw [Nat.add_zero] at hstopped
      refine ⟨rfl, .stopped hbegun ?_⟩
      rw [Nat.zero_add]
      exact hstopped.of_start hran hsame
    · obtain ⟨rfl, hcomplete⟩ := hr
      rw [Nat.add_zero] at hcomplete
      rw [Nat.zero_add]
      exact ⟨rfl, .stored hempty hbegun (hcomplete.of_start hran hsame)⟩

/-! ## Erasing -/

/-- An erase on a slave that does not exist fails without effect. -/
theorem Attached.ends_eraseUnit_beyond (h : Attached c e) (unit : EraseUnit)
    (hslave : ¬ (Address.ofOffset p).slave.toNat < maxSlaves) :
    Drive.Ends Emulator.block (Controller.eraseUnit p unit) c e (fun _ _ _ => False)
      (fun _ c' t => Kept c e c' t ∧ SameContents e t) := by
  rw [Controller.eraseUnit]
  by_cases haligned : unit.isAligned p = true
  · rw [if_pos haligned]
    refine Drive.Ends.bind (h.ends_setActiveSlave _) ?_ ?_
    · intro _ _ _ hpost
      obtain ⟨rfl, rfl, -⟩ := hpost
      exact ⟨h.kept, .refl e⟩
    · intro _ _ _ hpost
      obtain ⟨-, -, -, hlt⟩ := hpost
      exact absurd hlt hslave
  · rw [if_neg haligned]
    apply Drive.Ends.step Emulator.run_log
    exact Drive.Ends.throw ⟨h.kept, .refl e⟩

/-- **An erase** erases its unit or changes no byte. -/
theorem Attached.ends_erase (h : Attached f.controller e) (p : UInt64) (size : Nat) :
    (Flash.erase p size f).Ends Emulator.block e fun r t => r.2.sessionOpen = f.sessionOpen ∧
      Kept f.controller e r.2.controller t ∧
      ((∃ error, r.1 = .error error) ∧ SameContents e t ∨
        ∃ i unit, size = unit.bytes ∧ Locates p i (chipOffset p).toNat ∧
          (chipOffset p).toNat % unit.bytes = 0 ∧ Erased i (chipOffset p).toNat unit e t) := by
  apply Proc.Ends.bind_get_state
  have hremaining := h.remaining_eq p
  by_cases hsize : f.remaining p < size
  · rw [if_pos hsize]
    exact Proc.Ends.pure ⟨rfl, h.kept, .inl ⟨⟨_, rfl⟩, .refl e⟩⟩
  rw [if_neg hsize]
  apply Proc.Ends.onController
  rw [Controller.erase]
  cases hunit : EraseUnit.ofBytes? size with
  | none =>
    apply Proc.Ends.step_state (c := f.controller) Emulator.run_log
    exact Proc.Ends.pure ⟨rfl, h.kept, .inl ⟨⟨_, rfl⟩, .refl e⟩⟩
  | some unit =>
    obtain rfl := EraseUnit.ofBytes?_eq_some_iff.mp hunit
    have hpos := unit.bytes_pos
    by_cases hslave : (Address.ofOffset p).slave.toNat < maxSlaves
    · have hp := Locates.of_slave hslave
      refine Proc.Ends.mono (h.ends_eraseUnit hp unit (by omega)) ?_
      intro r t hr
      obtain ⟨error | _, c'⟩ := r
      · obtain ⟨hf, heffect⟩ := hr
        refine ⟨rfl, hf.kept, heffect.imp (fun hsame => ⟨⟨error, rfl⟩, hsame⟩) ?_⟩
        exact fun herased => ⟨_, unit, rfl, hp, herased⟩
      · obtain ⟨hran, halign, herased, -⟩ := hr
        exact ⟨rfl, hran.kept, .inr ⟨_, unit, rfl, hp, halign, herased⟩⟩
    · refine Proc.Ends.mono (h.ends_eraseUnit_beyond unit hslave) ?_
      intro r t hr
      obtain ⟨error | _, c'⟩ := r
      · exact ⟨rfl, hr.1, .inl ⟨⟨error, rfl⟩, hr.2⟩⟩
      · exact hr.elim

end NorFlash
