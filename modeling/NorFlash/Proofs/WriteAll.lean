import NorFlash.Proofs.PartialWrites

/-!
# Writing all — calls that go on where a write stopped

A session write that stopped on the way counts as accepted in part, and its
cause is not reported; the loop over the rest of the data then goes on. A fault
strikes once, so the second call is the last. What it cannot bring back is what
the first call had erased behind the data and not programmed again.
-/

namespace NorFlash

open Emulator (Unarmed)

variable {c c' : Controller} {e m t : Emulator} {i : Fin maxSlaves} {f f' : Flash}
  {config : EmulatorConfig} {tuning : Tuning} {p : UInt64} {a n lo hi : Nat} {data : Bytes}
  {s : Session}

/-! ## What is lost -/

/-- Outside of the `n` bytes from an offset on, every byte of every chip is as
before, save for those from `lo` up to `hi` of the chip that the offset names:
they read as erased. -/
def LostBeside (p : UInt64) (n lo hi : Nat) (e t : Emulator) : Prop :=
  ∀ (i : Fin maxSlaves) (b : Nat), b < e.config.capacity →
    ((Address.ofOffset p).slave.toNat = i.val →
      b < (chipOffset p).toNat ∨ (chipOffset p).toNat + n ≤ b) →
    t.cell i b =
      if (Address.ofOffset p).slave.toNat = i.val ∧ lo ≤ b ∧ b < hi then 0xff else e.cell i b

theorem UnchangedBut.lostBeside (h : UnchangedBut p n e t) : LostBeside p n 0 0 e t := by
  intro j b hb hout
  rw [if_neg fun hlost => Nat.not_lt_zero b hlost.2.2]
  exact h j b hb hout

/-- Nothing is lost if and only if there was nothing to lose. -/
theorem LostBeside.unchangedBut_iff (h : LostBeside p n lo hi e t)
    (hlo : lo < hi → (chipOffset p).toNat + n ≤ lo) (hhi : lo < hi → hi ≤ e.config.capacity) :
    UnchangedBut p n e t ↔ ∀ i : Fin maxSlaves, (Address.ofOffset p).slave.toNat = i.val →
      ∀ b, lo ≤ b → b < hi → e.cell i b = 0xff := by
  constructor
  · intro hsame i hi b hbl hbh
    have hb := hhi (by omega)
    have hout := hlo (by omega)
    rw [← hsame i b (by omega) fun _ => by omega, h i b (by omega) fun _ => by omega,
      if_pos ⟨hi, hbl, hbh⟩]
  · intro hblank j b hb hout
    rw [h j b hb hout]
    split
    · rename_i hlost
      exact (hblank j hlost.1 b hlost.2.1 hlost.2.2).symm
    · rfl

theorem UnchangedBut.nothing_lost {Q : Nat → Nat → Prop} (h : UnchangedBut p n e t) :
    ∃ lo hi, LostBeside p n lo hi e t ∧
      (UnchangedBut p n e t ↔ ∀ i : Fin maxSlaves, (Address.ofOffset p).slave.toNat = i.val →
        ∀ b, lo ≤ b → b < hi → e.cell i b = 0xff) ∧
      (lo < hi → Q lo hi) := by
  have hempty : ¬ 0 < 0 := Nat.lt_irrefl 0
  exact ⟨0, 0, h.lostBeside, h.lostBeside.unchangedBut_iff (fun hlt => absurd hlt hempty)
    fun hlt => absurd hlt hempty, fun hlt => absurd hlt hempty⟩

/-- The end of the page that holds the last of `n` bytes at `a`. -/
def lastPageEnd (a n : Nat) : Nat :=
  (a + n + (pageSize - 1)) / pageSize * pageSize

/-! ## Going on -/

/-- Only a plan can stop a run of page operations that got to its first byte. -/
theorem Interrupted.armed (h : Interrupted i a data n c e c' t) (hfree : ¬ e.Blocked)
    (hn : 0 < n) : e.armed ≠ none := by
  intro hnone
  rcases h.failed.stopped.cause (h.able hn) with hb | hk
  · exact hfree hb
  · exact hk hnone

/-- A plan that stopped it is spent. -/
theorem Interrupted.spent (h : Interrupted i a data n c e c' t) (hfree : ¬ e.Blocked)
    (hn : 0 < n) : t.armed = none :=
  h.failed.stopped.spent (h.able hn) fun hb => absurd hb hfree

/-- A session write of data that fits, with its run. -/
theorem Attached.run_sessionWrite (h : Attached f.controller e) (s : Session) (data : Bytes)
    (hfit : (chipOffset s.position).toNat + data.length ≤ e.config.capacity) :
    ∃ w f' m, (Session.write data s f).run Emulator.block e = (some (s.answer w, f'), m) ∧
      Wrote s.position data f.controller e w f'.controller m := by
  obtain ⟨⟨r, f'⟩, m, hrun, -, w, hwrote, hanswer⟩ := h.ends_sessionWrite s data
  rw [List.take_of_length_le (by rw [h.remaining_eq]; omega)] at hwrote
  dsimp only at hanswer
  subst hanswer
  exact ⟨w, f', m, hrun, hwrote⟩

/-- With no fault left, what the loop answers well is stored, and nothing else
is touched; and if nothing hinders it, it does answer well. -/
theorem Attached.ends_writeAllOn_unarmed (h : Attached f.controller e) (hnone : e.armed = none)
    (hp : Locates s.position i a) (hfit : a + data.length ≤ e.config.capacity)
    (hdummy : f.controller.tuning.readDummyLen = Chip.readDummyLen) {fuel : Nat}
    (hfuel : data.length ≤ fuel) :
    (Session.writeAllOn fuel data s f).Ends Emulator.block e fun r t =>
      (r.1.1 = .ok () → Holds t i a data ∧ SameOutside i a (a + data.length) e t) ∧
      (Unhindered s.position f.controller.tuning e → Able f.controller e → r.1.1 = .ok ()) := by
  by_cases hdata : data = []
  · subst hdata
    rw [Session.writeAllOn_nil]
    exact Proc.Ends.pure
      ⟨fun _ => ⟨.nil e i a, (SameContents.refl e).sameOutside⟩, fun _ _ => rfl⟩
  have hpos := List.length_pos_iff.mpr hdata
  obtain ⟨fuel, rfl⟩ : ∃ k, fuel = k + 1 := ⟨fuel - 1, by omega⟩
  obtain ⟨w, f', m, hrun, hwrote⟩ := h.run_sessionWrite s data
    (by rw [hp.chipOffset_eq]; exact hfit)
  refine Proc.Ends.writeAllOn_step hdata (M := fun r u => r = (s.answer w, f') ∧ m = u)
    ⟨_, m, hrun, rfl, rfl⟩ ?_ ?_
  · intro error s' f'' _ hpost
    obtain ⟨hr, rfl⟩ := hpost
    obtain ⟨hanswer, rfl⟩ := Prod.mk.inj hr
    refine ⟨fun hok => (by cases hok), fun hclear hable => ?_⟩
    exfalso
    cases hwrote with
    | stored _ _ _ => cases hanswer
    | refused _ hfailed =>
      exact (hclear.not_failed (P := data ≠ [] ∧ Responsive s.position f.controller e)
        ⟨hdata, hclear.responsive⟩) (hfailed.mono (fun _ => Unarmed.spares) id)
    | stopped _ hstopped => exact hclear.not_failed hable hstopped.failed
  intro n s' f'' _ hpost
  obtain ⟨hr, rfl⟩ := hpost
  obtain ⟨hanswer, rfl⟩ := Prod.mk.inj hr
  obtain ⟨hn, hle, -⟩ := hwrote.accepted hanswer.symm
  refine ⟨hn, hle, ?_⟩
  cases hwrote with
  | stored _ hbegun hdone =>
    cases hanswer
    rw [List.drop_length, Session.writeAllOn_nil]
    obtain ⟨rfl, ha⟩ := hp.unique hbegun.located
    rw [← ha] at hdone
    exact Proc.Ends.pure ⟨fun _ => ⟨hdone.holds hdummy, hdone.same hdummy⟩, fun _ _ => rfl⟩
  | refused _ _ =>
    obtain ⟨-, rfl, -⟩ := Session.of_answer_eq_ok hanswer.symm
    exact absurd hn (Nat.lt_irrefl 0)
  | stopped hbegun hstopped =>
    obtain ⟨-, rfl, -⟩ := Session.of_answer_eq_ok hanswer.symm
    exact absurd hnone (hstopped.armed hbegun.free hn)

/-- After an interruption that stored some of the data, the loop stores the rest
of it if it answers well. -/
theorem Interrupted.ends_rest (h : Interrupted i a data n c e f.controller m)
    (ha : Attached c e) (hfree : ¬ e.Blocked) (hn : 0 < n) (hp : Locates s.position i a)
    (hfit : a + data.length ≤ e.config.capacity)
    (hdummy : c.tuning.readDummyLen = Chip.readDummyLen) {fuel : Nat}
    (hfuel : data.length ≤ fuel + n) :
    (Session.writeAllOn fuel (data.drop n) (s.moved n) f).Ends Emulator.block m fun r t =>
      (r.1.1 = .ok () → Holds t i a data ∧ SameOutside i (a + n) (a + data.length) m t) ∧
      (Unhindered (s.moved n).position f.controller.tuning m → Able f.controller m →
        r.1.1 = .ok ()) := by
  have hlt := h.lt
  have hkept := h.failed.kept
  have hconfig := hkept.config
  have hlen : (data.drop n).length = data.length - n := List.length_drop
  have hnext : Locates (s.moved n).position i (a + n) :=
    (hp.advance (ha.lt_word32 (by omega))).2
  refine (hkept.attached.ends_writeAllOn_unarmed (h.spent hfree hn) hnext
    (by rw [hconfig]; omega) (hkept.tuning ▸ hdummy) (by omega)).mono ?_
  intro r t hpost
  obtain ⟨hrest, hok⟩ := hpost
  refine ⟨fun hdone => ?_, hok⟩
  obtain ⟨hholds, hsame⟩ := hrest hdone
  rw [hlen, show a + n + (data.length - n) = a + data.length by omega] at hsame
  refine ⟨?_, hsame⟩
  rw [← List.take_append_drop n data]
  exact (h.holds hdummy).append_of_same (Nat.le_of_lt hlt) (by rw [hconfig]; omega) hsame hholds

/-- What an interrupted write leaves beside its data, if it stored some: it is
in the page that it was working on, the last one of the data. -/
theorem Interrupted.lostBeside (h : Interrupted i a data n c e c' t) (hp : Locates p i a)
    (hn : 0 < n) (hdummy : c.tuning.readDummyLen = Chip.readDummyLen) :
    ∃ lo hi, a + data.length ≤ lo ∧ hi ≤ lastPageEnd a data.length ∧
      LostBeside p data.length lo hi e t := by
  have hlt := h.lt
  have hsame := h.same hdummy
  have hstart := h.aligned hn
  obtain ⟨q, r, hcell⟩ := h.gapped hdummy
  rw [hstart, Nat.min_eq_left (Nat.le_add_right a n)] at hsame
  -- a unit larger than a page is one that the data covers
  have hunit : a + n + (pageUnit (a + n) (data.length - n)).bytes ≤ lastPageEnd a data.length := by
    rw [pageUnitStart] at hstart
    rw [pageUnit] at *
    cases hspan : EraseUnit.forSpan? (UInt64.ofNat (a + n)) (data.length - n) with
    | none =>
      rw [hspan] at hstart
      simp only [Option.getD_none, EraseUnit.bytes] at *
      simp only [lastPageEnd, pageSize]
      omega
    | some unit =>
      have hcovered := (EraseUnit.of_forSpan? hspan).2
      simp only [Option.getD_some, lastPageEnd, pageSize] at *
      omega
  refine ⟨max q (a + data.length), min r (lastPageEnd a data.length), Nat.le_max_right _ _,
    Nat.min_le_right _ _, fun j b hb hout => ?_⟩
  rw [hp.chipOffset_eq] at hout
  have hij : (Address.ofOffset p).slave.toNat = j.val ↔ j = i := by
    rw [hp.slave, Fin.ext_iff, eq_comm]
  simp only [hij] at hout ⊢
  by_cases hin : j = i ∧ a ≤ b ∧ b < lastPageEnd a data.length
  · obtain ⟨rfl, hlo, hhi⟩ := hin
    have hbehind := hout rfl
    rw [hcell j b hb hout]
    congr 1
    simp only [true_and, eq_iff_iff]
    omega
  · rw [if_neg fun hlost => hin ⟨hlost.1, by omega, by omega⟩]
    exact hsame j b hb fun hj => by omega

/-- **Writing all of the data answers well only if all of it is stored, and costs
at most what the first call had erased.** The bytes that are lost then lie
behind the data in its last page; they are those that the first call, which a
fault stopped on the way, left erased. So nothing is lost if and only if there
was nothing in them. -/
theorem Reachable.writeAll_accepted (h : Reachable config tuning f e)
    (hdummy : tuning.readDummyLen = Chip.readDummyLen) (s : Session) (data : Bytes)
    (hfit : (chipOffset s.position).toNat + data.length ≤ f.capacity) :
    (Session.writeAll data s f).Ends Emulator.block e fun r t => r.1.1 = .ok () →
      t.HoldsAt s.position data ∧
      ∃ lo hi, LostBeside s.position data.length lo hi e t ∧
        (UnchangedBut s.position data.length e t ↔
          ∀ i : Fin maxSlaves, (Address.ofOffset s.position).slave.toNat = i.val →
            ∀ b, lo ≤ b → b < hi → e.cell i b = 0xff) ∧
        (lo < hi → (chipOffset s.position).toNat + data.length ≤ lo ∧
          hi ≤ lastPageEnd (chipOffset s.position).toNat data.length ∧
          ∃ plan n s' f' m, e.armed = some plan ∧ 0 < n ∧ n < data.length ∧
            (Session.write data s f).run Emulator.block e = (some ((.ok n, s'), f'), m) ∧
            LostBeside s.position data.length lo hi e m) := by
  obtain ⟨hattached, htuning, -⟩ := h.invariant (by rw [hdummy]; decide)
  rw [← htuning] at hdummy
  have hcapacity : f.capacity = e.config.capacity := hattached.capacity_eq
  rw [hcapacity] at hfit
  have hpageEnd : lastPageEnd (chipOffset s.position).toNat data.length ≤ e.config.capacity := by
    have hsectors := hattached.capacity_bounds.1
    simp only [lastPageEnd, pageSize, sectorSize] at *
    omega
  by_cases hdata : data = []
  · subst hdata
    rw [Session.writeAll, Session.writeAllOn_nil]
    exact Proc.Ends.pure fun _ => ⟨.nil e _, (SameContents.refl e).unchangedBut.nothing_lost⟩
  obtain ⟨w, f', m, hrun, hwrote⟩ := hattached.run_sessionWrite s data hfit
  -- the first call decides: what comes after it meets no fault any more
  refine Proc.Ends.writeAll_step hdata (M := fun r u => r = (s.answer w, f') ∧ m = u)
    ⟨_, m, hrun, rfl, rfl⟩ (fun _ _ _ _ _ hok => by cases hok) ?_
  intro n s' f'' _ hpost
  obtain ⟨hr, rfl⟩ := hpost
  obtain ⟨hanswer, rfl⟩ := Prod.mk.inj hr
  obtain ⟨hn, hle, rfl⟩ := hwrote.accepted hanswer.symm
  refine ⟨hn, hle, ?_⟩
  cases hwrote with
  | stored _ hbegun hdone =>
    cases hanswer
    rw [List.drop_length, Session.writeAllOn_nil]
    have hp := hbegun.located
    exact Proc.Ends.pure fun _ => ⟨(hdone.holds hdummy).holdsAt hp,
      ((hdone.same hdummy).unchangedBut hp).nothing_lost⟩
  | refused _ _ =>
    obtain ⟨-, rfl, -⟩ := Session.of_answer_eq_ok hanswer.symm
    exact absurd hn (Nat.lt_irrefl 0)
  | @stopped i k _ _ _ hbegun hstopped =>
    have hp := hbegun.located
    obtain ⟨hk, rfl, -⟩ := Session.of_answer_eq_ok hanswer.symm
    dsimp only at *
    refine (hstopped.ends_rest hattached hbegun.free hk hp hfit hdummy (by omega)).mono ?_
    intro x t hrest hok
    obtain ⟨⟨r, s''⟩, f''⟩ := x
    obtain ⟨hholds, hsame⟩ := hrest.1 hok
    have hconfig := hstopped.failed.kept.config
    obtain ⟨lo, hi, hlo, hhi, hlost⟩ := hstopped.lostBeside hp hk hdummy
    -- the later calls write inside the data, so what is lost stays lost
    have hafter : LostBeside s.position data.length lo hi e t := by
      intro j b hb hout
      rw [← hlost j b hb hout]
      exact hsame j b (hconfig ▸ hb) fun hj => (hout (hj ▸ hp.slave)).imp_left (by omega)
    refine ⟨hholds.holdsAt hp, lo, hi, hafter, ?_, fun _ => ⟨hlo, hhi, ?_⟩⟩
    · exact hafter.unchangedBut_iff (fun _ => hlo) fun _ => Nat.le_trans hhi hpageEnd
    · obtain ⟨plan, hplan⟩ := Option.ne_none_iff_exists'.mp (hstopped.armed hbegun.free hk)
      exact ⟨plan, k, _, _, _, hplan, hk, hstopped.lt, hanswer ▸ hrun, hlost⟩

/-- With no fault planned two bytes across a page boundary are accepted and stored, and what
was behind them in the second page is written back. -/
theorem writeAll_accepted_default :
    ∃ f e, Reachable {} {} f e ∧ e.cell firstChip 0x1001 = 0x5a ∧
      (Session.writeAll [0x11, 0x22] { position := 0xfff } f).Ends Emulator.block e fun r t =>
        r.1.1 = .ok () ∧ t.HoldsAt 0xfff [0x11, 0x22] ∧ UnchangedBut 0xfff 2 e t ∧
        t.cell firstChip 0x1001 = 0x5a := by
  obtain ⟨f, e, hr, hengaged⟩ :=
    (Emulator.prepared_loaded {} 0x1001 [0x5a]).exists_reachable (attachable_default.loaded _ _)
  have hcapacity : f.capacity = sectorSize := hengaged.capacity_eq
  have hconfig : e.config = {} := hengaged.config
  have hbyte : e.cell firstChip 0x1001 = 0x5a := hengaged.cell_loaded (by decide) (by decide)
  have hclear : Unhindered 0xfff {} e := hengaged.unhindered rfl (by decide)
  have hable : Able f.controller e := by
    rw [Able, Patient, hconfig, hengaged.tuning]
    decide
  have hp : Locates 0xfff firstChip 0xfff := ⟨by decide, by decide⟩
  have hends : (Session.writeAll [0x11, 0x22] { position := 0xfff } f).Ends Emulator.block e
      fun r _ => r.1.1 = .ok () :=
    (hengaged.ready.attached.ends_writeAllOn_unarmed hclear.unarmed hp (by rw [hconfig]; decide)
      (by rw [hengaged.tuning]; rfl) (Nat.le_refl _)).mono fun _ _ hpost =>
        hpost.2 (hengaged.tuning ▸ hclear) hable
  refine ⟨f, e, hr, hbyte, ((hr.writeAll_accepted rfl { position := 0xfff } [0x11, 0x22]
    (by rw [hcapacity]; decide)).and hends).mono ?_⟩
  intro r t hpost
  obtain ⟨haccepted, hok⟩ := hpost
  obtain ⟨hholds, lo, hi, -, hiff, hlost⟩ := haccepted hok
  have hsame : UnchangedBut 0xfff 2 e t := by
    refine hiff.mpr fun i _ b hlo hhi => ?_
    obtain ⟨-, -, plan, _, _, _, _, hplan, -⟩ := hlost (Nat.lt_of_le_of_lt hlo hhi)
    rw [hclear.unarmed] at hplan
    cases hplan
  refine ⟨hok, hholds, hsame, ?_⟩
  rw [hsame firstChip 0x1001 (by rw [hconfig]; decide) fun _ => .inr (by decide)]
  exact hbyte

/-! ## A loss -/

/-- **Data that goes from one page on into the next may cost the rest of the
second page.** A fault that drops the first burst there is answered well twice:
by the call that it stops and by the one that goes on. -/
theorem Attached.ends_writeAll_struck (h : Attached f.controller e) {fault : Fault}
    (hp : Locates s.position i a) (hd : Doomed fault a data f.controller e)
    (hdummy : f.controller.tuning.readDummyLen = Chip.readDummyLen)
    (hclogs : fault.clogs = false)
    (hbusy : (e.chip i).busy.toNat ≤ f.controller.tuning.pollBudget.maxPolls) :
    (Session.writeAll data s f).Ends Emulator.block e fun r t => r.1.1 = .ok () ∧
      Blank t i (max (a + data.length) (a - a % pageSize + pageSize + burstLength f.controller e))
        (a - a % pageSize + 2 * pageSize) := by
  have hk : 0 < pageSize - a % pageSize := Nat.sub_pos_of_lt (Nat.mod_lt a pageSize_pos)
  have hshort := hd.short
  have hcross := hd.crosses
  have hfits := hd.fits
  have htake : data.take (f.remaining s.position) = data := by
    rw [List.take_of_length_le]
    rw [h.remaining_eq, hp.chipOffset_eq]
    omega
  have hwrite := (h.ends_write s.position data).and (h.ends_write_struck hp hd hbusy)
  rw [htake] at hwrite
  refine Proc.Ends.writeAll_step hd.nonempty (Proc.Ends.sessionWrite hwrite
    fun _ _ _ hw => hw.1.2.progress_lt h (by rw [hp.chipOffset_eq]; omega)) ?_ ?_
  · intro error s' f' t hpost
    obtain ⟨_, hanswer, -, ⟨error', rfl⟩, -⟩ := hpost
    rw [Session.answer_of_pos hk] at hanswer
    cases hanswer
  intro n s' f' m hpost
  obtain ⟨_, hanswer, ⟨-, hwrote⟩, ⟨error, rfl⟩, hblank⟩ := hpost
  rw [Session.answer_of_pos hk] at hanswer
  cases hanswer
  dsimp only at hwrote ⊢
  refine ⟨hk, by omega, ?_⟩
  generalize hcut : pageSize - a % pageSize = k at *
  have hkept := hwrote.kept
  cases hwrote with
  | refused _ _ => omega
  | @stopped j _ _ _ _ hbegun hstopped =>
    obtain ⟨rfl, ha⟩ := hp.unique hbegun.located
    rw [← ha] at hstopped
    have hnext : Locates (s.moved k).position i (a + k) :=
      (hp.advance (h.lt_word32 (by omega))).2
    -- the fault left the FIFOs free, and the chip as patient as it was
    have hfree : ¬ m.Blocked := by
      refine (hkept.harmless ⟨hbegun.free, fun plan hplan => ?_⟩).free
      rw [hd.due.armed] at hplan
      cases hplan
      exact hclogs
    have hclear : Unhindered (s.moved k).position f'.controller.tuning m := by
      refine ⟨hstopped.spent hbegun.free hk, hfree, i, hnext.slave, ?_⟩
      rw [hkept.tuning]
      exact hkept.timely i _ hd.able.1 hbusy
    refine (hstopped.ends_rest h hbegun.free hk hp hfits hdummy (by omega)).mono ?_
    intro r t hpost
    obtain ⟨hrest, hok⟩ := hpost
    have hok := hok hclear (hkept.able_iff.mpr hd.able)
    refine ⟨hok, ?_⟩
    obtain ⟨-, hsame⟩ := hrest hok
    have hend : a - a % pageSize + 2 * pageSize ≤ e.config.capacity := by
      have hpage := h.page_le (a := a + data.length - 1) (by omega)
      simp only [pageSize] at *
      omega
    refine (hblank.mono (Nat.le_max_right _ _) (Nat.le_refl _)).of_same hsame (.inr ?_) ?_
    · exact Nat.le_max_left _ _
    · rw [hkept.config]
      exact hend

/-- The byte behind two that are written across a page boundary does not survive
a fault at the first burst beyond it, though all calls answer well. -/
theorem writeAll_loses_neighbour :
    ∃ f e, Reachable {} {} f e ∧ e.armed = some secondPagePlan ∧
      (Session.writeAll [0x11, 0x22] { position := 0xfff } f).Ends Emulator.block e fun r t =>
        r.1.1 = .ok () ∧ e.cell firstChip 0x1fff = 0x5a ∧ t.cell firstChip 0x1fff = 0xff ∧
        ¬ UnchangedBut 0xfff 2 e t := by
  obtain ⟨f, e, h⟩ := exists_secondPageStruck
  have hp : Locates 0xfff firstChip 0xfff := ⟨by decide, by decide⟩
  refine ⟨f, e, h.reachable, h.armed, ?_⟩
  refine (h.attached.ends_writeAll_struck hp h.doomed (by rw [h.tuning]; rfl) (by decide)
    h.timely).mono ?_
  intro r t hpost
  obtain ⟨hok, hblank⟩ := hpost
  have hburst := h.burst_le
  have hnew : t.cell firstChip 0x1fff = 0xff := by
    refine hblank 0x1fff ?_ (by decide)
    simp only [pageSize, List.length_cons, List.length_nil]
    omega
  have hcapacity : 0x1fff < e.config.capacity := by
    rw [h.config]
    decide
  refine ⟨hok, h.last, hnew, fun hsame => ?_⟩
  have hkept := hsame firstChip 0x1fff hcapacity fun _ => .inr (by decide)
  rw [h.last, hnew] at hkept
  cases hkept

end NorFlash
