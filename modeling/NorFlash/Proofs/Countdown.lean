import NorFlash.Proofs.FlatSpace

/-!
# Countdown — a fault that waits for program bursts

A plan for the program opcode spares the commands around the bursts, and counts
the bursts: `Due` says how many more go through before it strikes. Where bursts
end on the boundaries of program pages, their number is the length of the data
over the length of one.
-/

namespace NorFlash

open Emulator (Passed Stopped Spares Unarmed strike plainOpcodes)

variable {c c' : Controller} {e m t : Emulator} {i : Fin maxSlaves} {p : UInt64} {a n : Nat}
  {data page : Bytes} {f : Flash} {fault : Fault} {op : UInt8} {skip : Nat}

/-! ## The plan -/

namespace Emulator

/-- The FIFOs can be emptied, and the fault strikes once `skip` more bursts with
the opcode went through. -/
structure Due (fault : Fault) (op : UInt8) (skip : Nat) (e : Emulator) : Prop where
  free : ¬ e.Blocked
  armed : e.armed = some { fault, opcode := some op, skip }

theorem Due.spares (h : e.Due fault op skip) (hop : op ∉ plainOpcodes) : Spares e.armed := by
  intro x hx
  have hne : (op == x) = false := beq_eq_false_iff_ne.mpr fun heq => hop (heq ▸ hx)
  rw [h.armed, strike]
  simp [hne]

/-- Commands around the bursts leave the count as it is. -/
theorem Due.passed (h : e.Due fault op skip) (hop : op ∉ plainOpcodes) (hp : Passed Spares e t) :
    t.Due fault op skip := by
  obtain ⟨hfree, harmed⟩ := hp.clear h.free (h.spares hop)
  exact ⟨hfree, harmed.trans h.armed⟩

/-- They do not fail. -/
theorem Due.not_stopped (h : e.Due fault op skip) (hop : op ∉ plainOpcodes) {P : Prop}
    (hs : Stopped Spares P e t) : ¬ P := by
  intro hp
  rcases hs.cause hp with hb | hn
  · exact h.free hb
  · exact hn (h.spares hop)

theorem Due.strike_succ (h : e.Due fault op (skip + 1)) :
    strike e.armed op = (none, some { fault, opcode := some op, skip }) := by
  rw [h.armed, strike]
  simp

theorem Due.strike_zero (h : e.Due fault op 0) : strike e.armed op = (some fault, none) := by
  rw [h.armed, strike]
  simp

end Emulator

theorem Vendor.programOpcode_not_plain (v : Vendor) : v.programOpcode ∉ plainOpcodes := by
  cases v <;> decide

/-! ## Bursts -/

/-- The data bytes of a burst that no program page ends. -/
def burstLength (c : Controller) (e : Emulator) : Nat :=
  min (e.config.fifoDepth - Opcode.headerLen) c.tuning.writeMaxLen

theorem burstLength_le (c : Controller) (e : Emulator) : burstLength c e ≤ c.tuning.writeMaxLen :=
  Nat.min_le_right _ _

theorem Kept.burstLength_eq (h : Kept c e c' t) : burstLength c' t = burstLength c e := by
  rw [burstLength, burstLength, h.config, h.tuning]

theorem Attached.burstLength_pos (h : Attached c e) (hable : Able c e) : 0 < burstLength c e := by
  have := h.overhead_lt
  have := hable.2
  rw [burstLength]
  omega

/-- Bursts that start on a multiple of their length, which divides a program
page, end on one. -/
theorem burstLimit_eq (hdvd : burstLength c e ∣ programPageSize)
    (ha : burstLength c e ∣ a) : burstLimit c e a = burstLength c e := by
  rw [burstLimit, ← burstLength]
  have hrest : burstLength c e ∣ programPageSize - a % programPageSize :=
    Nat.dvd_sub hdvd ((Nat.dvd_mod_iff hdvd).mpr ha)
  have hpos : 0 < programPageSize - a % programPageSize :=
    Nat.sub_pos_of_lt (Nat.mod_lt a programPageSize_pos)
  exact Nat.min_eq_left (Nat.le_of_dvd hpos hrest)

namespace Ready

/-- A burst that is not the last that goes through is counted. -/
theorem ends_writeChunk_due (h : Ready c e i) (hp : Locates p i a) (hdata : data ≠ [])
    (hfit : a + data.length ≤ e.config.capacity) (hblank : Blank e i a (a + data.length))
    (hable : Able c e) (hdue : e.Due fault c.vendor.programOpcode (skip + 1)) :
    Drive.Ends Emulator.block (Controller.writeChunk p data) c e
      (fun n c' t => n = min (burstLimit c e a) data.length ∧ Programmed i a data n e t ∧
        Ready c' t i ∧ Kept c e c' t ∧ t.Due fault c.vendor.programOpcode skip)
      (fun _ _ _ => False) := by
  have hspares := hdue.spares c.vendor.programOpcode_not_plain
  have hstrike := hdue.strike_succ
  refine (h.ends_writeChunk hp hdata hfit hblank).mono ?_ ?_
  · intro n c' t hpost
    obtain ⟨hn, -, -, hprogrammed, hran, hpierced⟩ := hpost
    have hpierced := hpierced hdue.free hspares
    refine ⟨hn, hprogrammed, hran.ready, hran.kept, hpierced.free, ?_⟩
    rw [hpierced.armed, hstrike]
  · intro _ c' t hpost
    obtain ⟨hf, -⟩ := hpost
    rcases hf.stopped.cause hable with hb | hn
    · exact hdue.free hb
    · exact hn ⟨hspares, by rw [hstrike]⟩

/-- The burst that the fault strikes fails, if the fault drops it. -/
theorem ends_writeChunk_struck (h : Ready c e i) (hp : Locates p i a) (hdata : data ≠ [])
    (hfit : a + data.length ≤ e.config.capacity) (hblank : Blank e i a (a + data.length))
    (hdrops : fault.drops = true) (hdue : e.Due fault c.vendor.programOpcode 0) :
    Drive.Ends Emulator.block (Controller.writeChunk p data) c e (fun _ _ _ => False)
      (fun _ _ t => ∃ k ≤ burstLimit c e a, Programmed i a data k e t) := by
  have hspares := hdue.spares c.vendor.programOpcode_not_plain
  refine (h.ends_writeChunk hp hdata hfit hblank).mono ?_ ?_
  · intro n c' t hpost
    obtain ⟨-, -, -, -, -, hpierced⟩ := hpost
    have hpassed := (hpierced hdue.free hspares).passed fault (by rw [hdue.strike_zero])
    rw [hdrops] at hpassed
    cases hpassed
  · intro _ c' t hpost
    obtain ⟨-, hprogrammed⟩ := hpost
    exact hprogrammed

/-- As many bursts as the plan lets through. -/
theorem ends_writeOn_due (h : Ready c e i) (hp : Locates p i a) {fuel d bursts : Nat}
    (hfuel : data.length ≤ fuel) (hfit : a + d + data.length ≤ e.config.capacity)
    (hblank : Blank e i (a + d) (a + d + data.length)) (hable : Able c e)
    (hdvd : burstLength c e ∣ programPageSize) (had : burstLength c e ∣ a + d)
    (hlen : data.length = bursts * burstLength c e)
    (hdue : e.Due fault c.vendor.programOpcode (bursts + skip)) :
    Drive.Ends Emulator.block (Controller.writeOn p fuel d data) c e
      (fun _ _ t => t.Due fault c.vendor.programOpcode skip) (fun _ _ _ => False) := by
  have hpos := h.attached.burstLength_pos hable
  -- each burst uses up one skip of the plan and one burst length of the data
  induction bursts generalizing fuel d data c e with
  | zero =>
    rw [Nat.zero_mul] at hlen
    obtain rfl := List.eq_nil_of_length_eq_zero hlen
    rw [Nat.zero_add] at hdue
    rw [show Controller.writeOn p fuel d [] = pure () by cases fuel <;> rfl]
    exact Drive.Ends.pure hdue
  | succ bursts ih =>
    rw [Nat.add_mul, Nat.one_mul] at hlen
    rw [Nat.add_right_comm] at hdue
    cases data with
    | nil => exact absurd hlen (by simp only [List.length_nil]; omega)
    | cons byte more =>
    obtain ⟨fuel, rfl⟩ : ∃ k, fuel = k + 1 :=
      ⟨fuel - 1, by rw [List.length_cons] at hfuel; omega⟩
    rw [Controller.writeOn]
    have hlt := h.attached.lt_word32 hfit
    obtain ⟨hword, hplace⟩ := hp.advance (n := d) (by omega)
    apply Drive.Ends.step (Proc.run_advance hword)
    refine Drive.Ends.bind (h.ends_writeChunk_due hplace (by simp) hfit hblank hable hdue)
      (fun _ _ _ hf => hf) ?_
    intro n c₁ e₁ hpost
    obtain ⟨hn, hprogrammed, hready, hkept, hdue₁⟩ := hpost
    rw [burstLimit_eq hdvd had, Nat.min_eq_left (by omega)] at hn
    subst hn
    generalize byte :: more = data at *
    have hrest : (data.drop (burstLength c e)).length = bursts * burstLength c e := by
      rw [List.length_drop]
      omega
    have hvendor := hkept.vendor_eq h.attached
    have hburst := hkept.burstLength_eq
    apply Drive.Ends.step (Proc.run_split (by omega))
    dsimp only
    apply Drive.Ends.step (Proc.run_count (lt_wordLimit_of_word32 (by omega)))
    rw [← hvendor] at hdue₁ ⊢
    refine ih hready (by omega) (by rw [hkept.config]; omega) ?_ (hkept.able_iff.mpr hable)
      (hburst ▸ hdvd) ?_ (hburst ▸ hrest) hdue₁ (hburst ▸ hpos)
    · rw [show a + (d + burstLength c e) + (data.drop (burstLength c e)).length =
        a + d + data.length by omega, ← Nat.add_assoc]
      exact hprogrammed.blank
    · rw [hburst, ← Nat.add_assoc]
      exact Nat.dvd_add had (Nat.dvd_refl _)

/-- A bulk write of as many bursts as the plan lets through. -/
theorem ends_bulkWrite_due (h : Ready c e i) (hp : Locates p i a)
    (hfit : a + data.length ≤ e.config.capacity) (hblank : Blank e i a (a + data.length))
    (hable : Able c e) (hdvd : burstLength c e ∣ programPageSize) (ha : burstLength c e ∣ a)
    {bursts : Nat} (hlen : data.length = bursts * burstLength c e)
    (hdue : e.Due fault c.vendor.programOpcode (bursts + skip)) :
    Drive.Ends Emulator.block (Controller.bulkWrite p data) c e
      (fun _ _ t => t.Due fault c.vendor.programOpcode skip) (fun _ _ _ => False) := by
  refine Drive.Ends.bind (h.ends_writeOn_due hp (d := 0) (Nat.le_refl _) hfit hblank hable hdvd ha
    hlen hdue) (fun _ _ _ hf => hf) ?_
  intro _ c' t hdone
  exact Drive.Ends.lift ⟨(), t, Emulator.run_giveWay, hdone⟩

/-- A bulk write whose first burst is struck leaves all cells blank behind it. -/
theorem ends_bulkWrite_struck (h : Ready c e i) (hp : Locates p i a) (hdata : data ≠ [])
    (hfit : a + data.length ≤ e.config.capacity) (hblank : Blank e i a (a + data.length))
    (hdrops : fault.drops = true) (hdue : e.Due fault c.vendor.programOpcode 0) :
    Drive.Ends Emulator.block (Controller.bulkWrite p data) c e (fun _ _ _ => False)
      (fun _ _ t => Blank t i (a + burstLimit c e a) (a + data.length)) := by
  cases data with
  | nil => exact absurd rfl hdata
  | cons byte more =>
    obtain ⟨hword, hplace⟩ := hp.advance (n := 0) hp.lt
    refine Drive.Ends.bind (M := fun _ _ _ => False) ?_ (fun _ _ _ hf => hf)
      fun _ _ _ hf => hf.elim
    rw [List.length_cons, Controller.writeOn]
    apply Drive.Ends.step (Proc.run_advance hword)
    refine Drive.Ends.bind (h.ends_writeChunk_struck hplace hdata hfit hblank hdrops hdue) ?_
      fun _ _ _ hf => hf.elim
    intro _ c' t hpost
    obtain ⟨k, hk, hprogrammed⟩ := hpost
    exact hprogrammed.blank.mono (Nat.add_le_add_left hk a) (Nat.le_refl _)

/-! ## Page operations -/

/-- A merge that the plan lets through. -/
theorem ends_mergePage_due (h : Ready c e i) (hp : Locates p i a) (hdata : data ≠ [])
    (ha : a < e.config.capacity) (hpage : page.length = pageSize) (hable : Able c e)
    (hdvd : burstLength c e ∣ programPageSize)
    (hdue : e.Due fault c.vendor.programOpcode (pageSize / burstLength c e + skip)) :
    Controller.Merge.Ends Emulator.block (Controller.mergePage p data) page c e
      (fun n _ _ t => n = min (pageSize - a % pageSize) data.length ∧
        t.Due fault c.vendor.programOpcode skip)
      (fun _ _ _ _ => False) := by
  have hop := c.vendor.programOpcode_not_plain
  have hpages : burstLength c e ∣ pageSize := Nat.dvd_trans hdvd (by decide)
  refine (h.ends_mergePage_of hp hdata ha hpage
    (A := fun _ t => t.Due fault c.vendor.programOpcode skip) (E := fun _ _ => False) ?_ ?_).mono
    (fun _ _ _ _ hok => ⟨hok.1, hok.2.2⟩) fun _ _ _ _ hf => hf
  -- a plan that is due later causes no failure before the bulk write
  · exact fun _ _ hf _ => hdue.not_stopped hop hf.stopped hable.1
  · intro left right c₁ e₁ haround hran herased _
    have hbuffer := haround.length_eq
    have hvendor := hran.kept.vendor_eq h.attached
    have hburst := hran.kept.burstLength_eq
    have hend := h.attached.page_le ha
    have hbursts : (left ++ data.take (pageSize - a % pageSize) ++ right).length =
        pageSize / burstLength c e * burstLength c₁ e₁ := by
      rw [hbuffer, hburst, Nat.div_mul_cancel hpages]
    rw [← hvendor] at hdue hop ⊢
    refine hran.ready.ends_bulkWrite_due hp.pageStart ?_ ?_ (hran.kept.able_iff.mpr hable)
      (hburst ▸ hdvd) ?_ hbursts (hdue.passed hop hran.passed)
    · rw [hbuffer, hran.kept.config]
      exact hend
    · rw [hbuffer]
      exact herased.blank
    · rw [hburst]
      exact Nat.dvd_trans hpages (Nat.dvd_sub_mod a)

/-- A merge whose first burst is struck leaves its page blank behind it. -/
theorem ends_mergePage_struck (h : Ready c e i) (hp : Locates p i a) (hdata : data ≠ [])
    (ha : a < e.config.capacity) (hpage : page.length = pageSize) (hpatient : Patient c e)
    (hdrops : fault.drops = true) (hdue : e.Due fault c.vendor.programOpcode 0) :
    Controller.Merge.Ends Emulator.block (Controller.mergePage p data) page c e
      (fun _ _ _ _ => False)
      (fun _ _ _ t => Blank t i (a - a % pageSize + burstLength c e)
        (a - a % pageSize + pageSize)) := by
  have hop := c.vendor.programOpcode_not_plain
  refine (h.ends_mergePage_of hp hdata ha hpage (A := fun _ _ => False)
    (E := fun _ t => Blank t i (a - a % pageSize + burstLength c e)
      (a - a % pageSize + pageSize)) ?_ ?_).mono (fun _ _ _ _ hok => hok.2.2)
    fun _ _ _ _ hf => hf
  · exact fun _ _ hf _ => absurd hpatient (hdue.not_stopped hop hf.stopped)
  · intro left right c₁ e₁ haround hran herased _
    have hbuffer := haround.length_eq
    have hvendor := hran.kept.vendor_eq h.attached
    have hend := h.attached.page_le ha
    rw [← hvendor] at hdue hop
    refine (hran.ready.ends_bulkWrite_struck hp.pageStart ?_ ?_ ?_ hdrops
      (hdue.passed hop hran.passed)).mono (fun _ _ _ hf => hf) fun _ _ _ hblank => ?_
    · rw [← List.length_pos_iff, hbuffer]
      decide
    · rw [hbuffer, hran.kept.config]
      exact hend
    · rw [hbuffer]
      exact herased.blank
    · rw [hbuffer] at hblank
      refine hblank.mono (Nat.add_le_add_left ?_ _) (Nat.le_refl _)
      rw [← hran.kept.burstLength_eq]
      exact Nat.min_le_left _ _

/-- Where no unit fits, a page operation is a merge. -/
theorem ends_programPage_merge {A : Nat → Bytes → Controller → Emulator → Prop}
    {E : Error → Bytes → Controller → Emulator → Prop} (hlen : data.length < pageSize)
    (h : Controller.Merge.Ends Emulator.block (Controller.mergePage p data) page c e A E) :
    Controller.Merge.Ends Emulator.block (Controller.programPage p data) page c e A E := by
  have hnone : EraseUnit.forSpan? p data.length = none := by
    cases hspan : EraseUnit.forSpan? p data.length with
    | none => rfl
    | some unit =>
      have hle := (EraseUnit.of_forSpan? hspan).2
      have hunit := unit.pageSize_le_bytes
      omega
  refine Controller.Merge.Ends.bind (Controller.Merge.Ends.drive
    (A := fun r page' c' t => r = none ∧ page = page' ∧ c = c' ∧ e = t)
    (E := fun _ _ _ _ => False) ?_) (fun _ _ _ _ hf => hf.elim) ?_
  · rw [Controller.rewriteUnit, hnone]
    exact Drive.Ends.pure ⟨rfl, rfl, rfl, rfl⟩
  · intro _ _ _ _ hpost
    obtain ⟨rfl, rfl, rfl, rfl⟩ := hpost
    exact h

end Ready

/-! ## Writes -/

/-- Data at `a` that goes from one page on into the next, with a fault planned
for the first burst there that drops it. -/
structure Doomed (fault : Fault) (a : Nat) (data : Bytes) (c : Controller) (e : Emulator) : Prop
    where
  short : data.length < pageSize
  crosses : pageSize < a % pageSize + data.length
  fits : a + data.length ≤ e.config.capacity
  able : Able c e
  divides : burstLength c e ∣ programPageSize
  drops : fault.drops = true
  due : e.Due fault c.vendor.programOpcode (pageSize / burstLength c e)

theorem Doomed.nonempty (h : Doomed fault a data c e) : data ≠ [] := by
  have hmod := Nat.mod_lt a pageSize_pos
  have hcross := h.crosses
  rw [← List.length_pos_iff]
  omega

theorem Doomed.of_ran (h : Doomed fault a data c e) (ha : Attached c e)
    (hran : Ran Spares i c e c' t) : Doomed fault a data c' t where
  short := h.short
  crosses := h.crosses
  fits := hran.kept.config ▸ h.fits
  able := hran.kept.able_iff.mpr h.able
  divides := hran.kept.burstLength_eq ▸ h.divides
  drops := h.drops
  due := by
    rw [hran.kept.burstLength_eq, hran.kept.vendor_eq ha]
    exact h.due.passed c.vendor.programOpcode_not_plain hran.passed

/-- The front of the data is stored, and the next page is left blank behind its
first burst. -/
theorem Ready.ends_writePages_struck (h : Ready c e i) (hp : Locates p i a)
    (hd : Doomed fault a data c e) (hpage : page.length = pageSize) {fuel : Nat}
    (hfuel : data.length ≤ fuel) :
    (Flash.writePages p fuel 0 data page c).Ends Emulator.block e fun r t =>
      (∃ error, r.1 = .error ⟨pageSize - a % pageSize, error⟩) ∧
        Blank t i (a - a % pageSize + pageSize + burstLength c e)
          (a - a % pageSize + 2 * pageSize) := by
  obtain ⟨hshort, hcross, hfit, hable, hdvd, hdrops, hdue⟩ := hd
  have hmod := Nat.mod_lt a pageSize_pos
  have hlt := h.attached.lt_word32 hfit
  generalize hk : pageSize - a % pageSize = k at *
  obtain ⟨fuel, rfl⟩ : ∃ n, fuel = n + 2 := ⟨fuel - 2, by omega⟩
  cases data with
  | nil => exact absurd hcross (by rw [List.length_nil]; omega)
  | cons byte more =>
  rw [Flash.writePages]
  obtain ⟨hword, hplace⟩ := hp.advance (n := 0) hp.lt
  apply Proc.Ends.step_state (Proc.run_advance hword)
  have hdata : byte :: more ≠ [] := List.cons_ne_nil byte more
  generalize byte :: more = data at *
  -- the page that the plan lets through
  have hdue : e.Due fault c.vendor.programOpcode (pageSize / burstLength c e + 0) := hdue
  refine Proc.Ends.bind_state (Ready.ends_programPage_merge hshort
    ((h.ends_mergePage hplace hdata (by omega) hpage).and
      (h.ends_mergePage_due hplace hdata (by omega) hpage hable hdvd hdue))) ?_
  intro r c₁ e₁ hmerge
  obtain ⟨error | n, page'⟩ := r
  · exact hmerge.2.elim
  obtain ⟨⟨hpage', hstored⟩, hn, hdue₁⟩ := hmerge
  rw [Nat.add_zero, hk, Nat.min_eq_left (by omega)] at hn
  subst hn
  have hready := hstored.ran.ready
  have hkept := hstored.ran.kept
  have hrest : (data.drop n).length = data.length - n := List.length_drop
  apply Proc.Ends.step_state (Proc.run_split (by omega))
  dsimp only
  apply Proc.Ends.step_state (Proc.run_count (lt_wordLimit_of_word32 (by omega)))
  generalize data.drop n = rest at *
  -- the page that the fault strikes
  cases rest with
  | nil => exact absurd hrest (by rw [List.length_nil]; omega)
  | cons byte' more' =>
  rw [Flash.writePages, Nat.zero_add]
  obtain ⟨hword', hplace'⟩ := hp.advance (n := n) (by omega)
  apply Proc.Ends.step_state (Proc.run_advance hword')
  have hrest' : byte' :: more' ≠ [] := List.cons_ne_nil byte' more'
  generalize byte' :: more' = rest at *
  have hcap := hkept.config
  rw [← hkept.vendor_eq h.attached] at hdue₁
  refine Proc.Ends.bind_state (Ready.ends_programPage_merge (by omega)
    (hready.ends_mergePage_struck hplace' hrest' (by rw [hcap]; omega) hpage'
      (hkept.patient_iff.mpr hable.1) hdrops hdue₁)) ?_
  intro r c₂ e₂ hstruck
  obtain ⟨error | n', page''⟩ := r
  · refine Proc.Ends.step_state Emulator.run_log (Proc.Ends.pure ⟨⟨_, rfl⟩, ?_⟩)
    have hstart : a + n - (a + n) % pageSize = a - a % pageSize + pageSize := by
      simp only [pageSize] at *
      omega
    rw [hkept.burstLength_eq, hstart] at hstruck
    exact hstruck.mono (Nat.le_refl _) (by omega)
  · exact hstruck.elim

/-- A write of such data to a chip that gets ready in time. -/
theorem Attached.ends_write_struck (h : Attached f.controller e) (hp : Locates p i a)
    (hd : Doomed fault a data f.controller e)
    (hbusy : (e.chip i).busy.toNat ≤ f.controller.tuning.pollBudget.maxPolls) :
    (Flash.write p data f).Ends Emulator.block e fun r t =>
      (∃ error, r.1 = .error ⟨pageSize - a % pageSize, error⟩) ∧
        Blank t i (a - a % pageSize + pageSize + burstLength f.controller e)
          (a - a % pageSize + 2 * pageSize) := by
  have hfits := hd.fits
  apply Proc.Ends.bind_get_state
  rw [List.take_of_length_le (by rw [h.remaining_eq, hp.chipOffset_eq]; omega)]
  have hdata : data.isEmpty = false := List.isEmpty_eq_false_iff.mpr hd.nonempty
  simp only [hdata]
  apply Proc.Ends.step_state Emulator.run_log
  apply Proc.Ends.onController
  refine Proc.Ends.bind_state (h.ends_prepare p) ?_
  intro r c₁ e₁ hprepared
  rcases r with error | _
  · exact absurd ⟨i, hp.slave, hbusy⟩
      (hd.due.not_stopped f.controller.vendor.programOpcode_not_plain hprepared.1.stopped)
  · obtain ⟨j, hp', hran, -, -⟩ := hprepared
    obtain ⟨rfl, -⟩ := hp.unique hp'
    refine (hran.ready.ends_writePages_struck hp (hd.of_ran h hran) (Bytes.length_filled _ _)
      (Nat.le_refl _)).mono ?_
    intro x t hstruck
    obtain ⟨r, c₂⟩ := x
    rw [hran.kept.burstLength_eq] at hstruck
    exact hstruck

end NorFlash
