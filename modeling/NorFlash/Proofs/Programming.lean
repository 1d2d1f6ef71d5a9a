import NorFlash.Proofs.Reading

/-!
# Programming — bursts of a bulk write

Programming can only clear bits, so the cells to program have to be blank. A
bulk write that fails has programmed a front part of its data, and the other
cells of the range are still blank.
-/

namespace NorFlash

open Emulator (Answered Refused Fired Carried Untouched Passed Stopped Spares Unarmed strike)

variable {c c' : Controller} {e m t : Emulator} {i : Fin maxSlaves} {p : UInt64} {a n : Nat}
  {data : Bytes}

/-- The plan lets one more command with this opcode through, and all others. -/
def Emulator.LetsThrough (op : UInt8) (armed : Option ArmedFault) : Prop :=
  Spares armed ∧ (strike armed op).1 = none

theorem Emulator.Unarmed.letsThrough {op : UInt8} {armed : Option ArmedFault} (h : Unarmed armed) :
    Emulator.LetsThrough op armed := by
  refine ⟨h.spares, ?_⟩
  rw [show armed = none from h]
  rfl

/-- The plan that a burst meets behind commands that it spares is the first one, and what
it is afterwards is what the burst left. -/
theorem Emulator.Passed.fired {op : UInt8} (h : Passed Spares e m) (hf : Fired op m t)
    (hfree : ¬ e.Blocked) (hspares : Spares e.armed) :
    m.armed = e.armed ∧ t.armed = (strike e.armed op).2 ∧ Spares t.armed ∧
      ((strike e.armed op).1 = none → ¬ t.Blocked) := by
  obtain ⟨hfree', harmed⟩ := h.clear hfree hspares
  obtain ⟨hrest, hopen⟩ := hf.fires hfree'
  rw [harmed] at hrest hopen
  exact ⟨harmed, hrest, hrest ▸ hspares.rest _, hopen⟩

/-- The budget covers a program, and bursts may carry data. -/
def Able (c : Controller) (e : Emulator) : Prop :=
  Patient c e ∧ 0 < c.tuning.writeMaxLen

theorem Kept.able_iff (h : Kept c e c' t) : Able c' t ↔ Able c e := by
  rw [Able, Able, h.patient_iff, h.tuning]

/-- Most data bytes of a program burst at `a`. -/
def burstLimit (c : Controller) (e : Emulator) (a : Nat) : Nat :=
  min (min (e.config.fifoDepth - Opcode.headerLen) c.tuning.writeMaxLen)
    (programPageSize - a % programPageSize)

theorem burstLimit_le_page (c : Controller) (e : Emulator) (a : Nat) :
    a % programPageSize + burstLimit c e a ≤ programPageSize := by
  have hmod := Nat.mod_lt a programPageSize_pos
  rw [burstLimit]
  omega

/-- A burst has room for data behind its header, but for a limit of zero. -/
theorem Attached.burstLimit_bounds (h : Attached c e) (a : Nat) :
    Opcode.headerLen + burstLimit c e a ≤ e.config.fifoDepth ∧
      (burstLimit c e a = 0 ↔ c.tuning.writeMaxLen = 0) := by
  have hdepth := h.overhead_lt
  have hmod := Nat.mod_lt a programPageSize_pos
  rw [burstLimit]
  omega

theorem burstLimit_of_locates (hp : Locates p i a) : burstLimit c e p.toNat = burstLimit c e a := by
  rw [burstLimit, hp.programIndex_eq, burstLimit]

/-- A chip with blank cells holds what is programmed there. -/
theorem Attached.read_programRange (h : Attached c e)
    (hpage : a % programPageSize + data.length ≤ programPageSize)
    (hfit : a + data.length ≤ e.config.capacity) (hblank : Blank e i a (a + data.length)) {b : Nat}
    (hb : b < e.config.capacity) :
    (Chip.programRange (e.chip i).contents a data).read b =
      if h : a ≤ b ∧ b < a + data.length then data[b - a] else e.cell i b := by
  rw [PageStore.read_programRange _ hpage (h.sizes i ▸ hfit) (h.sizes i ▸ hb)]
  split
  · rename_i hin
    have hff : (e.chip i).contents.read b = 0xff := hblank b hin.1 hin.2
    rw [hff, ← UInt8.toBitVec_inj]
    exact BitVec.allOnes_and
  · rfl

/-- What a chip is left with by programming the front of the data. -/
theorem Attached.programmed_of_leaves {busy : UInt32} (h : Attached c e) (hn : n ≤ data.length)
    (hpage : a % programPageSize + n ≤ programPageSize)
    (hfit : a + data.length ≤ e.config.capacity) (hblank : Blank e i a (a + data.length))
    (hl : Leaves i (Chip.programRange (e.chip i).contents a (data.take n)) busy e t) :
    Programmed i a data n e t := by
  have hlen : (data.take n).length = n := List.length_take_of_le hn
  have hread : ∀ b < e.config.capacity,
      (Chip.programRange (e.chip i).contents a (data.take n)).read b =
        if h : a ≤ b ∧ b < a + (data.take n).length then (data.take n)[b - a] else e.cell i b := by
    intro b hb
    exact h.read_programRange (by omega) (by omega) (hblank.mono (Nat.le_refl a) (by omega)) hb
  have hcell : ∀ b,
      t.cell i b = (Chip.programRange (e.chip i).contents a (data.take n)).read b := by
    intro b
    rw [Emulator.cell, hl.chip_eq.1]
  refine ⟨hn, ?_, ?_, hl.sameOutside ?_⟩
  · intro k hk
    rw [hcell, hread _ (by omega), dif_pos (by omega)]
    simp only [Nat.add_sub_cancel_left]
  · intro b hlo hhi
    rw [hcell, hread b (by omega), dif_neg (by omega)]
    exact hblank b (by omega) hhi
  · intro b hb hout
    rw [hread b hb, dif_neg (by omega)]
    rfl

namespace Ready

/-- The program command itself, with a header and data in the scratch buffer and the
latch set: the data is programmed where the header says. -/
theorem lands_runProgram (h : Ready c e i) {high middle low : UInt8}
    (ha : (e.chip i).address high middle low = a) (hlatch : (e.chip i).writeEnabled = true)
    (hdata : data ≠ []) {rest : Bytes}
    (hscratch : c.scratch = c.vendor.programOpcode :: high :: middle :: low :: data ++ rest) :
    Drive.Ends Emulator.block (Controller.runScratch (Opcode.headerLen + data.length) false) c e
      (fun _ c' t => Kept c e c' t ∧ c'.bus = c.bus ∧ Fired c.vendor.programOpcode e t ∧
        (∀ f, (strike e.armed c.vendor.programOpcode).1 = some f → f.drops = false) ∧
        Leaves i (Chip.programRange (e.chip i).contents a data) e.config.busyPolls e t)
      (fun _ c' t => Failed (Emulator.LetsThrough c.vendor.programOpcode) True c e c' t ∧
        t.chips = e.chips) := by
  have hr := Chip.react_program e.config h.idle h.attached.vendor hlatch high middle low hdata
  rw [ha] at hr
  have hlen : Opcode.headerLen + data.length =
      (c.vendor.programOpcode :: high :: middle :: low :: data).length := by
    simp [Opcode.headerLen]
    omega
  rw [hlen]
  refine (h.ends_runDrained hscratch hr (PageStore.capacity_programRange _ _ _) rfl (by simp)
    (by simp)).mono ?_ ?_
  · intro _ c' t hpost
    obtain ⟨hkept, hbus, hfired, hpassed, hset⟩ := hpost
    exact ⟨hkept, hbus, hfired, hpassed, .of_set hset rfl rfl⟩
  · intro _ c' t hpost
    obtain ⟨hkept, hchips, hstopped⟩ := hpost
    exact ⟨⟨hkept, hstopped _ fun _ hk => hk.2⟩, hchips⟩

/-- A program command with the header of blank cells. -/
theorem ends_runProgram (h : Ready c e i) (hh : Headed c.vendor.programOpcode p i c e)
    (hp : Locates p i a) (hlatch : (e.chip i).writeEnabled = true) (hdata : data ≠ [])
    (hpage : a % programPageSize + data.length ≤ programPageSize)
    (hfit : a + data.length ≤ e.config.capacity) (hblank : Blank e i a (a + data.length))
    {rest : Bytes} (hscratch : c.scratch = c.vendor.programOpcode :: (Address.ofOffset p).high ::
      (Address.ofOffset p).middle :: (Address.ofOffset p).low :: data ++ rest) :
    Drive.Ends Emulator.block (Controller.runScratch (Opcode.headerLen + data.length) false) c e
      (fun _ c' t => Kept c e c' t ∧ c'.bus = c.bus ∧ Fired c.vendor.programOpcode e t ∧
        (∀ f, (strike e.armed c.vendor.programOpcode).1 = some f → f.drops = false) ∧
        Programmed i a data data.length e t ∧ (t.chip i).busy = e.config.busyPolls)
      (fun _ c' t => Failed (Emulator.LetsThrough c.vendor.programOpcode) True c e c' t ∧
        SameContents e t) := by
  refine (h.lands_runProgram (hh.address hp) hlatch hdata hscratch).mono ?_ ?_
  · intro _ c' t hpost
    obtain ⟨hkept, hbus, hfired, hpassed, hleaves⟩ := hpost
    have hbusy := hleaves.chip_eq.2
    rw [← data.take_length] at hleaves
    exact ⟨hkept, hbus, hfired, hpassed,
      h.attached.programmed_of_leaves (Nat.le_refl _) hpage hfit hblank hleaves, hbusy⟩
  · exact fun _ _ _ hf => ⟨hf.1, .of_chips hf.2⟩

/-- What a burst does to the plan for a fault, if the plan spares the commands
around it: it is the plan's business whether the burst goes through. -/
structure Pierced (op : UInt8) (e t : Emulator) : Prop where
  passed : ∀ f, (strike e.armed op).1 = some f → f.drops = false
  armed : t.armed = (strike e.armed op).2
  free : ¬ t.Blocked

/-- A program command with its data in the scratch buffer, from the write enable
on: it is carried out and the chip ready again, or nothing or all of the data
is programmed. -/
theorem lands_programScratch (h : Ready c e i) {high middle low : UInt8}
    (ha : (e.chip i).address high middle low = a) (hdata : data ≠ []) {rest : Bytes}
    (hscratch : c.scratch = c.vendor.programOpcode :: high :: middle :: low :: data ++ rest) :
    Drive.Ends Emulator.block (do
        Controller.enableWrite
        Controller.runScratch (Opcode.headerLen + data.length) false
        Controller.waitUntilReady
        return data.length) c e
      (fun n c' t => n = data.length ∧ Patient c e ∧
        Leaves i (Chip.programRange (e.chip i).contents a data) 0 e t ∧ Ran Unarmed i c e c' t ∧
        (¬ e.Blocked → Spares e.armed → Pierced c.vendor.programOpcode e t))
      (fun _ c' t => Failed (Emulator.LetsThrough c.vendor.programOpcode) (Patient c e) c e c' t ∧
        ∃ busy, Leaves i (e.chip i).contents busy e t ∨
          Leaves i (Chip.programRange (e.chip i).contents a data) busy e t) := by
  have hplain : ∀ a, Emulator.LetsThrough c.vendor.programOpcode a → Spares a := fun _ hk => hk.1
  refine Drive.Ends.bind h.ends_enableWrite ?_ ?_
  · intro _ _ t hpost
    obtain ⟨rfl, hf, hchips⟩ := hpost
    exact ⟨hf.mono hplain fun _ => trivial, _, .inl (.of_chips hchips)⟩
  intro _ _ e₁ hpost
  obtain ⟨rfl, hran₁, hset⟩ := hpost
  have hleaves₁ : Leaves i (e.chip i).contents (e.chip i).busy e e₁ := .of_set hset rfl rfl
  have hget : e₁.chip i = { e.chip i with writeEnabled := true } := by
    rw [Emulator.chip_of_chipsWith hset, if_pos rfl]
  have hcap := hran₁.kept.config
  refine Drive.Ends.bind (hran₁.ready.lands_runProgram (a := a) (by rw [hget]; exact ha)
    (by rw [hget]) hdata hscratch) ?_ ?_
  · intro _ c' t hpost
    obtain ⟨hf, hchips⟩ := hpost
    have hstopped := (hran₁.passed.mono hplain).stopped hf.stopped
    exact ⟨⟨hran₁.kept.trans hf.kept, hstopped.mono (fun _ hk => hk) fun _ => trivial⟩, _,
      .inl (hleaves₁.trans_chips hchips)⟩
  intro _ c₂ e₂ hpost
  obtain ⟨hk₂, hbus, hfired, hthrough, hleaves₂⟩ := hpost
  have hbusy := hleaves₂.chip_eq.2
  rw [hleaves₁.chip_eq.1] at hleaves₂
  replace hleaves₂ := hleaves₁.trans hleaves₂
  have hk := hran₁.kept.trans hk₂
  have hlone := fun hl : e.Lone => hfired.lone (hran₁.passed.lone hl)
  have hi₂ : c₂.bus.slave.toNat = i.val := by
    rw [hbus]
    exact hran₁.slave
  have hpolls : (e₂.chip i).busy.toNat ≤ c₂.tuning.pollBudget.maxPolls ↔ Patient c e := by
    rw [hbusy, hcap, hk.tuning, Patient]
  have hplan := hran₁.passed.fired hfired
  refine Drive.Ends.bind (hk₂.attached.ends_wait hi₂) ?_ ?_
  · intro _ _ t hpost
    obtain ⟨rfl, hout⟩ := hpost
    refine ⟨⟨hk.trans hout.kept, fun hpatient => ?_, fun hpatient hl => ?_⟩, _,
      .inr (hleaves₂.timedOut hout)⟩
    · by_cases hb : e.Blocked
      · exact .inl hb
      · refine .inr fun hlets => ?_
        obtain ⟨-, -, hspares₂, hfree₂⟩ := hplan hb hlets.1
        rcases hout.stopped.cause (hpolls.mpr hpatient) with hb₂ | hn
        · exact hfree₂ hlets.2 hb₂
        · exact hn hspares₂
    · exact hout.stopped.spent (hpolls.mpr hpatient) (hlone hl)
  intro _ _ t hpost
  obtain ⟨rfl, hw⟩ := hpost
  refine Drive.Ends.pure ⟨rfl, hpolls.mp hw.patient, hleaves₂.waited hw,
    ⟨hk.trans hw.kept, ⟨?_, ?_⟩, hi₂, (hw.ran hi₂).idle⟩, ?_⟩
  · exact fun hl => hw.passed.lone (hlone hl)
  · intro hfree hnone
    obtain ⟨-, harmed₂, hspares₂, hfree₂⟩ := hplan hfree hnone.spares
    obtain ⟨htfree, htarmed⟩ := hw.passed.clear (hfree₂ hnone.letsThrough.2) hspares₂
    refine ⟨htfree, htarmed.trans (harmed₂.trans ?_)⟩
    rw [show e.armed = none from hnone]
    rfl
  · intro hfree hspares
    obtain ⟨harmed₁, harmed₂, hspares₂, -⟩ := hplan hfree hspares
    have hfree₂ : ¬ e₂.Blocked := fun hb => hw.free (hw.kept.stays hb)
    obtain ⟨htfree, htarmed⟩ := hw.passed.clear hfree₂ hspares₂
    exact ⟨harmed₁ ▸ hthrough, htarmed.trans harmed₂, htfree⟩

end Ready

/-- A program burst lands where its request leads to. If it fails, at most a front part
of the data was programmed there. -/
theorem Attached.lands_writeChunk (h : Attached c e)
    (hi : (Address.ofOffset p).slave.toNat = i.val) (hidle : (e.chip i).busy = 0)
    (hdata : data ≠ []) :
    Drive.Ends Emulator.block (Controller.writeChunk p data) c e
      (fun n c' t => n = min (burstLimit c e p.toNat) data.length ∧ 0 < n ∧ Able c e ∧
        Leaves i (Chip.programRange (e.chip i).contents (c.landing e i p) (data.take n)) 0 e t ∧
        Ran Unarmed i c e c' t ∧
        (¬ e.Blocked → Spares e.armed → Ready.Pierced c.vendor.programOpcode e t))
      (fun _ c' t => Failed (Emulator.LetsThrough c.vendor.programOpcode) (Able c e) c e c' t ∧
        ∃ n ≤ min (burstLimit c e p.toNat) data.length, ∃ busy,
          Leaves i (Chip.programRange (e.chip i).contents (c.landing e i p) (data.take n)) busy
            e t) := by
  have hpos := List.length_pos_iff.mpr hdata
  have hplain : ∀ a, Emulator.LetsThrough c.vendor.programOpcode a → Spares a := fun _ hk => hk.1
  rw [Controller.writeChunk_eq, if_neg (by simpa using hdata)]
  apply Drive.Ends.bind_get
  refine Drive.Ends.bind (h.lands_buildHeader hi hidle _) ?_ ?_
  · intro _ c' t hpost
    obtain ⟨hf, hleaves⟩ := hpost
    exact ⟨(hf.mono hplain id).any, 0, Nat.zero_le _, _, hleaves⟩
  intro _ c₁ e₁ haimed
  have hran₁ := haimed.ran
  have hleaves₁ := haimed.leaves
  have hroom := hran₁.kept.attached.scratch
  obtain ⟨hfits, hwrite⟩ := h.burstLimit_bounds p.toNat
  apply Drive.Ends.bind_get
  have hlimit : min (min (c₁.scratch.length - Opcode.headerLen) c₁.tuning.writeMaxLen)
      (programPageSize - p.toNat % programPageSize) = burstLimit c e p.toNat := by
    rw [hroom, hran₁.kept.config, hran₁.kept.tuning, burstLimit]
  dsimp only
  rw [hlimit]
  by_cases hzero : burstLimit c e p.toNat = 0
  case pos =>
    have hunable : ¬ Able c e := fun hable => Nat.ne_of_gt hable.2 (hwrite.mp hzero)
    rw [hzero, if_pos (by simp)]
    exact Drive.Ends.throw ⟨⟨hran₁.kept, .of_not hunable⟩, 0, Nat.zero_le _, _, hleaves₁⟩
  generalize burstLimit c e p.toNat = limit at *
  have hlen : (data.take limit).length = min limit data.length := List.length_take
  have htake : data.take (min limit data.length) = data.take limit := by
    rw [← List.take_take, List.take_length]
  generalize data.take limit = payload at hlen htake ⊢
  have hne : payload ≠ [] := by
    rw [← List.length_pos_iff]
    omega
  rw [if_neg (by simpa using hne)]
  have hholds : Opcode.headerLen + payload.length ≤ c₁.scratch.length := by
    rw [hroom, hran₁.kept.config]
    omega
  apply Drive.Ends.step (Proc.run_overwrite hholds)
  apply Drive.Ends.bind_set
  obtain ⟨buffer, hbuffer, -, hran, rest, hcommand⟩ :=
    hran₁.with_payload haimed.scratch hholds
  rw [hbuffer]
  have hvendor : c₁.vendor = c.vendor := hran₁.kept.vendor_eq h
  rw [← hvendor] at hcommand
  refine (hran.ready.lands_programScratch haimed.address hne hcommand).mono ?_ ?_
  · intro n c' t hpost
    obtain ⟨rfl, hpatient, hleaves, hran', hpierced⟩ := hpost
    rw [hleaves₁.chip_eq.1, ← htake, ← hlen] at hleaves
    refine ⟨hlen, by omega, ⟨hran.kept.patient_iff.mp hpatient, by omega⟩, hleaves₁.trans hleaves,
      (hran.mono fun _ => Unarmed.spares).trans hran', fun hfree hspares => ?_⟩
    obtain ⟨hfree₁, harmed₁⟩ := hran₁.passed.clear hfree hspares
    have hpierced := hpierced hfree₁ (harmed₁ ▸ hspares)
    dsimp only at hpierced
    rw [hvendor] at hpierced
    exact ⟨harmed₁ ▸ hpierced.passed, harmed₁ ▸ hpierced.armed, hpierced.free⟩
  · intro _ c' t hpost
    obtain ⟨hf, busy, hleaves⟩ := hpost
    have hf := hf.mono (L := Emulator.LetsThrough c.vendor.programOpcode)
      (fun _ hk => hvendor.symm ▸ hk) id
    refine ⟨((hran.mono hplain).failed hf).mono (fun _ hk => hk) fun hable =>
      hran.kept.patient_iff.mpr hable.1, ?_⟩
    rw [hleaves₁.chip_eq.1] at hleaves
    rcases hleaves with hleaves | hleaves
    · exact ⟨0, Nat.zero_le _, busy, hleaves₁.trans hleaves⟩
    · rw [← htake] at hleaves
      exact ⟨_, Nat.le_refl _, busy, hleaves₁.trans hleaves⟩

namespace Ready

/-- One burst programs the front of the data. -/
theorem ends_writeChunk (h : Ready c e i) (hp : Locates p i a) (hdata : data ≠ [])
    (hfit : a + data.length ≤ e.config.capacity) (hblank : Blank e i a (a + data.length)) :
    Drive.Ends Emulator.block (Controller.writeChunk p data) c e
      (fun n c' t => n = min (burstLimit c e a) data.length ∧ 0 < n ∧ Able c e ∧
        Programmed i a data n e t ∧ Ran Unarmed i c e c' t ∧
        (¬ e.Blocked → Spares e.armed → Pierced c.vendor.programOpcode e t))
      (fun _ c' t => Failed (Emulator.LetsThrough c.vendor.programOpcode) (Able c e) c e c' t ∧
        ∃ k ≤ burstLimit c e a, Programmed i a data k e t) := by
  have hpos := List.length_pos_iff.mpr hdata
  have hlands := h.attached.lands_writeChunk hp.slave h.idle hdata
  rw [h.attached.landing_eq hp (by omega), burstLimit_of_locates hp] at hlands
  have hpage : ∀ {n}, n ≤ min (burstLimit c e a) data.length →
      n ≤ data.length ∧ a % programPageSize + n ≤ programPageSize := by
    intro n hn
    have hlimit := burstLimit_le_page c e a
    omega
  refine hlands.mono ?_ ?_
  · intro n _ _ hpost
    obtain ⟨hn, hpos, hable, hleaves, hran, hpierced⟩ := hpost
    obtain ⟨hle, hin⟩ := hpage (Nat.le_of_eq hn)
    exact ⟨hn, hpos, hable, h.attached.programmed_of_leaves hle hin hfit hblank hleaves, hran,
      hpierced⟩
  · intro _ _ _ hpost
    obtain ⟨hf, n, hn, busy, hleaves⟩ := hpost
    obtain ⟨hle, hin⟩ := hpage hn
    exact ⟨hf, n, by omega, h.attached.programmed_of_leaves hle hin hfit hblank hleaves⟩

/-! ## Bursts in a row -/

/-- Bursts program the data from its front on, until one fails. -/
theorem ends_writeOn (h : Ready c e i) (hp : Locates p i a) {fuel d : Nat}
    (hfuel : data.length ≤ fuel) (hfit : a + d + data.length ≤ e.config.capacity)
    (hblank : Blank e i (a + d) (a + d + data.length)) :
    Drive.Ends Emulator.block (Controller.writeOn p fuel d data) c e
      (fun _ c' t => Ran Unarmed i c e c' t ∧ Programmed i (a + d) data data.length e t ∧
        (data ≠ [] → Able c e))
      (fun _ c' t => Failed Unarmed (Able c e) c e c' t ∧
        ∃ k, Programmed i (a + d) data k e t) := by
  induction fuel generalizing d data c e with
  | zero =>
    obtain rfl : data = [] := List.eq_nil_of_length_eq_zero (by omega)
    exact Drive.Ends.pure ⟨h.ran, .zero (.refl e) hblank, fun hne => absurd rfl hne⟩
  | succ fuel ih =>
    cases data with
    | nil => exact Drive.Ends.pure ⟨h.ran, .zero (.refl e) hblank, fun hne => absurd rfl hne⟩
    | cons byte more =>
      have hlt := h.attached.lt_word32 (Nat.le_trans (Nat.le_add_right (a + d) _) hfit)
      have hend := h.attached.lt_word32 hfit
      obtain ⟨hword, hpos⟩ := hp.advance hlt
      rw [Controller.writeOn]
      apply Drive.Ends.step (Proc.run_advance hword)
      refine Drive.Ends.bind (h.ends_writeChunk hpos (by simp) hfit hblank) ?_ ?_
      · intro _ c' t hpost
        obtain ⟨hf, k, -, hprogrammed⟩ := hpost
        exact ⟨hf.mono (fun _ hn => hn.letsThrough) id, k, hprogrammed⟩
      intro n c₁ e₁ hpost
      obtain ⟨hn, hpos, hable, hprogrammed, hran, -⟩ := hpost
      have hn : n ≤ (byte :: more).length := by omega
      generalize byte :: more = data at *
      apply Drive.Ends.step (Proc.run_split hn)
      dsimp only
      have hlen : (data.drop n).length = data.length - n := List.length_drop
      have hcap := hran.kept.config
      have hrest : a + (d + n) + (data.drop n).length = a + d + data.length := by omega
      have hblank₁ : Blank e₁ i (a + (d + n)) (a + (d + n) + (data.drop n).length) := by
        rw [hrest, ← Nat.add_assoc]
        exact hprogrammed.blank
      -- what the later bursts program joins what this one did
      have happend : ∀ {k t}, Programmed i (a + (d + n)) (data.drop n) k e₁ t →
          Programmed i (a + d) data (n + k) e t := by
        intro k t h'
        rw [← Nat.add_assoc] at h'
        exact hprogrammed.append h' hcap hfit
      apply Drive.Ends.step (Proc.run_count (lt_wordLimit_of_word32 (by omega)))
      refine (ih hran.ready (by omega) (by rw [hcap]; omega) hblank₁).mono ?_ ?_
      · intro _ c' t hpost
        obtain ⟨hran', hprogrammed', -⟩ := hpost
        have hall := happend hprogrammed'
        rw [hlen, Nat.add_sub_cancel' hn] at hall
        exact ⟨hran.trans hran', hall, fun _ => hable⟩
      · intro _ c' t hpost
        obtain ⟨hf, k, hprogrammed'⟩ := hpost
        exact ⟨(hran.failed hf).mono (fun _ h => h) fun _ => hran.kept.able_iff.mpr hable, n + k,
          happend hprogrammed'⟩

/-- A bulk write to blank cells. -/
theorem ends_bulkWrite (h : Ready c e i) (hp : Locates p i a)
    (hfit : a + data.length ≤ e.config.capacity) (hblank : Blank e i a (a + data.length)) :
    Drive.Ends Emulator.block (Controller.bulkWrite p data) c e
      (fun _ c' t => Ran Unarmed i c e c' t ∧ Programmed i a data data.length e t ∧
        (data ≠ [] → Able c e))
      (fun _ c' t => Failed Unarmed (Able c e) c e c' t ∧ ∃ k, Programmed i a data k e t) := by
  refine Drive.Ends.bind (h.ends_writeOn hp (d := 0) (Nat.le_refl _) hfit hblank)
    (fun _ _ _ hf => hf) ?_
  intro _ c' t hdone
  exact Drive.Ends.lift ⟨(), t, Emulator.run_giveWay, hdone⟩

end Ready

end NorFlash
