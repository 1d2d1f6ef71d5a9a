import NorFlash.Proofs.Countdown
import NorFlash.Proofs.Exactness

/-!
# Partial writes — what a write that failed leaves behind

A write that failed says how many bytes it stored. Beyond those only the erase
unit is affected that it was programming; if it failed before it programmed
anything, nothing is.
-/

namespace NorFlash

open Emulator (Spares Unarmed)

variable {c c' : Controller} {e m t : Emulator} {i : Fin maxSlaves} {f f' : Flash}
  {config : EmulatorConfig} {tuning : Tuning} {p : UInt64} {a n : Nat} {data : Bytes}

/-- The place `n` bytes behind an offset. -/
theorem Locates.add (h : Locates p i a) (hn : a + n < word32Limit) :
    Locates (p + UInt64.ofNat n) i (a + n) := by
  have hadvance := (h.advance hn).2
  rwa [UInt64.ofNat_add, UInt64.ofNat_toNat] at hadvance

/-- The unit that a write of `len` bytes at `p` erases first: the largest that
starts there and that the bytes cover, or else the 4 KiB page of the place. -/
def firstUnit (p : UInt64) (len : Nat) : EraseUnit :=
  (EraseUnit.forSpan? p len).getD .page

/-- Address `b` of chip `i` lies in the unit around the place that `p` names. -/
def InUnit (unit : EraseUnit) (p : UInt64) (i : Fin maxSlaves) (b : Nat) : Prop :=
  (Address.ofOffset p).slave.toNat = i.val ∧ b / unit.bytes = (chipOffset p).toNat / unit.bytes

/-- Outside of the unit around `x`, an address is below its start or beyond its
end. -/
theorem outside_of_div_ne {u x b : Nat} (h : b / u ≠ x / u) :
    b < x - x % u ∨ x - x % u + u ≤ b := by
  have hx := Nat.div_add_mod x u
  refine Classical.byContradiction fun hin => h ?_
  have hlo : x / u * u ≤ b := by
    rw [Nat.mul_comm]
    omega
  have hhi : b < (x / u + 1) * u := by
    rw [Nat.add_mul, Nat.mul_comm, Nat.one_mul]
    omega
  exact Nat.div_eq_of_lt_le hlo hhi

/-- An interruption affects what was stored before, and one unit. -/
theorem Interrupted.cell_eq (h : Interrupted i a data n c e c' t) (hp : Locates p i a)
    (hdummy : c.tuning.readDummyLen = Chip.readDummyLen) (hlt : a + data.length < word32Limit)
    {j : Fin maxSlaves} {b : Nat} (hb : b < e.config.capacity)
    (hstored : ¬ ((Address.ofOffset p).slave.toNat = j.val ∧ a ≤ b ∧ b < a + n))
    (hunit : ¬ InUnit (firstUnit (p + UInt64.ofNat n) (data.length - n)) (p + UInt64.ofNat n) j b) :
    t.cell j b = e.cell j b := by
  have hn := h.lt
  have hq := hp.add (n := n) (by omega)
  refine h.same hdummy j b hb ?_
  rintro rfl
  rw [InUnit, hq.chipOffset_eq, not_and] at hunit
  have hne := hunit hq.slave
  have haligned := h.aligned
  rw [firstUnit, ← hq.pageUnit_eq] at hne
  rw [pageUnitStart] at *
  have hout := outside_of_div_ne hne
  have hslave := hp.slave
  by_cases hpos : 0 < n
  · have := haligned hpos
    omega
  · omega

/-! ## A fault behind a page boundary -/

/-- A plan for the first program burst behind those of one page. -/
def secondPagePlan : ArmedFault :=
  { fault := .error 0x400, opcode := some Opcode.quadProgram, skip := 32 }

/-- It dooms two bytes at the end of the first page, with the default tuning on
a default emulator that was just attached. -/
theorem Engaged.doomed (h : Engaged {} m f.controller e) (hconfig : m.config = {})
    (hunarmed : m.armed = none) :
    Doomed (.error 0x400) 0xfff [0x11, 0x22] f.controller (e.arm secondPagePlan) := by
  have hconfig' : (e.arm secondPagePlan).config = {} := h.config.trans hconfig
  have htuning := h.tuning
  have hburst : burstLength f.controller (e.arm secondPagePlan) = 128 := by
    rw [burstLength, htuning, hconfig']
    rfl
  have hvendor : f.controller.vendor = .micron := by
    have hknown := h.ready.attached.vendor
    rw [show e.config = {} from hconfig'] at hknown
    exact (Option.some.inj hknown).symm
  refine ⟨by decide, by decide, ?_, ?_, ?_, rfl, ?_⟩
  · rw [hconfig']
    decide
  · rw [Able, Patient, htuning, hconfig']
    decide
  · rw [hburst]
    decide
  · rw [hburst, hvendor]
    exact ⟨(h.clear hunarmed).1, rfl⟩

/-- A default flash on which that plan is armed. The last byte of the second page is not
erased. -/
structure SecondPageStruck (f : Flash) (e : Emulator) : Prop where
  reachable : Reachable {} {} f e
  armed : e.armed = some secondPagePlan
  attached : Attached f.controller e
  tuning : f.controller.tuning = {}
  config : e.config = {}
  idle : (e.chip firstChip).busy = 0
  doomed : Doomed (.error 0x400) 0xfff [0x11, 0x22] f.controller e
  last : e.cell firstChip 0x1fff = 0x5a

/-- The plan is made after attaching, so that the driver counts from there. -/
theorem exists_secondPageStruck : ∃ f e, SecondPageStruck f e := by
  obtain ⟨f, e, hr, hengaged⟩ :=
    (Emulator.prepared_loaded {} 0x1fff [0x5a]).exists_reachable (attachable_default.loaded _ _)
  have hhandled : Emulator.Handled e (e.arm secondPagePlan) := .arm e (by decide)
  exact ⟨f, e.arm secondPagePlan, {
    reachable := .handled hr hhandled
    armed := rfl
    attached := (hhandled.attached hengaged.ready.attached).1
    tuning := hengaged.tuning
    config := hengaged.config
    idle := hengaged.ready.idle
    doomed := hengaged.doomed rfl rfl
    last := hengaged.cell_loaded (by decide) (by decide) }⟩

namespace SecondPageStruck

variable (h : SecondPageStruck f e)
include h

theorem timely : (e.chip firstChip).busy.toNat ≤ f.controller.tuning.pollBudget.maxPolls := by
  rw [h.idle]
  exact Nat.zero_le _

theorem burst_le : burstLength f.controller e ≤ 128 := by
  have hle := burstLength_le f.controller e
  rwa [h.tuning] at hle

end SecondPageStruck

/-! ## Partial writes -/

/-- **A partial write tells the truth, and its damage is confined.** What it
counts as written is stored; beyond that only the erase unit changed that the
write was working on. A write that was refused, or whose chip did not get ready,
wrote nothing. -/
theorem Reachable.write_stopped (h : Reachable config tuning f e)
    (hdummy : tuning.readDummyLen = Chip.readDummyLen) (p : UInt64) (data : Bytes) :
    (Flash.write p data f).Ends Emulator.block e fun r t => ∀ stopped, r.1 = .error stopped →
      (stopped.written < data.length ∨ stopped.written = 0) ∧
      t.HoldsAt p (data.take stopped.written) ∧
      (∀ (i : Fin maxSlaves) b, b < e.config.capacity →
        ¬ ((Address.ofOffset p).slave.toNat = i.val ∧ (chipOffset p).toNat ≤ b ∧
          b < (chipOffset p).toNat + stopped.written) →
        ¬ InUnit (firstUnit (p + UInt64.ofNat stopped.written)
            (min data.length (f.capacity - (chipOffset p).toNat) - stopped.written))
          (p + UInt64.ofNat stopped.written) i b →
        t.cell i b = e.cell i b) ∧
      (data = [] ∨ f.capacity ≤ (chipOffset p).toNat ∨
          (∃ error c m, ((Flash.prepare p).run f.controller).run Emulator.block e =
            (some (.error error, c), m)) →
        stopped.written = 0 ∧ ∀ i b, t.cell i b = e.cell i b) := by
  obtain ⟨hattached, htuning, hconfig⟩ := h.invariant (by rw [hdummy]; decide)
  rw [← htuning] at hdummy
  refine (hattached.ends_write p data).mono ?_
  intro x t y stopped hr
  obtain ⟨r, f'⟩ := x
  obtain ⟨-, hwrote⟩ := y
  have hlen : (data.take (f.remaining p)).length =
      min data.length (f.capacity - (chipOffset p).toNat) := by
    rw [List.length_take, Nat.min_comm, Flash.remaining]
  have hcapacity : f.capacity = e.config.capacity := hattached.capacity_eq
  dsimp only at hr hwrote
  subst hr
  cases hwrote with
  | refused hsame hfailed =>
    refine ⟨.inr rfl, .nil t p, fun i b _ _ _ => hsame.cell i b, fun _ => ⟨rfl, hsame.cell⟩⟩
  | @stopped i n error _ _ hbegun hstopped =>
    have hp := hbegun.located
    have hn := hstopped.lt
    rw [hlen] at hn
    have hdata : n < data.length := Nat.lt_of_lt_of_le hn (Nat.min_le_left _ _)
    have hroom : n < f.capacity - (chipOffset p).toNat :=
      Nat.lt_of_lt_of_le hn (Nat.min_le_right _ _)
    have hrange : (chipOffset p).toNat < f.capacity :=
      Nat.lt_of_sub_pos (Nat.lt_of_le_of_lt (Nat.zero_le n) hroom)
    have hlt : (chipOffset p).toNat + (data.take (f.remaining p)).length < word32Limit := by
      refine hattached.lt_word32 ?_
      rw [hlen, ← hcapacity]
      exact Nat.add_le_of_le_sub' (Nat.le_of_lt hrange) (Nat.min_le_right _ _)
    refine ⟨.inl hdata, ?_, fun j b hb hstored hunit => ?_, fun hrefused => ?_⟩
    · have hholds := (hstopped.holds hdummy).holdsAt hp
      rwa [List.take_take, Flash.remaining, Nat.min_eq_left (Nat.le_of_lt hroom)] at hholds
    · refine hstopped.cell_eq hp hdummy hlt hb hstored ?_
      rw [hlen]
      exact hunit
    -- a write that got to programming had room and was prepared
    · exfalso
      rcases hrefused with rfl | hbeyond | ⟨error, c, m, hfailed⟩
      · exact absurd hdata (Nat.not_lt_zero n)
      · exact absurd hrange (Nat.not_lt.mpr hbeyond)
      · obtain ⟨c', m', hprepared⟩ := hbegun.prepared
        rw [hfailed] at hprepared
        cases hprepared

/-- A write of two bytes that a fault stops behind the page boundary between them has stored
the first. Its damage is in the page of the second: the byte at the end of it is gone. -/
theorem write_stopped_second_page :
    ∃ f e, Reachable {} {} f e ∧ e.cell firstChip 0x1fff = 0x5a ∧
      (Flash.write 0xfff [0x11, 0x22] f).Ends Emulator.block e fun r t =>
        (∃ error, r.1 = .error ⟨1, error⟩) ∧ t.HoldsAt 0xfff [0x11] ∧
        (∀ (i : Fin maxSlaves) b, b < e.config.capacity →
          ¬ (i = firstChip ∧ 0xfff ≤ b ∧ b < 0x2000) → t.cell i b = e.cell i b) ∧
        t.cell firstChip 0x1fff = 0xff := by
  obtain ⟨f, e, h⟩ := exists_secondPageStruck
  have hp : Locates 0xfff firstChip 0xfff := ⟨by decide, by decide⟩
  refine ⟨f, e, h.reachable, h.last, ((h.reachable.write_stopped rfl 0xfff [0x11, 0x22]).and
    (h.attached.ends_write_struck hp h.doomed h.timely)).mono ?_⟩
  intro r t hpost
  obtain ⟨hstopped, ⟨error, hr⟩, hblank⟩ := hpost
  obtain ⟨-, hholds, hsame, -⟩ := hstopped _ hr
  refine ⟨⟨error, hr⟩, hholds, fun i b hb hout => hsame i b hb ?_ ?_, hblank 0x1fff ?_ (by decide)⟩
  · intro hstored
    obtain ⟨hi, hlo, hhi⟩ := hstored
    have hlo : 0xfff ≤ b := hlo
    have hhi : b < 0xfff + 1 := hhi
    exact hout ⟨Fin.ext hi.symm, by omega⟩
  -- the rest of the data covers no larger unit than the second page
  · intro hunit
    have hcapacity : f.capacity = sectorSize := h.attached.capacity_eq.trans (by rw [h.config]; rfl)
    have hunit : InUnit (firstUnit 0x1000 (min 2 (f.capacity - 0xfff) - 1)) 0x1000 i b := hunit
    have hfirst : firstUnit 0x1000 (min 2 (sectorSize - 0xfff) - 1) = .page := by decide
    rw [hcapacity, hfirst] at hunit
    obtain ⟨hi, hdiv⟩ := hunit
    have hdiv : b / 4096 = 1 := hdiv
    exact hout ⟨Fin.ext hi.symm, by omega⟩
  · have hburst := h.burst_le
    simp only [pageSize]
    omega

end NorFlash
