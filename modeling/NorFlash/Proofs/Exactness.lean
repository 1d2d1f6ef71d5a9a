import NorFlash.Proofs.Reachability

/-!
# Exactness — what reads and writes do in every reachable state

A read that ends well brings exactly what the chip holds, and a write that ends
well stores exactly its data. Both hold whatever faults struck before or strike
on the way; without faults both end well.
-/

namespace NorFlash

open Emulator (Spares Unarmed)

variable {c c' : Controller} {e m t : Emulator} {i : Fin maxSlaves} {f f' : Flash}
  {config : EmulatorConfig} {tuning : Tuning} {p : UInt64} {a n : Nat} {data : Bytes}
  {unit : EraseUnit}

/-! ## Contents by offset -/

/-- The chip that an offset names holds the data from there on. -/
def Emulator.HoldsAt (e : Emulator) (p : UInt64) (data : Bytes) : Prop :=
  ∀ k (h : k < data.length), ∃ i : Fin maxSlaves, (Address.ofOffset p).slave.toNat = i.val ∧
    e.cell i ((chipOffset p).toNat + k) = data[k]

/-- Every byte of every chip is as before, but for those of the `n` bytes from
an offset on. -/
def UnchangedBut (p : UInt64) (n : Nat) (e t : Emulator) : Prop :=
  ∀ (i : Fin maxSlaves) (b : Nat), b < e.config.capacity →
    ((Address.ofOffset p).slave.toNat = i.val →
      b < (chipOffset p).toNat ∨ (chipOffset p).toNat + n ≤ b) →
    t.cell i b = e.cell i b

theorem Emulator.HoldsAt.nil (e : Emulator) (p : UInt64) : e.HoldsAt p [] :=
  fun k hk => absurd hk (Nat.not_lt_zero k)

/-- At most one buffer of a length stands at an offset. -/
theorem Emulator.HoldsAt.unique {front back : Bytes} (h : e.HoldsAt p front)
    (h' : e.HoldsAt p back) (hlen : front.length = back.length) : front = back := by
  refine List.ext_getElem hlen fun k hk hk' => ?_
  obtain ⟨i, hi, hcell⟩ := h k hk
  obtain ⟨j, hj, hcell'⟩ := h' k hk'
  obtain rfl : i = j := Fin.ext (hi.symm.trans hj)
  exact hcell.symm.trans hcell'

theorem Holds.holdsAt (hp : Locates p i (chipOffset p).toNat)
    (h : Holds e i (chipOffset p).toNat data) : e.HoldsAt p data :=
  fun k hk => ⟨i, hp.slave, h k hk⟩

theorem SameOutside.unchangedBut (hp : Locates p i (chipOffset p).toNat)
    (h : SameOutside i (chipOffset p).toNat ((chipOffset p).toNat + n) e t) :
    UnchangedBut p n e t :=
  fun j b hb hout => h j b hb fun hj => hout (hj ▸ hp.slave)

theorem SameContents.unchangedBut (h : SameContents e t) : UnchangedBut p n e t :=
  fun j b _ _ => h.cell j b

/-! ## Calls that nothing hinders -/

/-- Nothing hinders a call at the offset: no fault is armed, the FIFOs can be
emptied, and the budget covers the time that the chip is busy yet. -/
structure Unhindered (p : UInt64) (tuning : Tuning) (e : Emulator) : Prop where
  unarmed : e.armed = none
  free : ¬ e.Blocked
  responsive : ∃ i : Fin maxSlaves, (Address.ofOffset p).slave.toNat = i.val ∧
    (e.chip i).busy.toNat ≤ tuning.pollBudget.maxPolls

/-- The FIFOs can be emptied if they are not stuck and no raised error bit is one
of the FIFO bits. -/
theorem Unhindered.of_registers (hunarmed : e.armed = none) (hloose : e.rxStuck = false)
    (hbits : e.errors &&& Status.fifoMask = 0)
    (hresponsive : ∃ i : Fin maxSlaves, (Address.ofOffset p).slave.toNat = i.val ∧
      (e.chip i).busy.toNat ≤ tuning.pollBudget.maxPolls) : Unhindered p tuning e := by
  have hfull : Status.txFull ||| Status.rxFull =
      Status.fifoMask &&& (Status.txFull ||| Status.rxFull) := by decide
  refine ⟨hunarmed, ?_, hresponsive⟩
  intro hpost
  rcases hpost with hs | herr
  · rw [hloose] at hs
    cases hs
  · apply herr
    rw [hfull, ← UInt32.and_assoc, hbits, UInt32.zero_and]

/-- A failure that needs a fault does not happen without one. -/
theorem Unhindered.not_failed {P : Prop} (h : Unhindered p tuning e) (hp : P) :
    ¬ Failed Unarmed P c e c' t := by
  intro hf
  rcases hf.stopped.cause hp with hb | hn
  · exact h.free hb
  · exact hn h.unarmed

/-! ## Reading -/

theorem FlashRead.holdsAt {arrival : Arrival} (h : FlashRead p n f e arrival f' t)
    (hdummy : f.controller.tuning.readDummyLen = Chip.readDummyLen) :
    e.HoldsAt p arrival.bytes := by
  by_cases hne : arrival.bytes = []
  · rw [hne]
    exact .nil e p
  · obtain ⟨i, hp⟩ := h.located hne
    exact (h.holds hdummy i hp).holdsAt hp

/-- **Reads are exact, even under faults.** A read changes no byte; the bytes
that arrive in the buffer are those the chip holds, and all of them if the read
ends well. Without a fault it does. -/
theorem Reachable.read_exact (h : Reachable config tuning f e)
    (hdummy : tuning.readDummyLen = Chip.readDummyLen) (p : UInt64) (buffer : Bytes) :
    (Flash.read p buffer.length f).Ends Emulator.block e fun r t =>
      (∀ i b, t.cell i b = e.cell i b) ∧
      (r.1.into buffer).length = buffer.length ∧
      r.1.bytes.length ≤ buffer.length ∧
      e.HoldsAt p ((r.1.into buffer).take r.1.bytes.length) ∧
      (r.1.into buffer).drop r.1.bytes.length = buffer.drop r.1.bytes.length ∧
      (r.1.outcome = .ok () →
        r.1.bytes.length = min buffer.length (f.capacity - (chipOffset p).toNat)) ∧
      (Unhindered p tuning e → r.1.outcome = .ok ()) := by
  obtain ⟨hattached, htuning, -⟩ := h.invariant (by rw [hdummy]; decide)
  refine (hattached.ends_read p buffer.length).mono ?_
  intro r t hread
  obtain ⟨⟨bytes, outcome⟩, f'⟩ := r
  have hle : bytes.length ≤ buffer.length := Nat.le_trans hread.le (Nat.min_le_left _ _)
  refine ⟨hread.contents.cell, ?_, hle, ?_, ?_, hread.done, fun hclear => ?_⟩
  · simp only [Arrival.into, List.length_append, List.length_drop]
    omega
  · rw [Arrival.into, List.take_left]
    exact hread.holdsAt (htuning ▸ hdummy)
  · rw [Arrival.into, List.drop_left]
  -- a failed read has a cause, and nothing hinders this one
  · refine Classical.byContradiction fun hne => ?_
    obtain ⟨i, hi, hbusy⟩ := hclear.responsive
    rcases hread.cause hne ⟨i, hi, htuning ▸ hbusy⟩ with hb | hn
    · exact hclear.free hb
    · exact hn (Unarmed.spares hclear.unarmed)

/-- A driver with the default tuning can attach to a default emulator. -/
theorem attachable_default : Attachable {} (.ofConfig {}) where
  known := ⟨.micron, sectorSize, rfl, rfl⟩
  overhead_lt := by decide
  depth_le := by decide
  unarmed := rfl
  patient := Nat.zero_le _

/-- So it can where a chip has two sectors. -/
theorem attachable_twoSectors : Attachable {} (.ofConfig { capacityCode := 0x19 }) where
  known := ⟨.micron, 2 * sectorSize, rfl, rfl⟩
  overhead_lt := by decide
  depth_le := by decide
  unarmed := rfl
  patient := Nat.zero_le _

/-- A driver that can attach to a new emulator can, whatever its first chip holds. -/
theorem Attachable.loaded (h : Attachable tuning (.ofConfig config)) (a : UInt64)
    (data : Bytes) : Attachable tuning (.loaded config a data) where
  known := h.known
  overhead_lt := h.overhead_lt
  depth_le := h.depth_le
  unarmed := h.unarmed
  patient := h.patient

theorem Engaged.capacity_eq (h : Engaged tuning e f.controller t) :
    f.capacity = e.config.capacity := by
  rw [Flash.capacity, h.ready.attached.capacity_eq, h.config]

/-- The data is there after attaching, and the chip is erased around it. -/
theorem Engaged.cell_loaded {q : UInt64} {b : Nat} (h : Engaged tuning (.loaded config q data) c t)
    (hfit : q.toNat + data.length ≤ config.capacity) (hb : b < config.capacity) :
    t.cell firstChip b =
      if h : q.toNat ≤ b ∧ b < q.toNat + data.length then data[b - q.toNat] else 0xff := by
  have hbounds := h.ready.attached.capacity_bounds.2.2
  rw [show t.config = config from h.config] at hbounds
  have hcapacity : config.capacity ≤ wordLimit := Nat.le_trans hbounds (by decide)
  exact (h.contents.cell firstChip b).trans
    (Emulator.cell_loaded hfit (Nat.le_trans hfit hcapacity) hb)

theorem Engaged.holdsAt_loaded {q : UInt64} (h : Engaged tuning (.loaded config q data) c t)
    (hslave : (Address.ofOffset p).slave = 0) (hp : (chipOffset p).toNat = q.toNat)
    (hfit : q.toNat + data.length + n ≤ config.capacity) :
    t.HoldsAt p (data ++ Bytes.filled n 0xff) := by
  intro k hk
  rw [List.length_append, Bytes.length_filled] at hk
  refine ⟨firstChip, by rw [hslave]; rfl, ?_⟩
  rw [hp, h.cell_loaded (by omega) (by omega)]
  by_cases hin : k < data.length
  · rw [dif_pos (by omega), List.getElem_append_left hin]
    simp only [Nat.add_sub_cancel_left]
  · rw [dif_neg (by omega), List.getElem_append_right (Nat.not_lt.mp hin)]
    exact (List.getElem_replicate _).symm

/-- Nothing hinders a call on the first chip right after attaching. -/
theorem Engaged.unhindered (h : Engaged tuning e f.controller t) (hunarmed : e.armed = none)
    (hp : (Address.ofOffset p).slave = 0) : Unhindered p tuning t := by
  obtain ⟨hfree, harmed⟩ := h.clear hunarmed
  refine ⟨harmed, hfree, firstChip, by rw [hp]; rfl, ?_⟩
  rw [h.ready.idle]
  exact Nat.zero_le _

/-- Two bytes that a chip holds and the erased one behind them are read into the front of
a longer buffer. -/
theorem read_exact_default :
    ∃ f e, Reachable {} {} f e ∧ (Flash.read 0x10 3 f).Ends Emulator.block e fun r t =>
      r.1.outcome = .ok () ∧ r.1.bytes = [0x5a, 0xa5, 0xff] ∧ ∀ i b, t.cell i b = e.cell i b := by
  obtain ⟨f, e, hr, hengaged⟩ :=
    (Emulator.prepared_loaded {} 0x10 [0x5a, 0xa5]).exists_reachable (attachable_default.loaded _ _)
  have hcapacity : f.capacity = sectorSize := hengaged.capacity_eq
  refine ⟨f, e, hr, (hr.read_exact rfl 0x10 [0xaa, 0xaa, 0xaa]).mono ?_⟩
  intro r t hpost
  obtain ⟨arrival, f'⟩ := r
  obtain ⟨hsame, -, -, hholds, -, hdone, hok⟩ := hpost
  have hgood := hok (hengaged.unhindered rfl (by decide))
  refine ⟨hgood, ?_, hsame⟩
  rw [Arrival.into, List.take_left] at hholds
  refine hholds.unique (hengaged.holdsAt_loaded (n := 1) rfl (by decide) (by decide)) ?_
  rw [hdone hgood, hcapacity]
  decide

/-! ## Writing -/

/-- **Writes are exact.** Whatever faults strike, a write that ends well has
stored all of its data that fits the chip and changed nothing else. Without a
fault it ends well. -/
theorem Reachable.write_exact (h : Reachable config tuning f e)
    (hdummy : tuning.readDummyLen = Chip.readDummyLen) (hlimit : 0 < tuning.writeMaxLen)
    (p : UInt64) (data : Bytes) :
    (Flash.write p data f).Ends Emulator.block e fun r t =>
      (∀ n, r.1 = .ok n →
        n = min data.length (f.capacity - (chipOffset p).toNat) ∧
        t.HoldsAt p (data.take n) ∧ UnchangedBut p n e t) ∧
      (Unhindered p tuning e → config.busyPolls.toNat ≤ tuning.pollBudget.maxPolls →
        data ≠ [] → (chipOffset p).toNat < f.capacity → ∃ n, r.1 = .ok n) := by
  obtain ⟨hattached, htuning, hconfig⟩ := h.invariant (by rw [hdummy]; decide)
  refine (hattached.ends_write p data).mono ?_
  intro x t hpost
  obtain ⟨r, f'⟩ := x
  obtain ⟨-, hwrote⟩ := hpost
  have hlen : (data.take (f.remaining p)).length = min (f.remaining p) data.length :=
    List.length_take
  refine ⟨?_, fun hclear hbusy hdata hrange => ?_⟩
  · intro n hok
    dsimp only at hok hwrote
    rw [hok] at hwrote
    cases hwrote with
    | stored _ hbegun hdone =>
      have hp := hbegun.located
      rw [← htuning] at hdummy
      -- what counts as stored is the data cut to the room that is left
      have hfull : data.take (data.take (f.remaining p)).length = data.take (f.remaining p) := by
        rw [hlen, ← List.take_eq_take_min]
      rw [hfull]
      refine ⟨?_, (hdone.holds hdummy).holdsAt hp, (hdone.same hdummy).unchangedBut hp⟩
      rw [hlen, Nat.min_comm, Flash.remaining]
  · have hpos : data.take (f.remaining p) ≠ [] := by
      rw [← List.length_pos_iff, hlen, Flash.remaining]
      exact Nat.lt_min.mpr ⟨Nat.sub_pos_of_lt hrange, List.length_pos_iff.mpr hdata⟩
    have hable : Able f.controller e := by
      rw [Able, Patient, hconfig, htuning]
      exact ⟨hbusy, hlimit⟩
    dsimp only at hwrote ⊢
    cases hwrote with
    | stored _ _ _ => exact ⟨_, rfl⟩
    | refused _ hfailed =>
      obtain ⟨i, hi, hpolls⟩ := hclear.responsive
      exact absurd (hfailed.mono (fun _ => Unarmed.spares) fun hp => hp)
        (hclear.not_failed ⟨hpos, i, hi, htuning ▸ hpolls⟩)
    | stopped _ hstopped => exact absurd hstopped.failed (hclear.not_failed hable)

/-- A byte written to an erased flash is there, and the write took it. -/
theorem write_exact_default :
    ∃ f e, Reachable {} {} f e ∧ (Flash.write 0x10 [0x5a] f).Ends Emulator.block e fun r t =>
      r.1 = .ok 1 ∧ t.HoldsAt 0x10 [0x5a] ∧ UnchangedBut 0x10 1 e t := by
  obtain ⟨f, e, hr, hengaged⟩ := Emulator.Prepared.fresh.exists_reachable attachable_default
  have hcapacity : f.capacity = sectorSize := hengaged.capacity_eq
  have hoffset : (chipOffset 0x10).toNat = 0x10 := by decide
  refine ⟨f, e, hr, (hr.write_exact rfl (by decide) 0x10 [0x5a]).mono ?_⟩
  intro x t hpost
  obtain ⟨r, f'⟩ := x
  obtain ⟨hexact, hok⟩ := hpost
  obtain ⟨n, hn⟩ := hok (hengaged.unhindered rfl (by decide)) (by decide) (by decide)
    (by rw [hcapacity, hoffset]; decide)
  obtain ⟨rfl, hholds, hsame⟩ := hexact n hn
  rw [hcapacity, hoffset] at hn hholds hsame
  exact ⟨hn, hholds, hsame⟩

/-! ## Erasing -/

/-- An aligned erase inside the chip that nothing hinders ends well. -/
theorem Attached.ends_erase_ok (h : Attached f.controller e) (hfit : unit.bytes ≤ f.remaining p)
    (halign : p.toNat % unit.bytes = 0) (hclear : Unhindered p f.controller.tuning e)
    (hpatient : Patient f.controller e) :
    (Flash.erase p unit.bytes f).Ends Emulator.block e fun r _ => r.1 = .ok () := by
  obtain ⟨i, hi, hbusy⟩ := hclear.responsive
  have hp : Locates p i (chipOffset p).toNat := ⟨hi, (chipOffset_toNat p).symm⟩
  have haligned : (chipOffset p).toNat % unit.bytes = 0 := by
    rw [← hp.isAligned_iff]
    simpa [EraseUnit.isAligned] using halign
  have hpos := unit.bytes_pos
  have hremaining := h.remaining_eq p
  apply Proc.Ends.bind_get_state
  rw [if_neg (Nat.not_lt.mpr hfit)]
  apply Proc.Ends.onController
  rw [Controller.erase, EraseUnit.ofBytes?_eq_some_iff.mpr rfl]
  refine Proc.Ends.mono (h.ends_eraseUnit hp unit (by omega)) ?_
  intro r t hr
  obtain ⟨error | _, c'⟩ := r
  · obtain ⟨hfailed, -⟩ := hr
    exact absurd (hfailed.mono (fun _ => Unarmed.spares) id)
      (hclear.not_failed ⟨haligned, hpatient, hbusy⟩)
  · rfl

end NorFlash
