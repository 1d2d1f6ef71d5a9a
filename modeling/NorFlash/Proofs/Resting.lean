import NorFlash.Proofs.FlatSpace

/-!
# Resting — controllers whose chips are all ready

The operations of a controller at any offset, also beyond the chips: where their
bursts land, and that no chip is left busy if they go well.
-/

namespace NorFlash

open Emulator (Stopped Spares)

variable {c c' : Controller} {e m t : Emulator} {i : Fin maxSlaves} {p : UInt64} {P Q : Prop}

/-- No chip is busy. -/
def Emulator.AllIdle (e : Emulator) : Prop :=
  ∀ i : Fin maxSlaves, (e.chip i).busy = 0

theorem Emulator.AllIdle.of_chips (h : e.AllIdle) (ht : t.chips = e.chips) : t.AllIdle :=
  fun j => by rw [Emulator.chip_of_chips ht, h j]

theorem Leaves.allIdle {contents : PageStore} (h : Leaves i contents 0 e t) (hidle : e.AllIdle) :
    t.AllIdle := by
  intro j
  by_cases hij : i = j
  · subst hij
    exact h.chip_eq.2
  · rw [h.chip_of_ne hij, hidle j]

/-- The controller is attached, and no chip is busy. -/
structure Resting (c : Controller) (e : Emulator) : Prop where
  attached : Attached c e
  idle : e.AllIdle

theorem Resting.ready (h : Resting c e) (hi : c.bus.slave.toNat = i.val) : Ready c e i :=
  ⟨h.attached, hi, h.idle i⟩

/-- The active slave is one of the chips. -/
theorem Resting.exists_active (h : Resting c e) : ∃ i : Fin maxSlaves, c.bus.slave.toNat = i.val :=
  ⟨⟨_, h.attached.slave_lt⟩, rfl⟩

/-- The operation failed, for a reason if `P` holds, and changed no contents. -/
structure Halted (P : Prop) (e : Emulator) (c' : Controller) (t : Emulator) : Prop where
  resting : Resting c' t
  contents : SameContents e t
  stopped : Stopped Spares P e t

namespace Halted

/-- A refusal that `P` excludes. -/
theorem of_not (h : Resting c e) (hp : ¬ P) : Halted P e c e :=
  ⟨h, .refl e, .of_not hp⟩

/-- A failure on a chip that stays ready. -/
theorem of_failed (hidle : e.AllIdle) (hf : Failed Spares True c e c' t)
    (hl : Leaves i (e.chip i).contents 0 e t) : Halted P e c' t :=
  ⟨⟨hf.kept.attached, hl.allIdle hidle⟩, hl.sameContents, hf.any.stopped⟩

end Halted

/-- A header for a slave that does not exist is refused. -/
theorem Attached.ends_buildHeader_beyond (h : Attached c e) {a : Address}
    (hslave : ¬ a.slave.toNat < maxSlaves) (opcode : UInt8) :
    Drive.Ends Emulator.block (Controller.buildHeader opcode a) c e (fun _ _ _ => False)
      (fun _ c' t => e = t ∧ c = c') := by
  refine Drive.Ends.bind (h.ends_turn a.slave) ?_ ?_
  · exact fun _ _ _ hpost => ⟨hpost.1, hpost.2.1⟩
  · exact fun _ _ _ hpost => absurd hpost.2.2.2 hslave

namespace Resting

/-- Waiting leaves no chip busy if it goes well. -/
theorem ends_wait (h : Resting c e) :
    Drive.Ends Emulator.block Controller.waitUntilReady c e (fun _ c' t => Resting c' t)
      (fun _ c' t => Attached c' t) := by
  obtain ⟨i, hi⟩ := h.exists_active
  refine (h.attached.ends_wait hi).mono ?_ ?_
  · intro _ _ t hpost
    obtain ⟨rfl, hw⟩ := hpost
    exact ⟨hw.kept.attached, ((Leaves.of_chips rfl).waited hw).allIdle h.idle⟩
  · intro _ _ t hpost
    obtain ⟨rfl, hout⟩ := hpost
    exact hout.kept.attached

/-- The latch is set, and no chip gets busy. -/
theorem ends_enableWrite (h : Resting c e) :
    Drive.Ends Emulator.block Controller.enableWrite c e (fun _ c' t => Resting c' t)
      (fun _ c' t => Resting c' t) := by
  obtain ⟨i, hi⟩ := h.exists_active
  refine (h.ready hi).ends_enableWrite.mono ?_ ?_
  · intro _ _ t hpost
    obtain ⟨rfl, hran, hset⟩ := hpost
    exact ⟨hran.kept.attached, (Leaves.of_set hset rfl (h.idle i)).allIdle h.idle⟩
  · intro _ _ t hpost
    obtain ⟨rfl, hf, hchips⟩ := hpost
    exact ⟨hf.kept.attached, h.idle.of_chips hchips⟩

/-- The active chip has the selected sector, whichever was asked for. -/
theorem ends_selectSector (h : Resting c e) (hi : c.bus.slave.toNat = i.val) (sector : UInt8) :
    Drive.Ends Emulator.block (Controller.selectSector sector) c e
      (fun _ c' t => Resting c' t ∧ c' = { c with sector } ∧
        ∃ latch, t.chips = e.chipsWith i
          { e.chip i with writeEnabled := latch, sector := c.selected e i sector })
      (fun _ c' t => Halted True e c' t ∧
        ∃ latch, t.chips = e.chipsWith i { e.chip i with writeEnabled := latch }) := by
  refine ((h.ready hi).ends_selectSector sector).mono ?_ ?_
  · intro _ c' t hpost
    obtain ⟨hran, hc, latch, hset⟩ := hpost
    exact ⟨⟨hran.kept.attached, (Leaves.of_set hset rfl (h.idle i)).allIdle h.idle⟩, hc, latch,
      hset⟩
  · intro _ c' t hpost
    obtain ⟨hf, -, latch, hset⟩ := hpost
    exact ⟨.of_failed h.idle hf (.of_set hset rfl (h.idle i)), latch, hset⟩

/-- A header is put together for any address, and no chip gets busy. -/
theorem ends_buildHeader (h : Resting c e) (opcode : UInt8) (a : Address) :
    Drive.Ends Emulator.block (Controller.buildHeader opcode a) c e (fun _ c' t => Resting c' t)
      (fun _ c' t => Resting c' t) := by
  by_cases hslave : a.slave.toNat < maxSlaves
  · have hidle := h.idle ⟨_, hslave⟩
    refine (h.attached.lands_buildHeader (i := ⟨_, hslave⟩) rfl hidle opcode).mono ?_ ?_
    · exact fun _ _ _ haimed =>
        ⟨haimed.ran.kept.attached, haimed.leaves.allIdle h.idle⟩
    · exact fun _ _ _ hf => ⟨hf.1.kept.attached, hf.2.allIdle h.idle⟩
  · refine (h.attached.ends_buildHeader_beyond hslave opcode).mono (fun _ _ _ hf => hf.elim) ?_
    intro _ _ _ hpost
    obtain ⟨rfl, rfl⟩ := hpost
    exact h

/-- **A read burst lands where the selected sector says**, and changes nothing. It fails
for a reason. -/
theorem ends_readChunk (h : Resting c e) (p : UInt64) {n : Nat}
    (hfits : pageIndex p + n < wordLimit) :
    Drive.Ends Emulator.block (Controller.readChunk p n) c e
      (fun bytes c' t => Resting c' t ∧ SameContents e t ∧ bytes.length ≤ n ∧
        (0 < n → 0 < bytes.length) ∧
        ∀ i : Fin maxSlaves, (Address.ofOffset p).slave.toNat = i.val →
          Brings e i (c.landing e i p) c.tuning.readDummyLen bytes)
      (fun _ c' t => Halted ((Address.ofOffset p).slave.toNat < maxSlaves ∧
        pageIndex p + n ≤ pageSize) e c' t) := by
  by_cases hzero : n = 0
  · rw [Controller.readChunk, if_pos hzero]
    exact Drive.Ends.pure ⟨h, .refl e, Nat.zero_le _, fun hpos => absurd hzero (Nat.ne_of_gt hpos),
      fun _ _ _ hk => absurd hk (Nat.not_lt_zero _)⟩
  by_cases hpage : pageIndex p + n ≤ pageSize
  case neg =>
    rw [Controller.readChunk, if_neg hzero]
    apply Drive.Ends.step (Proc.run_count hfits)
    rw [if_pos (Nat.lt_of_not_le hpage)]
    exact Drive.Ends.throw (.of_not h fun hp => hpage hp.2)
  by_cases hslave : (Address.ofOffset p).slave.toNat < maxSlaves
  case neg =>
    rw [Controller.readChunk, if_neg hzero]
    apply Drive.Ends.step (Proc.run_count hfits)
    rw [if_neg (Nat.not_lt_of_le hpage)]
    refine Drive.Ends.bind (h.attached.ends_buildHeader_beyond hslave _) ?_
      fun _ _ _ hf => hf.elim
    intro _ _ _ hpost
    obtain ⟨rfl, rfl⟩ := hpost
    exact .of_not h fun hp => hslave hp.1
  refine (h.attached.lands_readChunk (i := ⟨_, hslave⟩) rfl (h.idle _) (by omega) hpage).mono
    ?_ ?_
  · intro bytes c' t hpost
    obtain ⟨hran, hleaves, hpos, hle, hbrings⟩ := hpost
    refine ⟨⟨hran.kept.attached, hleaves.allIdle h.idle⟩, hleaves.sameContents, hle,
      fun _ => hpos, fun j hj => ?_⟩
    obtain rfl : ⟨_, hslave⟩ = j := Fin.ext hj
    exact hbrings
  · exact fun _ _ _ hf => .of_failed h.idle hf.1 hf.2

end Resting

/-- Chip `i` programmed the bytes from `b` on, and no other chip changed. -/
def Stores (i : Fin maxSlaves) (b : Nat) (data : Bytes) (e t : Emulator) : Prop :=
  ∀ j, (t.chip j).contents =
    if i = j then Chip.programRange (e.chip j).contents b data else (e.chip j).contents

theorem Stores.nil (i : Fin maxSlaves) (b : Nat) (e : Emulator) : Stores i b [] e e := by
  intro j
  split <;> rfl

theorem Leaves.stores {b : Nat} {data : Bytes} {busy : UInt32}
    (h : Leaves i (Chip.programRange (e.chip i).contents b data) busy e t) :
    Stores i b data e t := by
  intro j
  by_cases hij : i = j
  · subst hij
    rw [if_pos rfl, h.chip_eq.1]
  · rw [if_neg hij, h.chip_of_ne hij]

namespace Resting

/-- **A program burst lands where the selected sector says.** If it fails, at most a
front part of the data was programmed there. -/
theorem ends_writeChunk (h : Resting c e) (p : UInt64) (data : Bytes) :
    Drive.Ends Emulator.block (Controller.writeChunk p data) c e
      (fun n c' t => Resting c' t ∧ n ≤ data.length ∧ (data ≠ [] → 0 < n) ∧
        ∀ i : Fin maxSlaves, (Address.ofOffset p).slave.toNat = i.val →
          Stores i (c.landing e i p) (data.take n) e t)
      (fun _ c' t => Attached c' t ∧
        ∀ i : Fin maxSlaves, (Address.ofOffset p).slave.toNat = i.val →
          ∃ n ≤ data.length, Stores i (c.landing e i p) (data.take n) e t) := by
  by_cases hdata : data = []
  · subst hdata
    exact Drive.Ends.pure ⟨h, Nat.le_refl _, fun hne => absurd rfl hne,
      fun _ _ => .nil _ _ e⟩
  by_cases hslave : (Address.ofOffset p).slave.toNat < maxSlaves
  case neg =>
    rw [Controller.writeChunk_eq, if_neg (by simpa using hdata)]
    refine Drive.Ends.bind_get (Drive.Ends.bind (h.attached.ends_buildHeader_beyond hslave _) ?_
      fun _ _ _ hf => hf.elim)
    intro _ _ _ hpost
    obtain ⟨rfl, rfl⟩ := hpost
    exact ⟨h.attached, fun _ _ => ⟨0, Nat.zero_le _, .nil _ _ e⟩⟩
  refine (h.attached.lands_writeChunk (i := ⟨_, hslave⟩) rfl (h.idle _) hdata).mono ?_ ?_
  · intro n c' t hpost
    obtain ⟨hn, hpos, -, hleaves, hran, -⟩ := hpost
    refine ⟨⟨hran.kept.attached, hleaves.allIdle h.idle⟩, by omega, fun _ => hpos, fun j hj => ?_⟩
    obtain rfl : ⟨_, hslave⟩ = j := Fin.ext hj
    exact hleaves.stores
  · intro _ c' t hpost
    obtain ⟨hf, n, hn, busy, hleaves⟩ := hpost
    refine ⟨hf.kept.attached, fun j hj => ⟨n, by omega, ?_⟩⟩
    obtain rfl : ⟨_, hslave⟩ = j := Fin.ext hj
    exact hleaves.stores

/-- An erase leaves the controller attached, and with no chip busy if it went well. -/
theorem ends_eraseUnit (h : Resting c e) (p : UInt64) (unit : EraseUnit) :
    Drive.Ends Emulator.block (Controller.eraseUnit p unit) c e
      (fun _ c' t => Resting c' t) (fun _ c' t => Attached c' t) := by
  by_cases hslave : (Address.ofOffset p).slave.toNat < maxSlaves
  case neg =>
    exact (h.attached.ends_eraseUnit_beyond unit hslave).mono (fun _ _ _ hf => hf.elim)
      fun _ _ _ hpost => hpost.1.attached
  by_cases haligned : unit.isAligned p = true
  · refine (h.attached.lands_eraseUnit (i := ⟨_, hslave⟩) rfl haligned rfl).mono ?_ ?_
    · intro _ c' t hpost
      obtain ⟨hran, -, hleaves⟩ := hpost
      exact ⟨hran.kept.attached, hleaves.allIdle h.idle⟩
    · exact fun _ _ _ hpost => hpost.1.kept.attached
  · rw [Controller.eraseUnit, if_neg haligned]
    apply Drive.Ends.step Emulator.run_log
    exact Drive.Ends.throw h.attached

end Resting

end NorFlash
