import NorFlash.Proofs.Exactness
import NorFlash.Tool.Commands

/-!
# Bounds — which offsets are refused

An offset beyond the end of its chip is refused before a register is touched,
by every operation that takes one. What counts is the offset within the chip,
which has no room for bits 32 to 55 of the flat one: an offset that is beyond
the end by these bits alone is taken for the place that its low half names.
-/

namespace NorFlash

variable {f : Flash} {e : Emulator} {p : UInt64} {i : Fin maxSlaves} {a : Nat} {data : Bytes}

theorem Flash.remaining_eq_zero_iff :
    f.remaining p = 0 ↔ f.capacity ≤ p.toNat % word32Limit := by
  rw [remaining, chipOffset_toNat, Nat.sub_eq_zero_iff_le]

/-! ## Steps of a command -/

section Steps

variable {α β : Type} {desk desk' : Desk}

namespace Command

/-- A look at the desk. -/
theorem run_get_bind (k : Desk → Command α) : (get >>= k).run desk = (k desk).run desk := rfl

theorem run_bind_ok {x : Command α} {k : α → Command β} {a : α}
    (h : x.run desk = pure (.ok a, desk')) : (x >>= k).run desk = (k a).run desk' := by
  change x.run desk >>= _ = _
  rw [h]
  rfl

theorem run_bind_error {x : Command α} {k : α → Command β} {error : ToolError}
    (h : x.run desk = pure (.error error, desk')) :
    (x >>= k).run desk = pure (.error error, desk') := by
  change x.run desk >>= _ = _
  rw [h]
  rfl

theorem run_remainingFrom (h : desk.flash.remaining p = 0) :
    (remainingFrom p).run desk = pure (.error (.outOfRange p desk.flash.capacity), desk) := by
  rw [remainingFrom, run_get_bind, if_pos h]
  rfl

theorem run_readFile {input : String} (h : desk.workspace.read input = .ok data) :
    (readFile input).run desk = pure (.ok data, desk) := by
  rw [readFile, run_get_bind, h]
  rfl

end Command

end Steps

/-! ## Offsets that are refused -/

/-- Every operation answers at once that the offset is beyond the end: it ends
without a register access, a delay or a log line, and leaves the flash as it
is. A command that writes a file has said by then that it read the file. -/
structure Flash.Refuses (f : Flash) (p : UInt64) : Prop where
  read : ∀ len, Flash.read p len f = pure (⟨[], .ok ()⟩, f)
  write : ∀ data, Flash.write p data f = pure (.error ⟨0, .noSpace⟩, f)
  erase : ∀ unit : EraseUnit,
    Flash.erase p unit.bytes f = pure (.error .addressOutOfBounds, f)
  readAt : ∀ len, 0 < len → Flash.readAt p len f = pure (.refused .addressOutOfBounds, f)
  readToFile : ∀ (desk : Desk) output length, desk.flash = f →
    (Command.read output p length).run desk = pure (.error (.outOfRange p f.capacity), desk)
  writeFromFile : ∀ (desk : Desk) input verified data, desk.flash = f →
    desk.workspace.read input = .ok data →
    (Command.write input p verified).run desk =
      pure (.error (.outOfRange p f.capacity), { desk with
        printed := ("Read " ++ Command.formatSize data.length ++ " from " ++
          Text.Quoted.encode input ++ "\n") :: desk.printed })

theorem Flash.refuses_of_remaining (h : f.remaining p = 0) : f.Refuses p where
  read len := by
    rw [Flash.read, FlashProc.get_bind, h, Nat.min_zero]
    rfl
  write data := by
    rw [Flash.write, FlashProc.get_bind, h, List.take_zero]
    rfl
  erase unit := by
    rw [Flash.erase, FlashProc.get_bind, if_pos (h ▸ unit.bytes_pos)]
    rfl
  readAt len hlen := by
    rw [Flash.readAt, FlashProc.get_bind, if_pos (h ▸ hlen)]
    rfl
  readToFile desk output length hdesk := by
    subst hdesk
    rw [Command.read, Command.readRange]
    exact Command.run_bind_error (Command.run_bind_error (Command.run_remainingFrom h))
  writeFromFile desk input verified data hdesk hfile := by
    subst hdesk
    rw [Command.write, Command.run_bind_ok (Command.run_readFile hfile),
      Command.run_bind_ok (x := Command.print _) rfl]
    exact Command.run_bind_error (Command.run_bind_error (Command.run_remainingFrom h))

/-- Where some bytes remain, a read goes to the chip. -/
theorem Flash.read_ne_pure (h : f.remaining p ≠ 0) (r : Arrival × Flash) :
    Flash.read p 1 f ≠ pure r := by
  have hmin : min 1 (f.remaining p) ≠ 0 := by omega
  rw [Flash.read, FlashProc.get_bind, if_neg hmin]
  nofun

/-- **An offset is refused if and only if its low half is beyond the end.** Bits
32 to 55 count for nothing, so an offset whose low half lies inside the chip is
accepted however large it is. -/
theorem Flash.refuses_iff (f : Flash) (p : UInt64) :
    f.Refuses p ↔ f.capacity ≤ p.toNat % word32Limit := by
  rw [← Flash.remaining_eq_zero_iff]
  refine ⟨fun h => Decidable.byContradiction fun hne => ?_, refuses_of_remaining⟩
  exact read_ne_pure hne _ (h.read 1)

/-! ## Offsets that are taken for others -/

/-- A write that nothing hinders stores its data at the place that the low half
of its offset names. -/
theorem Attached.ends_write_unhindered (h : Attached f.controller e)
    (hclear : Unhindered p f.controller.tuning e) (hable : Able f.controller e)
    (hdummy : f.controller.tuning.readDummyLen = Chip.readDummyLen) (hp : Locates p i a)
    (hdata : data ≠ []) (hfit : a + data.length ≤ f.capacity) :
    (Flash.write p data f).Ends Emulator.block e fun r t =>
      r.1 = .ok data.length ∧ Holds t i a data := by
  have htake : data.take (f.remaining p) = data := by
    rw [List.take_of_length_le]
    rw [Flash.remaining, hp.chipOffset_eq]
    omega
  refine (h.ends_write p data).mono ?_
  intro x t hpost
  obtain ⟨r, f'⟩ := x
  obtain ⟨-, hwrote⟩ := hpost
  rw [htake] at hwrote
  dsimp only at hwrote ⊢
  cases hwrote with
  | stored _ hbegun hdone =>
    obtain ⟨rfl, rfl⟩ := hbegun.located.unique hp
    exact ⟨rfl, hdone.holds hdummy⟩
  | refused _ hfailed =>
    exact absurd (hfailed.mono (fun _ => Emulator.Unarmed.spares) fun hp => hp)
      (hclear.not_failed ⟨hdata, hclear.responsive⟩)
  | stopped _ hstopped => exact absurd hstopped.failed (hclear.not_failed hable)

/-- A byte written 4 GiB behind the start of a 16 MiB chip is accepted, and
overwrites the first byte of the chip. -/
theorem write_wraps :
    ∃ f e, Reachable {} {} f e ∧
      f.capacity ≤ (0x100000000 : UInt64).toNat % Address.slaveWeight ∧
      ¬ f.Refuses 0x100000000 ∧ e.cell firstChip 0 = 0xff ∧
      (Flash.write 0x100000000 [0x5a] f).Ends Emulator.block e fun r t =>
        r.1 = .ok 1 ∧ t.cell firstChip 0 = 0x5a := by
  obtain ⟨f, e, hr, hengaged⟩ := Emulator.Prepared.fresh.exists_reachable attachable_default
  have hcapacity : f.capacity = sectorSize := hengaged.capacity_eq
  have hp : Locates 0x100000000 firstChip 0 := ⟨by decide, by decide⟩
  have hable : Able f.controller e := by
    rw [Able, Patient, hengaged.config, hengaged.tuning]
    decide
  refine ⟨f, e, hr, ?_, ?_, ?_, ?_⟩
  · rw [hcapacity]
    decide
  · rw [Flash.refuses_iff, hcapacity]
    decide
  · exact (hengaged.contents.cell firstChip 0).trans (Emulator.cell_ofConfig {} firstChip 0)
  · refine (hengaged.ready.attached.ends_write_unhindered (hengaged.tuning ▸
      hengaged.unhindered rfl (by decide)) hable (hengaged.tuning ▸ rfl) hp (by decide)
      (by rw [hcapacity]; decide)).mono ?_
    intro r t hpost
    obtain ⟨hok, hholds⟩ := hpost
    exact ⟨hok, hholds 0 (by decide)⟩

end NorFlash
