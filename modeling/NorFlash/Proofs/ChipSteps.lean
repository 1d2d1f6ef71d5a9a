import NorFlash.Proofs.Location
import NorFlash.Proofs.Reaction

/-!
# ChipSteps — what a command may do to a chip

Any bytes may reach a chip as a command. `Chip.Step` lists what becomes of the chip:
it is polled, it is left as it is, its latch is set, or with the latch it moves to a
sector, programs or erases. Programming clears bits inside one 256-byte page, however
long the data are and wherever they wrap, and erasing sets one aligned unit to ones.
-/

namespace NorFlash

/-! ## Contents -/

namespace PageStore

variable {s : PageStore} {a b : Nat}

/-- Bits were cleared inside one program page. -/
structure Programs (s s' : PageStore) : Prop where
  clears : ∀ a, s'.read a &&& s.read a = s'.read a
  one_page : ∀ a b, s'.read a ≠ s.read a → s'.read b ≠ s.read b →
    a % s.capacity / programPageSize = b % s.capacity / programPageSize

/-- One unit of the chip was set to ones. -/
structure Erases (s s' : PageStore) (base : Nat) (unit : EraseUnit) : Prop where
  aligned : base % unit.bytes = 0
  inside : base + unit.bytes ≤ s.capacity
  read : ∀ a, s'.read a =
    if base ≤ a % s.capacity ∧ a % s.capacity < base + unit.bytes then 0xff else s.read a

theorem read_mod (s : PageStore) (a : Nat) : s.read (a % s.capacity) = s.read a := by
  simp [PageStore.read, pageNumber, indexInPage]

/-- The page of an address in a chip of whole pages. -/
theorem programPage_mod (h : programPageSize ∣ s.capacity) (a : Nat) :
    a % s.capacity / programPageSize = a / programPageSize % (s.capacity / programPageSize) := by
  obtain ⟨k, hk⟩ := h
  rw [hk, Nat.mod_mul_right_div_self, Nat.mul_div_cancel_left _ programPageSize_pos]

/-- Programming leaves other program pages alone. -/
theorem read_programRange_of_page (hcapacity : programPageSize ∣ s.capacity) {data : Bytes}
    (hpage : a % s.capacity / programPageSize ≠ b % s.capacity / programPageSize) :
    (Chip.programRange s a data).read b = s.read b := by
  induction data generalizing s a with
  | nil => rfl
  | cons v rest ih =>
    have hother : a % s.capacity ≠ b % s.capacity := fun heq => hpage (by rw [heq])
    have hnext : (a / programPageSize * programPageSize + (a + 1) % programPageSize) /
        programPageSize = a / programPageSize := by
      have hmod := Nat.mod_lt (a + 1) programPageSize_pos
      rw [Nat.add_comm, Nat.add_mul_div_right _ _ programPageSize_pos, Nat.div_eq_of_lt hmod,
        Nat.zero_add]
    rw [Chip.programRange]
    rw [ih (s := s.program a v), read_program, if_neg hother]
    · exact hcapacity
    · rw [capacity_program, programPage_mod hcapacity, hnext, ← programPage_mod hcapacity]
      exact hpage

/-- Programming clears bits only. -/
theorem read_programRange_and (s : PageStore) (a b : Nat) (data : Bytes) :
    (Chip.programRange s a data).read b &&& s.read b = (Chip.programRange s a data).read b := by
  induction data generalizing s a with
  | nil => exact UInt8.and_self
  | cons v rest ih =>
    have hfirst : (s.program a v).read b &&& s.read b = (s.program a v).read b := by
      rw [read_program]
      split
      · rw [UInt8.and_assoc, UInt8.and_comm v, ← UInt8.and_assoc, UInt8.and_self]
      · exact UInt8.and_self
    rw [Chip.programRange]
    rw [← ih (s.program a v), UInt8.and_assoc, hfirst]

theorem programs_programRange (hcapacity : programPageSize ∣ s.capacity) (a : Nat)
    (data : Bytes) : s.Programs (Chip.programRange s a data) where
  clears b := read_programRange_and s a b data
  one_page b c hb hc := by
    have hpage : ∀ {b}, (Chip.programRange s a data).read b ≠ s.read b →
        a % s.capacity / programPageSize = b % s.capacity / programPageSize :=
      fun hb => Decidable.byContradiction fun hne => hb (read_programRange_of_page hcapacity hne)
    rw [← hpage hb, ← hpage hc]

/-- The same pages are erased from addresses that are the same modulo the capacity. -/
theorem erasePages_congr {base base' : Nat} (h : base % s.capacity = base' % s.capacity)
    (count : Nat) : s.erasePages base count = s.erasePages base' count := by
  induction count generalizing s base base' with
  | zero => rfl
  | succ count ih =>
    have hnumber : s.pageNumber base = s.pageNumber base' := by rw [pageNumber, h, pageNumber]
    rw [erasePages, erasePages, hnumber]
    exact ih (by rw [Nat.add_mod, h, ← Nat.add_mod])

/-- An erase sets the unit around its address to ones. -/
theorem erases_erase (hcapacity : s.capacity % sectorSize = 0) (hpos : 0 < s.capacity)
    (a : Nat) (unit : EraseUnit) :
    s.Erases (s.erase (a - a % unit.bytes) unit.bytes) ((a - a % unit.bytes) % s.capacity)
      unit := by
  have hunit : unit.bytes ∣ s.capacity :=
    Nat.dvd_trans (by cases unit <;> decide) (Nat.dvd_of_mod_eq_zero hcapacity)
  have haligned : (a - a % unit.bytes) % s.capacity % unit.bytes = 0 := by
    rw [Nat.mod_mod_of_dvd _ hunit, ← Nat.dvd_iff_mod_eq_zero]
    exact Nat.dvd_sub_mod a
  have hinside : (a - a % unit.bytes) % s.capacity + unit.bytes ≤ s.capacity := by
    have hlt := Nat.mod_lt (a - a % unit.bytes) hpos
    obtain ⟨k, hk⟩ := hunit
    obtain ⟨j, hj⟩ := Nat.dvd_of_mod_eq_zero haligned
    rw [hj, hk] at hlt ⊢
    exact Nat.mul_le_mul_left unit.bytes (Nat.lt_of_mul_lt_mul_left hlt)
  refine ⟨haligned, hinside, fun b => ?_⟩
  have hpage : (a - a % unit.bytes) % s.capacity % pageSize = 0 :=
    Nat.mod_eq_zero_of_dvd
      (Nat.dvd_trans unit.pageSize_dvd_bytes (Nat.dvd_of_mod_eq_zero haligned))
  have herase := read_erase s hpage unit.bytes_mod_pageSize hinside (Nat.mod_lt b hpos)
  rw [read_mod] at herase
  rw [← herase, erase, erase, erasePages_congr (Nat.mod_mod _ _).symm]
  exact (read_mod (s.erasePages _ _) b).symm.trans (by rw [capacity_erasePages])

end PageStore

/-! ## Commands -/

namespace Chip

variable {config : EmulatorConfig} {c : Chip}

/-- The command stored something: it programmed or erased. -/
def Effect.Stores : Effect → Prop
  | .programmed _ | .erased _ _ => True
  | _ => False

/-- What becomes of a chip that a command reaches, and what is recorded of it. -/
inductive Step (config : EmulatorConfig) (c : Chip) : Bytes → Chip → Effect → Prop where
  | kept {command : Bytes} {effect : Effect} (hop : command.headD 0 ≠ Opcode.readStatus)
    (heffect : ¬ effect.Stores) : Step config c command c effect
  | polled (operands : Bytes) (busy : UInt32) (hbusy : busy.toNat = c.busy.toNat - 1) :
    Step config c (Opcode.readStatus :: operands) { c with busy } .plain
  | enabled (operands : Bytes) (hidle : c.busy = 0) :
    Step config c (Opcode.writeEnable :: operands) { c with writeEnabled := true } .plain
  | moved (sector : UInt8) (operands : Bytes) (hidle : c.busy = 0)
    (hlatch : c.writeEnabled = true) :
    Step config c (Opcode.writeSector :: sector :: operands)
      { c with writeEnabled := false, sector } .plain
  | programmed {opcode : UInt8} (high middle low : UInt8) (data : Bytes)
    (hop : config.programOpcode? = some opcode) (hdata : data ≠ []) (hidle : c.busy = 0)
    (hlatch : c.writeEnabled = true) :
    Step config c (opcode :: high :: middle :: low :: data)
      { c with
        contents := programRange c.contents (c.address high middle low) data
        writeEnabled := false
        busy := config.busyPolls }
      (.programmed data.length)
  | erased (unit : EraseUnit) (high middle low : UInt8) (operands : Bytes) (hidle : c.busy = 0)
    (hlatch : c.writeEnabled = true) :
    Step config c (unit.opcode :: high :: middle :: low :: operands)
      { c with
        contents := c.contents.erase
          (c.address high middle low - c.address high middle low % unit.bytes) unit.bytes
        writeEnabled := false
        busy := config.busyPolls }
      (.erased (c.address high middle low - c.address high middle low % unit.bytes) unit.bytes)

/-- A command that needs the latch is dropped without it. -/
theorem Step.of_latched {command : Bytes} {len : Nat} {act : Chip → Reaction}
    (hop : command.headD 0 ≠ Opcode.readStatus)
    (h : c.writeEnabled = true → Step config c command
      (act { c with writeEnabled := false }).chip (act { c with writeEnabled := false }).effect) :
    Step config c command (c.latched len act).chip (c.latched len act).effect := by
  by_cases hlatch : c.writeEnabled = true
  · rw [latched, if_pos hlatch]
    exact h hlatch
  · rw [latched, if_neg hlatch]
    exact .kept hop id

/-- **Whatever bytes reach a chip, what becomes of it is one of the steps.** -/
theorem step_react (config : EmulatorConfig) (c : Chip) (command : Bytes) :
    Step config c command (c.react config command).chip (c.react config command).effect := by
  have hidle : ¬ 0 < c.busy → c.busy = 0 := fun h =>
    Classical.byContradiction fun hne => h (UInt32.pos_iff_ne_zero.mpr hne)
  fun_cases Chip.react config c command with
  | case1 => exact .kept (by decide) id
  | case2 operands => exact .polled operands _ (toNat_busy_readStatus config c)
  | case4 operands hready => exact .enabled operands (hidle hready)
  | case3 _ _ hop => exact .kept hop id
  | case7 hready sector operands hop =>
    exact .of_latched hop fun hlatch => .moved sector operands (hidle hready) hlatch
  | case8 opcode hop hready _ _ high _ middle low data =>
    fun_cases Chip.reactAddressed
    case case1 => exact .kept hop id
    case case2 hprogram =>
      exact .of_latched hop fun hlatch =>
        .programmed high middle low data hprogram.1 hprogram.2 (hidle hready) hlatch
    case case3 unit herase =>
      obtain rfl : unit.opcode = opcode := by simpa using List.find?_some herase
      exact .of_latched hop fun hlatch => .erased unit high middle low data (hidle hready) hlatch
    case case4 => exact .kept hop id
  | case5 _ _ hop | case6 _ hop | case9 _ hop => exact .kept hop id

namespace Step

variable {c' : Chip} {command : Bytes} {effect : Effect}

theorem capacity_eq (h : Step config c command c' effect) :
    c'.contents.capacity = c.contents.capacity := by
  cases h with
  | programmed => exact PageStore.capacity_programRange ..
  | erased => exact PageStore.capacity_erase ..
  | _ => rfl

/-- Whoever programs or erases keeps the chip busy. -/
theorem busy_of_stores (h : Step config c command c' effect) (hstores : effect.Stores) :
    c'.busy = config.busyPolls := by
  cases h with
  | kept _ heffect => exact absurd hstores heffect
  | programmed | erased => rfl
  | polled | enabled | moved => exact hstores.elim

/-- A status read counts the chip's busy time down and does nothing else. -/
theorem of_readStatus (h : Step config c command c' effect)
    (hop : command.headD 0 = Opcode.readStatus) :
    ∃ busy : UInt32, busy.toNat = c.busy.toNat - 1 ∧ c' = { c with busy } := by
  have hprogram : config.programOpcode? ≠ some Opcode.readStatus := by
    rw [EmulatorConfig.programOpcode?]
    cases config.vendor? with
    | none => simp
    | some v => cases v <;> decide
  cases h with
  | kept hother => exact absurd hop hother
  | polled _ busy hbusy => exact ⟨busy, hbusy, rfl⟩
  | programmed _ _ _ _ hopcode => exact absurd (hopcode.trans (congrArg some hop)) hprogram
  | erased unit =>
    have hne : unit.opcode ≠ Opcode.readStatus := by cases unit <;> decide
    exact absurd hop hne
  | enabled => exact absurd hop (by simp [Opcode.writeEnable, Opcode.readStatus])
  | moved => exact absurd hop (by simp [Opcode.writeSector, Opcode.readStatus])

/-- A busy chip takes nothing but status reads. -/
theorem of_busy (h : Step config c command c' effect) (hbusy : 0 < c.busy.toNat)
    (hop : command.headD 0 ≠ Opcode.readStatus) : c' = c := by
  have hne : c.busy ≠ 0 := fun hzero => by simp [hzero] at hbusy
  cases h with
  | kept => rfl
  | polled => exact absurd rfl hop
  | enabled | moved | programmed | erased => exact absurd ‹c.busy = 0› hne

end Step

/-- How a chip may change: its contents and its sector only while it is ready and with
the latch, which is clear then, and its contents only as flash does. -/
structure Obeys (config : EmulatorConfig) (c c' : Chip) : Prop where
  latched : c'.contents ≠ c.contents ∨ c'.sector ≠ c.sector →
    c.busy = 0 ∧ c.writeEnabled = true ∧ c'.writeEnabled = false
  stored : c'.contents ≠ c.contents → c.contents.Programs c'.contents ∨
    ∃ base unit, c.contents.Erases c'.contents base unit
  busy : c'.contents ≠ c.contents → c'.busy = config.busyPolls

theorem Obeys.refl (config : EmulatorConfig) (c : Chip) : Obeys config c c :=
  ⟨by simp, by simp, by simp⟩

theorem Step.obeys {c' : Chip} {command : Bytes} {effect : Effect}
    (h : Step config c command c' effect) (hcapacity : c.contents.capacity % sectorSize = 0)
    (hpos : 0 < c.contents.capacity) : Obeys config c c' := by
  cases h with
  | kept => exact .refl config c
  | polled | enabled => exact ⟨by simp, by simp, by simp⟩
  | moved _ _ hidle hlatch => exact ⟨fun _ => ⟨hidle, hlatch, rfl⟩, by simp, by simp⟩
  | programmed _ _ _ _ _ _ hidle hlatch =>
    have hpage : programPageSize ∣ c.contents.capacity :=
      Nat.dvd_trans (by decide) (Nat.dvd_of_mod_eq_zero hcapacity)
    exact ⟨fun _ => ⟨hidle, hlatch, rfl⟩,
      fun _ => .inl (PageStore.programs_programRange hpage _ _), fun _ => rfl⟩
  | erased unit _ _ _ _ hidle hlatch =>
    exact ⟨fun _ => ⟨hidle, hlatch, rfl⟩,
      fun _ => .inr ⟨_, unit, PageStore.erases_erase hcapacity hpos _ unit⟩, fun _ => rfl⟩

end Chip

end NorFlash
