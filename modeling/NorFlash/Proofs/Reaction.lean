import NorFlash.Proofs.Contents

/-!
# Reaction — what each command does to a chip

One equation for each command of the driver, on a chip that is not busy, and
one for the status read, which a busy chip takes too. Commands that need the
write enable latch are stated with the latch set. Of any command: how long its
response is, and for how long it may keep the chip busy.
-/

namespace NorFlash.Chip

variable {config : EmulatorConfig} {c : Chip}

/-! ## Responses -/

theorem length_latched_response {len : Nat} {act : Chip → Reaction}
    (h : ∀ c, (act c).response.length = len) : (c.latched len act).response.length = len := by
  rw [latched]
  split
  · exact h _
  · exact Bytes.length_filled _ _

theorem length_reactAddressed_response {opcode high middle low : UInt8} {len : Nat}
    {data : Bytes} (hlen : len = data.length + 4) :
    (reactAddressed config c opcode len high middle low data).response.length = len := by
  rw [reactAddressed]
  split
  · rename_i h
    rw [readDummyLen] at h
    simp only [List.length_append, Bytes.length_filled, PageStore.length_readRange,
      Opcode.headerLen, readDummyLen]
    omega
  · split
    · exact length_latched_response fun _ => Bytes.length_filled _ _
    · split
      · exact length_latched_response fun _ => Bytes.length_filled _ _
      · exact Bytes.length_filled _ _

/-- Every byte clocked in clocks one byte out. -/
theorem length_react_response (config : EmulatorConfig) (c : Chip) (command : Bytes) :
    (c.react config command).response.length = command.length := by
  cases command with
  | nil => rfl
  | cons opcode operands =>
    rw [react.eq_def]
    dsimp only
    split
    · simp [statusResponse]
    · split
      · exact Bytes.length_filled _ _
      · split
        · exact Bytes.length_filled _ _
        · split
          · simp only [idResponse, List.length_take, List.length_append, Bytes.length_filled,
              List.length_cons, List.length_nil]
            omega
          · split
            · exact Bytes.length_filled _ _
            · split
              · exact length_latched_response fun _ => Bytes.length_filled _ _
              · split
                · exact length_reactAddressed_response (by simp)
                · exact Bytes.length_filled _ _

/-! ## Time -/

theorem busy_latched_le {polls len : Nat} {act : Chip → Reaction} (hbusy : c.busy.toNat ≤ polls)
    (h : ∀ c : Chip, c.busy.toNat ≤ polls → (act c).chip.busy.toNat ≤ polls) :
    (c.latched len act).chip.busy.toNat ≤ polls := by
  rw [latched]
  split
  · exact h _ hbusy
  · exact hbusy

/-- No command keeps a chip busy for longer than it was, or than a program or
an erase does. -/
theorem busy_react_le (c : Chip) (command : Bytes) {polls : Nat}
    (hconfig : config.busyPolls.toNat ≤ polls) (hbusy : c.busy.toNat ≤ polls) :
    (c.react config command).chip.busy.toNat ≤ polls := by
  fun_cases react config c command with
  | case2 operands =>
    dsimp only
    split
    · rename_i hpos
      have hle : 1 ≤ c.busy := UInt32.le_iff_toNat_le.mpr (UInt32.lt_iff_toNat_lt.mp hpos)
      rw [UInt32.toNat_sub_of_le _ _ hle]
      exact Nat.le_trans (Nat.sub_le _ _) hbusy
    · exact hbusy
  | case7 => exact busy_latched_le hbusy fun _ hc => hc
  | case8 =>
    fun_cases reactAddressed
    · exact hbusy
    · exact busy_latched_le hbusy fun _ _ => hconfig
    · exact busy_latched_le hbusy fun _ _ => hconfig
    · exact hbusy
  | _ => exact hbusy

/-! ## Commands without an address -/

/-- A status read of a chip tells whether it is busy, and brings a busy chip
one step nearer to ready. -/
theorem react_readStatus (config : EmulatorConfig) (c : Chip) :
    (c.react config [Opcode.readStatus, 0]).chip =
        { c with busy := if 0 < c.busy then c.busy - 1 else c.busy } ∧
      ((c.react config [Opcode.readStatus, 0]).response.getD 1 0 &&& Opcode.busyBit = 0 ↔
        c.busy = 0) ∧
      (c.react config [Opcode.readStatus, 0]).effect = .plain := by
  refine ⟨rfl, ?_, rfl⟩
  change ((if 0 < c.busy then Opcode.busyBit else 0) |||
    (if c.writeEnabled then Opcode.latchBit else 0)) &&& Opcode.busyBit = 0 ↔ _
  by_cases hb : c.busy = 0
  · rw [hb, if_neg (by decide)]
    cases c.writeEnabled <;> decide
  · rw [if_pos (UInt32.pos_iff_ne_zero.mpr hb)]
    simp only [hb, iff_false]
    cases c.writeEnabled <;> decide

theorem toNat_busy_readStatus (config : EmulatorConfig) (c : Chip) :
    (c.react config [Opcode.readStatus, 0]).chip.busy.toNat = c.busy.toNat - 1 := by
  show (if 0 < c.busy then c.busy - 1 else c.busy).toNat = _
  by_cases hpos : 0 < c.busy
  · have hone : 1 ≤ c.busy := UInt32.le_iff_toNat_le.mpr (UInt32.lt_iff_toNat_lt.mp hpos)
    rw [if_pos hpos, UInt32.toNat_sub_of_le _ _ hone]
    rfl
  · have hzero : c.busy = 0 := Classical.byContradiction fun hne =>
      hpos (UInt32.pos_iff_ne_zero.mpr hne)
    rw [hzero]
    rfl

/-- A busy chip drops every command but the status read. -/
theorem react_of_busy (hbusy : 0 < c.busy) {opcode : UInt8} (hop : opcode ≠ Opcode.readStatus)
    (operands : Bytes) :
    c.react config (opcode :: operands) =
      { chip := c, response := Bytes.filled (operands.length + 1) 0, effect := .whileBusy } := by
  simp only [react, hop, hbusy, if_true, if_false, List.length_cons]

section Idle

variable (config) (hidle : c.busy = 0)

include hidle

theorem react_writeEnable :
    c.react config [Opcode.writeEnable] =
      { chip := { c with writeEnabled := true }, response := [0] } := by
  simp [react, hidle, Opcode.writeEnable, Opcode.readStatus, Bytes.filled]

theorem react_readId :
    c.react config [Opcode.readId, 0, 0, 0, 0] =
      { chip := c
        response := [0, config.vendorId, config.deviceType, config.capacityCode, 0] } := by
  simp [react, hidle, Opcode.readId, Opcode.writeEnable, Opcode.readStatus, idResponse,
    Bytes.filled]

theorem react_writeSector (hlatch : c.writeEnabled = true) (sector : UInt8) :
    c.react config [Opcode.writeSector, sector] =
      { chip := { c with writeEnabled := false, sector }, response := [0, 0] } := by
  simp [react, latched, hidle, hlatch, Opcode.writeSector, Opcode.readId, Opcode.writeEnable,
    Opcode.readStatus, Bytes.filled]

/-! ## Commands with an address -/

/-- A quad read with data behind the dummy bytes. -/
theorem react_quadRead {high middle low : UInt8} {blank : Bytes}
    (hlen : readDummyLen < blank.length) :
    c.react config (Opcode.quadRead :: high :: middle :: low :: blank) =
      { chip := c
        response := Bytes.filled (Opcode.headerLen + readDummyLen) 0 ++
          c.contents.readRange (c.address high middle low) (blank.length - readDummyLen) } := by
  simp [react, reactAddressed, hidle, hlen, Opcode.quadRead, Opcode.writeSector, Opcode.readId,
    Opcode.writeEnable, Opcode.readStatus]

/-- A quad read that is too short for data leaves the chip as it was, too. -/
theorem react_quadRead_short {high middle low : UInt8} {blank : Bytes}
    (hlen : ¬ readDummyLen < blank.length) :
    c.react config (Opcode.quadRead :: high :: middle :: low :: blank) =
      { chip := c
        response := Bytes.filled (blank.length + 4) 0
        effect := .unsupported } := by
  have hop : config.programOpcode? ≠ some Opcode.quadRead := by
    rw [EmulatorConfig.programOpcode?]
    cases config.vendor? with
    | none => simp
    | some v => cases v <;> simp [Vendor.programOpcode, Opcode.quadProgram, Opcode.pageProgram,
        Opcode.quadRead]
  have herase : eraseUnit? Opcode.quadRead = none := by decide
  simp only [react, reactAddressed, hidle, hlen, hop, herase]
  simp [Opcode.quadRead, Opcode.writeSector, Opcode.readId, Opcode.writeEnable,
    Opcode.readStatus]

theorem react_program {v : Vendor} (hv : config.vendor? = some v) (hlatch : c.writeEnabled = true)
    (high middle low : UInt8) {data : Bytes} (hdata : data ≠ []) :
    c.react config (v.programOpcode :: high :: middle :: low :: data) =
      { chip :=
          { c with
            contents := programRange c.contents (c.address high middle low) data
            writeEnabled := false
            busy := config.busyPolls }
        response := Bytes.filled (data.length + 4) 0
        effect := .programmed data.length } := by
  have hop : config.programOpcode? = some v.programOpcode := by
    rw [EmulatorConfig.programOpcode?, hv, Option.map_some]
  cases v <;>
    simp [react, reactAddressed, latched, hidle, hlatch, hop, hdata, Vendor.programOpcode,
      Opcode.quadProgram, Opcode.pageProgram, Opcode.quadRead, Opcode.writeSector,
      Opcode.readId, Opcode.writeEnable, Opcode.readStatus, address] at hop ⊢

theorem react_erase (hlatch : c.writeEnabled = true) (u : EraseUnit) (high middle low : UInt8) :
    c.react config [u.opcode, high, middle, low] =
      { chip :=
          { c with
            contents := c.contents.erase
              (c.address high middle low - c.address high middle low % u.bytes) u.bytes
            writeEnabled := false
            busy := config.busyPolls }
        response := [0, 0, 0, 0]
        effect := .erased
          (c.address high middle low - c.address high middle low % u.bytes) u.bytes } := by
  cases u <;>
    simp [react, reactAddressed, latched, hidle, hlatch, eraseUnit?, EraseUnit.opcode,
      Opcode.erase4K, Opcode.erase32K, Opcode.erase64K, Opcode.quadRead, Opcode.writeSector,
      Opcode.readId, Opcode.writeEnable, Opcode.readStatus, address, Bytes.filled]

end Idle

end NorFlash.Chip
