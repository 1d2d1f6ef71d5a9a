import NorFlash.Proofs.ChipSteps
import NorFlash.Proofs.Deliveries
import NorFlash.Proofs.Reachability

/-!
# NorRules — any register traffic keeps the rules of flash

Registers may be read and written at any offset with any value, under any armed fault,
in any state that an emulator can be brought into. An access delivers at most one
command, to the chip that is selected alone, and a command does what flash does. A
chip that programs or erases stays busy until enough status reads reached it.
-/

namespace NorFlash

/-- The chips of every configuration hold whole sectors. -/
theorem EmulatorConfig.capacity_bounds (config : EmulatorConfig) :
    config.capacity % sectorSize = 0 ∧ 0 < config.capacity := by
  rw [capacity]
  cases h : config.vendor?.bind (·.capacity? config.capacityCode) with
  | none => exact ⟨rfl, by decide⟩
  | some n =>
    obtain ⟨v, -, hn⟩ := Option.bind_eq_some_iff.mp h
    obtain ⟨hsectors, hpos, -⟩ := Vendor.capacity_bounds hn
    exact ⟨hsectors, hpos⟩

/-- An access to the register block. -/
inductive Access where
  | read (offset : UInt64)
  | write (offset : UInt64) (value : UInt32)
  deriving DecidableEq, Repr

namespace Emulator

variable {e t : Emulator} {i : Fin maxSlaves} {d : Delivery}

/-- The emulator after an access. -/
def access (e : Emulator) : Access → Emulator
  | .read offset => (block.read offset e).2
  | .write offset value => block.write offset value e

/-- The emulator after accesses. -/
def after (e : Emulator) (accesses : List Access) : Emulator :=
  accesses.foldl access e

/-- The command that an access delivers. -/
def delivered? (e : Emulator) : Access → Option Delivery
  | .read _ => none
  | .write offset value => (Register.ofOffset? offset).bind (e.delivery? value)

/-! ## What is delivered -/

/-- Of the select bits of all chips the one of chip `i` alone is clear. -/
def SelectsAlone (e : Emulator) (i : Fin maxSlaves) : Prop :=
  ∀ j : Fin maxSlaves, e.slaveSelect.toNat.testBit j = false ↔ j = i

theorem selectsAlone_of_selected? (h : e.selected? = some i) : e.SelectsAlone i := by
  -- the two low bits of the word decide
  have hlow : ∀ j : Fin maxSlaves,
      e.slaveSelect.toNat.testBit j = (e.slaveSelect &&& 0b11).toNat.testBit j := by
    intro j
    have hmask : (0b11 : UInt32).toNat.testBit j = true := by revert j; decide
    rw [UInt32.toNat_and, Nat.testBit_and, hmask, Bool.and_true]
  intro j
  rw [hlow]
  rw [selected?] at h
  split at h
  case isTrue hbits =>
    cases h
    rw [hbits]
    revert j
    decide
  case isFalse =>
    split at h
    case isTrue hbits =>
      cases h
      rw [hbits]
      revert j
      decide
    case isFalse => cases h

/-- A command is delivered to the chip that is selected alone. -/
theorem delivered?_eq_some {a : Access} (h : e.delivered? a = some d) :
    e.SelectsAlone d.slave ∧ d.chip = e.chip d.slave := by
  cases a with
  | read => cases h
  | write offset value =>
    obtain ⟨r, -, hr⟩ := Option.bind_eq_some_iff.mp h
    cases r with
    | control =>
      rw [delivery?, burst?] at hr
      split at hr
      · split at hr
        · cases hr
        · obtain ⟨j, hj, rfl⟩ := Option.map_eq_some_iff.mp hr
          exact ⟨selectsAlone_of_selected? (e := e) hj, rfl⟩
      · cases hr
    | _ => cases hr

/-- **An access changes the chips by what it delivers, and by nothing else.** -/
theorem after_access (e : Emulator) (a : Access) : After e (e.access a) (e.delivered? a) := by
  have hoffset : ∀ {offset : UInt64} {r : Register}, Register.ofOffset? offset = some r →
      offset = r.offset := fun h => (by simpa using List.find?_some h : _ = _).symm
  cases a with
  | read offset =>
    cases hr : Register.ofOffset? offset with
    | none =>
      have hsame : e.access (.read offset) = e := by rw [access, block]; simp only [hr]
      rw [hsame]
      exact .nothing rfl rfl rfl rfl
    | some r =>
      obtain rfl := hoffset hr
      obtain ⟨hconfig, hchips, hstats⟩ := Proc.run_block_read e r
      exact .nothing hconfig hchips (congrArg _ hstats) (congrArg _ hstats)
  | write offset value =>
    rw [delivered?]
    cases hr : Register.ofOffset? offset with
    | none =>
      have hsame : e.access (.write offset value) = e := by rw [access, block]; simp only [hr]
      rw [hsame]
      exact .nothing rfl rfl rfl rfl
    | some r =>
      obtain rfl := hoffset hr
      rw [access, Proc.run_block_write]
      exact after_write e value r

/-- A command that reached a chip made one step of it, and the other chips are as they
were. -/
theorem chips_access {a : Access} (h : e.delivered? a = some d) :
    (e.access a).config = e.config ∧
      Chip.Step e.config (e.chip d.slave) d.command ((e.access a).chip d.slave)
        (d.reaction e.config).effect ∧
      ∀ j, j ≠ d.slave → (e.access a).chip j = e.chip j := by
  obtain ⟨-, hchip⟩ := delivered?_eq_some h
  have hafter := after_access e a
  rw [h] at hafter
  cases hafter with
  | command _ hconfig hchips _ _ =>
    refine ⟨hconfig, ?_, fun j hj => ?_⟩
    · rw [chip_of_chipsWith hchips, if_pos rfl, Delivery.reaction, hchip]
      exact Chip.step_react e.config (e.chip d.slave) d.command
    · rw [chip_of_chipsWith hchips, if_neg (Ne.symm hj)]

theorem chips_access_none {a : Access} (h : e.delivered? a = none) :
    (e.access a).config = e.config ∧ (e.access a).chips = e.chips := by
  have hafter := after_access e a
  rw [h] at hafter
  cases hafter with
  | nothing hconfig hchips _ _ => exact ⟨hconfig, hchips⟩

/-! ## States -/

/-- The states that an emulator can be brought into. Unlike one that a driver is meant to
attach to, it may have a fault armed that does not show. -/
inductive Arises : Emulator → Prop where
  | fresh (config : EmulatorConfig) : Arises (.ofConfig config)
  | loaded {e : Emulator} (h : Arises e) (slave : Nat) (offset : UInt64) (data : Bytes) :
    Arises (e.load slave offset data).1
  | occupied {e t : Emulator} {slave : Nat} {polls : UInt32} (h : Arises e)
    (ht : e.setBusy? slave polls = some t) : Arises t
  | armed {e : Emulator} (h : Arises e) (plan : ArmedFault) : Arises (e.arm plan)
  | delayed {e : Emulator} (h : Arises e) (us : UInt32) : Arises (block.delay us e)
  | accessed {e : Emulator} (h : Arises e) (a : Access) : Arises (e.access a)

theorem Arises.after (h : Arises e) (accesses : List Access) : Arises (e.after accesses) := by
  induction accesses generalizing e with
  | nil => exact h
  | cons a rest ih => exact ih (h.accessed a)

/-- Chips keep the size that the configuration gave them. -/
theorem Arises.capacity_eq (h : Arises e) (i : Fin maxSlaves) :
    (e.chip i).contents.capacity = e.config.capacity := by
  induction h generalizing i with
  | fresh => simp only [ofConfig, chip, Fin.getElem_fin, Vector.getElem_replicate]
  | @loaded e _ slave offset data ih =>
    rcases load_eq e slave offset data with heq | ⟨j, contents, hcapacity, heq⟩
    · rw [heq, ih]
    · rw [heq, chip_of_chipsWith rfl]
      split
      · exact hcapacity.trans (ih j)
      · exact ih i
  | occupied _ ht ih =>
    obtain ⟨j, rfl⟩ := setBusy?_eq ht
    rw [chip_of_chipsWith rfl]
    split
    · exact ih j
    · exact ih i
  | armed _ _ ih => exact ih i
  | delayed _ _ ih => exact ih i
  | @accessed e _ a ih =>
    cases hd : e.delivered? a with
    | none =>
      obtain ⟨hconfig, hchips⟩ := chips_access_none hd
      rw [hconfig, chip_of_chips hchips, ih]
    | some d =>
      obtain ⟨hconfig, hstep, hothers⟩ := chips_access hd
      by_cases hi : i = d.slave
      · rw [hconfig, hi, hstep.capacity_eq, ih]
      · rw [hconfig, hothers i hi, ih]

/-! ## Busy chips -/

/-- The status reads among the accesses that reach chip `i`. -/
def polls (i : Fin maxSlaves) : List Access → Emulator → Nat
  | [], _ => 0
  | a :: rest, e =>
    (if ∃ d ∈ e.delivered? a, d.slave = i ∧ d.opcode = Opcode.readStatus then 1 else 0) +
      polls i rest (e.access a)

/-- Chip `i` is busy for `n` status reads: whatever happens until then, each one that
reaches it is counted and it stays as it is otherwise. -/
def BusyFor (e : Emulator) (i : Fin maxSlaves) (n : Nat) : Prop :=
  ∀ accesses, polls i accesses e < n → ∃ busy : UInt32,
    busy.toNat + polls i accesses e = n ∧ (e.after accesses).chip i = { e.chip i with busy }

/-- One access counts a busy chip down if it polls the chip, and leaves it alone
otherwise. -/
theorem busy_access (hbusy : 0 < (e.chip i).busy.toNat) (a : Access) :
    ∃ busy : UInt32, busy.toNat + polls i [a] e = (e.chip i).busy.toNat ∧
      (e.access a).chip i = { e.chip i with busy } := by
  rw [polls, polls, Nat.add_zero]
  cases hd : e.delivered? a with
  | none =>
    obtain ⟨-, hchips⟩ := chips_access_none hd
    exact ⟨_, by simp, chip_of_chips hchips i⟩
  | some d =>
    obtain ⟨-, hstep, hothers⟩ := chips_access hd
    by_cases hi : d.slave = i
    · subst hi
      by_cases hop : d.opcode = Opcode.readStatus
      · obtain ⟨busy, hcount, hchip⟩ := hstep.of_readStatus hop
        refine ⟨busy, ?_, hchip⟩
        simp only [Option.mem_some_iff, exists_eq_left', hop, and_self, if_true]
        omega
      · refine ⟨_, ?_, hstep.of_busy hbusy hop⟩
        simp [hop]
    · exact ⟨_, by simp [hi], hothers i (Ne.symm hi)⟩

/-- **A busy chip is busy for as many status reads as it says.** -/
theorem busyFor_busy (e : Emulator) (i : Fin maxSlaves) : e.BusyFor i (e.chip i).busy.toNat := by
  intro accesses
  induction accesses generalizing e with
  | nil => exact fun _ => ⟨_, rfl, rfl⟩
  | cons a rest ih =>
    intro hpolls
    have hcons : polls i (a :: rest) e = polls i [a] e + polls i rest (e.access a) := by
      rw [polls, polls, polls, Nat.add_zero]
    rw [hcons] at hpolls ⊢
    obtain ⟨busy, hcount, hchip⟩ := busy_access (Nat.zero_lt_of_lt hpolls) a
    obtain ⟨busy', hcount', hchip'⟩ := ih (e.access a) (by rw [hchip]; dsimp only; omega)
    rw [hchip] at hcount' hchip'
    exact ⟨busy', by dsimp only at hcount'; omega, hchip'⟩

/-! ## The rules -/

/-- The rules of flash for the access that turned `e` into `t`, and the command that it
delivered. -/
structure NorRules (e : Emulator) (d? : Option Delivery) (t : Emulator) : Prop where
  selected : ∀ i, t.chip i ≠ e.chip i → e.SelectsAlone i
  one : ∀ i j, t.chip i ≠ e.chip i → t.chip j ≠ e.chip j → i = j
  obeys : ∀ i, Chip.Obeys e.config (e.chip i) (t.chip i)
  /-- Programming and erasing take time, also where no byte changes by it. -/
  stores : ∀ d ∈ d?, (d.reaction e.config).effect.Stores →
    (t.chip d.slave).busy = e.config.busyPolls ∧ t.BusyFor d.slave e.config.busyPolls.toNat
  polled : ∀ d ∈ d?, d.opcode = Opcode.readStatus →
    ∃ busy : UInt32, busy.toNat = (e.chip d.slave).busy.toNat - 1 ∧
      t.chip d.slave = { e.chip d.slave with busy }
  silent : d? = none → t.chips = e.chips

/-- One access keeps to the rules. -/
theorem Arises.norRules (h : Arises e) (a : Access) :
    NorRules e (e.delivered? a) (e.access a) := by
  obtain ⟨hsectors, hpos⟩ := e.config.capacity_bounds
  cases hd : e.delivered? a with
  | none =>
    obtain ⟨-, hchips⟩ := chips_access_none hd
    have hsame := chip_of_chips hchips
    exact ⟨fun i hi => absurd (hsame i) hi, fun i _ hi _ => absurd (hsame i) hi,
      fun i => by rw [hsame i]; exact .refl _ _, nofun, nofun, fun _ => hchips⟩
  | some d =>
    obtain ⟨hselected, -⟩ := delivered?_eq_some hd
    obtain ⟨-, hstep, hothers⟩ := chips_access hd
    have honly : ∀ {i}, (e.access a).chip i ≠ e.chip i → i = d.slave :=
      fun hi => Decidable.byContradiction fun hne => hi (hothers _ hne)
    rw [← h.capacity_eq d.slave] at hsectors hpos
    constructor
    case selected => exact fun i hi => honly hi ▸ hselected
    case one => exact fun i j hi hj => (honly hi).trans (honly hj).symm
    case obeys =>
      intro i
      by_cases hi : i = d.slave
      · rw [hi]
        exact hstep.obeys hsectors hpos
      · rw [hothers i hi]
        exact .refl _ _
    case stores =>
      rintro _ ⟨⟩ hstores
      have hbusy := hstep.busy_of_stores hstores
      exact ⟨hbusy, hbusy ▸ busyFor_busy (e.access a) d.slave⟩
    case polled =>
      rintro _ ⟨⟩ hop
      exact hstep.of_readStatus hop
    case silent => exact nofun

/-- **The emulator obeys the rules of flash under any register traffic.** From any state
it can be brought into, through any accesses: the next access changes at most one chip,
the one selected alone, and as flash changes; a chip that is busy stays busy, and as it
is, until so many status reads reached it. -/
theorem obeys_nor_rules (h : Arises e) (accesses : List Access) :
    (∀ a, NorRules (e.after accesses) ((e.after accesses).delivered? a)
      ((e.after accesses).access a)) ∧
    ∀ i, (e.after accesses).BusyFor i ((e.after accesses).chip i).busy.toNat :=
  ⟨(h.after accesses).norRules, busyFor_busy _⟩

/-- A chip that is kept busy for two status reads, and the first of them. -/
theorem obeys_nor_rules_default :
    ∃ e, (ofConfig {}).setBusy? 0 2 = some e ∧ Arises e ∧
      ∃ d, (e.after [.write 0x68 0x5, .write 0x70 0b10]).delivered? (.write 0x60 0x6) = some d ∧
        d.opcode = Opcode.readStatus ∧
        (((e.after [.write 0x68 0x5, .write 0x70 0b10]).access (.write 0x60 0x6)).chip
          d.slave).busy.toNat = 1 := by
  have hset : (ofConfig {}).setBusy? 0 2 = some _ := rfl
  have harises := Arises.occupied (.fresh {}) hset
  obtain ⟨hrules, -⟩ := obeys_nor_rules harises [.write 0x68 0x5, .write 0x70 0b10]
  obtain ⟨busy, hcount, hchip⟩ := (hrules (.write 0x60 0x6)).polled _ rfl rfl
  exact ⟨_, hset, harises, _, rfl, rfl, (congrArg (·.busy.toNat) hchip).trans hcount⟩

end Emulator

end NorFlash
