import NorFlash.Proofs.Burst

/-!
# Deliveries — the commands that reach a chip

A write to the control register delivers a command if it starts a burst that no
fault keeps from the selected chip. `Proc.deliveries` lists what a run delivers,
each command with the chip as the command found it; nothing else changes a chip
or what is recorded of it.
-/

namespace NorFlash

/-- A command on its way to a chip, and the chip as the command finds it. -/
structure Delivery where
  slave : Fin maxSlaves
  chip : Chip
  command : Bytes

namespace Delivery

/-- The command, carried out. -/
def reaction (config : EmulatorConfig) (d : Delivery) : Chip.Reaction :=
  d.chip.react config d.command

/-- What the command asks for. -/
def opcode (d : Delivery) : UInt8 := d.command.headD 0

/-- Opcodes of the commands that a chip takes only with the latch set. -/
def latchedOpcodes : List UInt8 :=
  [Opcode.writeSector, Opcode.quadProgram, Opcode.pageProgram, Opcode.erase4K, Opcode.erase32K,
    Opcode.erase64K]

/-- Opcodes of the commands that read, program or erase at an address. -/
def addressedOpcodes : List UInt8 :=
  [Opcode.quadRead, Opcode.quadProgram, Opcode.pageProgram, Opcode.erase4K, Opcode.erase32K,
    Opcode.erase64K]

/-- The chip does not have to drop the command: only a status read finds it
busy, and commands that need the write enable latch find it set. -/
structure Lawful (d : Delivery) : Prop where
  idle : d.opcode ≠ Opcode.readStatus → d.chip.busy = 0
  latched : d.opcode ∈ latchedOpcodes → d.chip.writeEnabled = true

/-- The address of a read, a program or an erase, in the sector that the chip
has selected. -/
def address? (d : Delivery) : Option Nat :=
  match d.command with
  | opcode :: high :: middle :: low :: _ =>
    if opcode ∈ addressedOpcodes then some (d.chip.address high middle low) else none
  | _ => none

/-- Lawful commands are not dropped. -/
theorem Lawful.effect_ne {d : Delivery} (h : d.Lawful) (config : EmulatorConfig) :
    (d.reaction config).effect ≠ .whileBusy ∧ (d.reaction config).effect ≠ .rejected := by
  obtain ⟨slave, chip, command⟩ := d
  obtain ⟨hidle, hlatched⟩ := h
  -- what needs the latch is carried out under it
  have hlatch : ∀ {c : Chip} {len : Nat} {act : Chip → Chip.Reaction}, c.writeEnabled = true →
      (∀ c, (act c).effect ≠ .whileBusy ∧ (act c).effect ≠ .rejected) →
      (c.latched len act).effect ≠ .whileBusy ∧ (c.latched len act).effect ≠ .rejected := by
    intro c len act hset hact
    rw [Chip.latched, if_pos hset]
    exact hact _
  simp only [opcode, reaction] at hidle hlatched ⊢
  fun_cases Chip.react config chip command with
  | case3 op _ hop hbusy =>
    have hzero : chip.busy = 0 := hidle hop
    rw [hzero] at hbusy
    exact absurd hbusy (by decide)
  | case7 _ hop =>
    exact hlatch (hlatched (by simp [latchedOpcodes])) fun _ => ⟨by simp, by simp⟩
  | case8 op =>
    fun_cases Chip.reactAddressed
    · exact ⟨by simp, by simp⟩
    · rename_i hprogram
      refine hlatch (hlatched ?_) fun _ => ⟨by simp, by simp⟩
      obtain ⟨v, -, hv⟩ := Option.map_eq_some_iff.mp hprogram.1
      cases v <;> simp [latchedOpcodes, ← hv, Vendor.programOpcode]
    · rename_i unit herase
      refine hlatch (hlatched ?_) fun _ => ⟨by simp, by simp⟩
      have hunit := List.find?_some herase
      rw [beq_iff_eq] at hunit
      cases unit <;> simp [latchedOpcodes, ← hunit, EraseUnit.opcode]
    · exact ⟨by simp, by simp⟩
  | _ => exact ⟨by simp, by simp⟩

end Delivery

/-! ## One register write -/

namespace Emulator

variable {e : Emulator} {word : UInt32}

/-- The command that the bytes in the TX FIFO are to the selected chip, unless
a fault drops it. -/
def burst? (e : Emulator) : Option Delivery :=
  if (strike e.armed (e.tx.toList.headD 0)).1.any Fault.drops then none
  else e.selected?.map fun i => ⟨i, e.chip i, e.tx.toList⟩

/-- The command that a register write delivers. -/
def delivery? (e : Emulator) (word : UInt32) : Register → Option Delivery
  | .control =>
    if (e.resetFifos word).startsBurst word then (e.resetFifos word).burst? else none
  | _ => none

/-- The chips, and the counts of dropped commands, after a write that delivers
nothing or a command. -/
inductive After (e t : Emulator) : Option Delivery → Prop where
  | nothing (hconfig : t.config = e.config) (hchips : t.chips = e.chips)
    (hbusy : t.stats.commandsWhileBusy = e.stats.commandsWhileBusy)
    (hrejected : t.stats.rejectedCommands = e.stats.rejectedCommands) : After e t none
  | command (d : Delivery) (hconfig : t.config = e.config)
    (hchips : t.chips = e.chipsWith d.slave (d.reaction e.config).chip)
    (hbusy : t.stats.commandsWhileBusy =
      (observe e.stats d.slave (d.reaction e.config).effect).commandsWhileBusy)
    (hrejected : t.stats.rejectedCommands =
      (observe e.stats d.slave (d.reaction e.config).effect).rejectedCommands) :
    After e t (some d)

theorem After.of_start {m t : Emulator} {d : Option Delivery} (h : After m t d)
    (hconfig : m.config = e.config) (hchips : m.chips = e.chips) (hstats : m.stats = e.stats) :
    After e t d := by
  cases h with
  | nothing h1 h2 h3 h4 =>
    exact .nothing (h1.trans hconfig) (h2.trans hchips) (hstats ▸ h3) (hstats ▸ h4)
  | command d h1 h2 h3 h4 =>
    refine .command d (h1.trans hconfig) ?_ ?_ ?_
    · rw [h2, chipsWith, hchips, hconfig]
    · rw [h3, hstats, hconfig]
    · rw [h4, hstats, hconfig]

/-- A burst delivers its command, or nothing. -/
theorem after_runBurst (e : Emulator) : After e e.runBurst e.burst? := by
  cases hselected : e.selected? with
  | none =>
    have hnone : e.burst? = none := by
      rw [burst?, hselected]
      split <;> rfl
    have hselected' : ∀ (bits : UInt32) (armed : Option ArmedFault) (tx : Fifo)
        (stats : EmulatorStats), { e with errors := bits, armed, tx, stats }.selected? = none :=
      fun _ _ _ _ => hselected
    rw [hnone, runBurst]
    generalize strike e.armed (e.tx.toList.headD 0) = struck
    obtain ⟨fault, armed⟩ := struck
    rcases fault with _ | (_ | _ | _ | _ | _) <;> simp only [execute, hselected'] <;>
      exact .nothing rfl rfl rfl rfl
  | some i =>
    obtain ⟨fault, armed, hs⟩ : ∃ fault armed, strike e.armed (e.tx.toList.headD 0) =
        (fault, armed) := ⟨_, _, rfl⟩
    rw [burst?, runBurst_eq rfl hselected hs, hselected, hs]
    have hrecord : ∀ bursts longest effect,
        (observe { e.stats with bursts, maxBurstLen := longest } i effect).commandsWhileBusy =
            (observe e.stats i effect).commandsWhileBusy ∧
          (observe { e.stats with bursts, maxBurstLen := longest } i effect).rejectedCommands =
            (observe e.stats i effect).rejectedCommands := by
      intro _ _ effect
      cases effect <;> exact ⟨rfl, rfl⟩
    rcases fault with _ | (_ | _ | _ | _ | _)
    case some.stall => exact .nothing rfl rfl rfl rfl
    case some.error => exact .nothing rfl rfl rfl rfl
    all_goals exact .command _ rfl rfl (hrecord _ _ _).1 (hrecord _ _ _).2

/-- **A chip changes only by what is delivered to it.** -/
theorem after_write (e : Emulator) (word : UInt32) (r : Register) :
    After e (e.write word r) (e.delivery? word r) := by
  cases r with
  | control =>
    rw [delivery?, write, writeControl]
    split
    · obtain ⟨m, hm⟩ : ∃ m, m = { e.resetFifos word with
          control := word &&& ~~~Control.fifoResets } := ⟨_, rfl⟩
      have hburst : (e.resetFifos word).burst? = m.burst? := hm ▸ rfl
      have hconfig : m.config = e.config := hm ▸ rfl
      have hchips : m.chips = e.chips := hm ▸ rfl
      have hstats : m.stats = e.stats := hm ▸ rfl
      rw [hburst, ← hm]
      exact (after_runBurst m).of_start hconfig hchips hstats
    · exact .nothing rfl rfl rfl rfl
  | reset =>
    rw [write]
    split <;> exact .nothing rfl rfl rfl rfl
  | tx =>
    rw [write]
    split <;> exact .nothing rfl rfl rfl rfl
  | status | rx | slaveSelect => exact .nothing rfl rfl rfl rfl

/-- No burst starts while transfers are inhibited. -/
theorem delivery?_inhibited (h : hasAll word Control.transInhibit = true) (e : Emulator)
    (r : Register) : e.delivery? word r = none := by
  cases r with
  | control =>
    rw [delivery?, startsBurst, h]
    simp
  | _ => rfl

end Emulator

/-! ## Runs -/

namespace Proc

open Emulator (block)

variable {α β : Type} {e t : Emulator}

/-- The commands that a run delivers, in order. -/
def deliveries : Proc α → Emulator → List Delivery
  | done _, _ => []
  | trap, _ => []
  | read r next, e => (next (block.read r.offset e).1).deliveries (block.read r.offset e).2
  | write r v next, e => (e.delivery? v r).toList ++ (next ()).deliveries (block.write r.offset v e)
  | delay us next, e => (next ()).deliveries (block.delay us e)
  | yield next, e => (next ()).deliveries e
  | note _ next, e => (next ()).deliveries e

theorem deliveries_bind (p : Proc α) (f : α → Proc β) (e : Emulator) :
    (p >>= f).deliveries e = p.deliveries e ++ match p.run block e with
      | (some a, t) => (f a).deliveries t
      | (none, _) => [] := by
  rw [bind_eq]
  induction p generalizing e with
  | done | trap => rfl
  | read r next ih => exact ih _ _
  | write r v next ih =>
    rw [bind, deliveries, deliveries, List.append_assoc]
    exact congrArg _ (ih () _)
  | delay us next ih => exact ih () _
  | yield next ih => exact ih () _
  | note m next ih => exact ih () _

theorem deliveries_store {r : Register} {v : UInt32} :
    (store r v).deliveries e = (e.delivery? v r).toList := by
  rw [store, deliveries, deliveries, List.append_nil]

/-- The chips after commands that were carried out in order. -/
def carriedOut (config : EmulatorConfig) (chips : Vector Chip maxSlaves) :
    List Delivery → Vector Chip maxSlaves
  | [] => chips
  | d :: rest =>
    carriedOut config (chips.set d.slave (d.reaction config).chip d.slave.isLt) rest

theorem carriedOut_append (config : EmulatorConfig) (chips : Vector Chip maxSlaves)
    (ds rest : List Delivery) : carriedOut config chips (ds ++ rest) =
      carriedOut config (carriedOut config chips ds) rest := by
  induction ds generalizing chips with
  | nil => rfl
  | cons d ds ih => exact ih _

theorem run_block_read (e : Emulator) (r : Register) :
    (block.read r.offset e).2.config = e.config ∧ (block.read r.offset e).2.chips = e.chips ∧
      (block.read r.offset e).2.stats = e.stats := by
  cases r with
  | rx =>
    change (e.read .rx).2.config = _ ∧ (e.read .rx).2.chips = _ ∧ (e.read .rx).2.stats = _
    rw [Emulator.read]
    cases e.rx.pop? <;> exact ⟨rfl, rfl, rfl⟩
  | _ => exact ⟨rfl, rfl, rfl⟩

theorem run_block_write (e : Emulator) (r : Register) (v : UInt32) :
    block.write r.offset v e = e.write v r := by
  cases r <;> rfl

theorem run_write (r : Register) (v : UInt32) (next : Unit → Proc α) :
    (write r v next).run block e = (next ()).run block (e.write v r) := by
  cases r <;> rfl

/-- **The deliveries of a run are all that happens to the chips.** -/
theorem chips_run (p : Proc α) (e : Emulator) :
    (p.run block e).2.chips = carriedOut e.config e.chips (p.deliveries e) := by
  induction p generalizing e with
  | done | trap => rfl
  | read r next ih =>
    obtain ⟨hconfig, hchips, -⟩ := run_block_read e r
    have hrest := ih (block.read r.offset e).1 (block.read r.offset e).2
    rw [hconfig, hchips] at hrest
    exact hrest
  | write r v next ih =>
    have hrest := ih () (e.write v r)
    have hafter := Emulator.after_write e v r
    rw [run_write, hrest, deliveries, carriedOut_append, run_block_write]
    generalize e.delivery? v r = d at hafter
    cases hafter with
    | nothing hconfig hchips _ _ =>
      rw [hconfig, hchips]
      rfl
    | command d hconfig hchips _ _ =>
      rw [hconfig, hchips]
      rfl
  | delay us next ih => exact ih () _
  | yield next ih => exact ih () _
  | note m next ih => exact ih () _

/-- A run whose deliveries are lawful does not raise the counts of dropped
commands. -/
theorem dropped_run (p : Proc α) (e : Emulator) (h : ∀ d ∈ p.deliveries e, d.Lawful) :
    (p.run block e).2.stats.commandsWhileBusy = e.stats.commandsWhileBusy ∧
      (p.run block e).2.stats.rejectedCommands = e.stats.rejectedCommands := by
  induction p generalizing e with
  | done | trap => exact ⟨rfl, rfl⟩
  | read r next ih =>
    obtain ⟨-, -, hstats⟩ := run_block_read e r
    have hrest := ih (block.read r.offset e).1 (block.read r.offset e).2 h
    rw [hstats] at hrest
    exact hrest
  | write r v next ih =>
    rw [deliveries, run_block_write] at h
    obtain ⟨hbusy', hrejected'⟩ := ih () (e.write v r) fun d hd =>
      h d (List.mem_append_right _ hd)
    have hhead := fun d hd => h d (List.mem_append_left _ hd)
    have hafter := Emulator.after_write e v r
    rw [run_write, hbusy', hrejected']
    generalize e.delivery? v r = d at hafter hhead
    cases hafter with
    | nothing _ _ hbusy hrejected => exact ⟨hbusy, hrejected⟩
    | command d _ _ hbusy hrejected =>
      obtain ⟨h1, h2⟩ := (hhead d (.head _)).effect_ne e.config
      rw [hbusy, hrejected]
      cases heffect : (d.reaction e.config).effect with
      | whileBusy => exact absurd heffect h1
      | rejected => exact absurd heffect h2
      | _ => exact ⟨rfl, rfl⟩
  | delay us next ih => exact ih () _ h
  | yield next ih => exact ih () _ h
  | note m next ih => exact ih () _ h

end Proc

end NorFlash
