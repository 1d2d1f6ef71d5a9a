import NorFlash.Proofs.Exactness
import NorFlash.Proofs.Targets
import NorFlash.Proofs.Transfers

/-!
# Coherence — the cached sector, and the commands of whole runs

In every reachable state the cached sector is the one that the active chip has
selected, so each read, program and erase of a call goes to the pages that the
call is about. No command of a run, from attaching on, finds a chip that has to
drop it.
-/

namespace NorFlash

open Emulator (block idleControl Settled Fresh)
open Delivery (Sound)

variable {e t : Emulator} {f : Flash} {config : EmulatorConfig} {tuning : Tuning}
  {D : Delivery → Prop} {S : Fin maxSlaves → Nat → Prop}

/-! ## Attaching -/

theorem Bus.silent_fill (filler : UInt8) (left pushed : Nat) :
    (Bus.fill filler left pushed).Silent := by
  induction left generalizing pushed with
  | zero => exact .bind passive_txFull.silent fun _ => .pure _
  | succ left ih =>
    refine .bind passive_txFull.silent fun full => ?_
    split
    · exact .pure _
    · exact .bind (.store (by decide) _) fun _ => .bind (.count _) fun _ => ih _

namespace Emulator

/-- Filling the FIFO delivers nothing: no burst is run. -/
theorem Fresh.sends_measureDepth (h : e.Fresh) (hc : e.control = idleControl) (filler : UInt8) :
    Attempt.Sends (Bus.measureDepth filler) e D := by
  refine Attempt.Sends.step .control run_control ?_
  rw [hc, idleControl_or_inhibit]
  refine Attempt.Sends.step (.setControl (by decide)) (run_setControl_idle hc) ?_
  have hsize : e.tx.size = 0 := by rw [h.tx]; rfl
  refine Attempt.Sends.bind_lift (.of_silent (Bus.silent_fill _ _ _))
    (ends_fill h.errors filler Bus.probeLimit 0 (by decide) (by omega)) ?_
  rintro r _ ⟨⟨q, rfl⟩, -⟩
  cases r with
  | none =>
    exact Attempt.Sends.step (.log _) run_log (.of_silent (.bind_attempt
      (.attempt (.setControl (by decide))) fun _ => .pure _))
  | some depth =>
    refine Attempt.Sends.step .status run_status ?_
    split
    · exact Attempt.Sends.step (.log _) run_log (.of_silent (.bind_attempt
        (.attempt (.setControl (by decide))) fun _ => .pure _))
    · exact .of_silent (.bind_attempt (.attempt (.setControl (by decide))) fun _ => .pure _)

/-- Measuring the FIFO depth delivers nothing. -/
theorem Fresh.sends_discoverFifoDepth (h : e.Fresh) (hc : e.control = idleControl) (b : Bus)
    (filler : UInt8) : Attempt.Sends (b.after (Bus.discoverFifoDepth filler)) e D := by
  rw [Bus.after_discoverFifoDepth]
  by_cases hdepth : 0 < e.config.fifoDepth
  case neg =>
    refine Attempt.Sends.bind (sends_resetFifos hc)
      (ends_resetFifos_of_no_room (by omega) h.errors hc b) fun _ _ hf => hf.elim
  have hs := h.settled hc hdepth
  have hempty : e.emptied = e := emptied_eq (by rw [h.tx]; rfl) (by rw [h.rx]; rfl)
  refine Attempt.Sends.bind (sends_resetFifos hc) (hs.ends_resetFifos b) ?_
  rintro _ _ ⟨-, rfl⟩
  rw [hempty]
  refine Attempt.Sends.bind (h.sends_measureDepth hc filler) (h.ends_measureDepth hc filler) ?_
  rintro _ _ ⟨⟨q, rfl⟩, -, -⟩
  refine Attempt.Sends.bind_silent (sends_resetFifos hc) fun _ => ?_
  split
  · exact .pure _
  · exact .bind_attempt (.attempt (.log _)) fun _ => .pure _

/-- Attaching delivers status reads, and an ID read once the chip is ready. -/
theorem Fresh.sends_attach (h : e.Fresh) (tuning : Tuning) :
    Attempt.Sends (Controller.attach tuning) e (Sound S) := by
  rw [Controller.attach]
  refine Attempt.Sends.join (M := Fresh) (fun _ => h) ?_ fun _ hrest => ?_
  case refine_2 =>
    refine Attempt.Sends.step (.log _) run_log ?_
    refine Attempt.Sends.step (.store (by decide) _) run_store ?_
    exact hrest _ h.softReset
  intro u hu
  refine Attempt.Sends.step (.setControl (by decide)) run_setControl ?_
  rw [hu.writeControl_initState]
  have hm : ({ u with control := idleControl } : Emulator).Fresh :=
    ⟨hu.tx, hu.rx, hu.errors, hu.rxStuck, hu.shows, hu.sizes⟩
  have hcontrol : ({ u with control := idleControl } : Emulator).control = idleControl := rfl
  generalize ({ u with control := idleControl } : Emulator) = m at *
  refine Attempt.Sends.bind (hm.sends_discoverFifoDepth hcontrol _ _)
    (hm.ends_discoverFifoDepth hcontrol _ _) ?_
  rintro bus _ ⟨rfl, hbus, hpos, -⟩
  refine Attempt.Sends.bind_count fun _ => ?_
  split
  · exact Attempt.Sends.step (.log _) run_log (.of_silent (.pure _))
  rename_i hroom
  have hdepth : bus.fifoDepth = m.config.fifoDepth := by rw [hbus]
  have hslave : bus.slave.toNat = firstChip.val := by rw [hbus]; rfl
  have hs := hm.settled hcontrol hpos
  refine Attempt.Sends.bind (hs.sends_waitUntilReady hdepth hslave (by omega))
    (hs.ends_waitUntilReady_idle hdepth hslave (by omega)) ?_
  rintro _ t ⟨ht, hconfig, hidle⟩
  refine Attempt.Sends.bind_silent (ht.sends_identify (hdepth.trans (by rw [hconfig])) hslave
    (by omega) hidle) fun r => ?_
  exact .bind_attempt (.attempt (.log _)) fun _ => .pure _

end Emulator

/-- An attempt that ended well went well at its first step. -/
theorem Attempt.ok_of_bind {α β σ : Type} {b : RegisterBlock σ} {s u : σ} {x : Attempt α}
    {g : α → Attempt β} {r : β} (h : (x >>= g).run.run b s = (some (.ok r), u)) :
    ∃ a m, x.run.run b s = (some (.ok a), m) ∧ (g a).run.run b m = (some (.ok r), u) := by
  change (Proc.bind x.run _).run b s = _ at h
  rw [Proc.run_bind] at h
  generalize x.run.run b s = first at h
  obtain ⟨_ | error | a, m⟩ := first
  · cases h
  · cases h
  · exact ⟨a, m, rfl, h⟩

/-- A driver that attached can count the bytes ahead of read data. -/
theorem Controller.count_lt_of_attach {σ : Type} {b : RegisterBlock σ} {s u : σ} {c : Controller}
    (h : (Controller.attach tuning).run.run b s = (some (.ok c), u)) :
    Opcode.headerLen + tuning.readDummyLen < wordLimit := by
  refine Classical.byContradiction fun hlt => ?_
  rw [Controller.attach, show Proc.count (Opcode.headerLen + tuning.readDummyLen) = Proc.trap from
    if_neg hlt] at h
  -- with or without the soft reset, the run traps after the measurement
  have htraps : ∀ {s : σ} {x : Attempt Unit} {y : Attempt Bus} {g : Bus → Nat → Attempt Controller},
      (x >>= fun _ => y >>= fun bus => liftM (Proc.trap : Proc Nat) >>= g bus).run.run b s ≠
        (some (.ok c), u) := by
    intro s x y g h
    obtain ⟨_, _, -, h⟩ := Attempt.ok_of_bind h
    obtain ⟨_, _, -, h⟩ := Attempt.ok_of_bind h
    obtain ⟨_, _, hcount, -⟩ := Attempt.ok_of_bind h
    cases hcount
  split at h
  · obtain ⟨_, _, -, h⟩ := Attempt.ok_of_bind h
    obtain ⟨_, _, -, h⟩ := Attempt.ok_of_bind h
    exact htraps h
  · exact htraps h

/-- Attaching a flash delivers lawful commands only, however it ends. -/
theorem Emulator.Prepared.sends_attach (h : Emulator.Prepared config e) (tuning : Tuning) :
    Attempt.Sends (Flash.attach tuning) e (Sound S) :=
  Attempt.Sends.bind_silent (h.fresh_and_config.1.sends_attach tuning) fun _ => .pure _

/-! ## Calls in reachable states -/

namespace FlashCall

/-- The offset that a call is about. -/
def offset : FlashCall → UInt64
  | read p _ | readAt p _ | write p _ | erase p _ => p
  | openSession | closeSession => 0
  | sessionRead s _ | sessionWrite s _ => s.position

/-- How many bytes a call is about. -/
def length : FlashCall → Nat
  | read _ n | readAt _ n | erase _ n | sessionRead _ n => n
  | write _ data | sessionWrite _ data => data.length
  | openSession | closeSession => 0

/-- A call delivers lawful commands only, to pages that its range touches. -/
theorem sends_perform (h : Attached f.controller e) (call : FlashCall) :
    (call.perform f).Sends e (Sound (Touched call.offset call.length f)) := by
  have hdrop : ∀ {α : Type} {x : FlashProc α} {D : Delivery → Prop}, (x f).Sends e D →
      ((x >>= fun _ => pure ()) f).Sends e D :=
    fun hx => Proc.Sends.bind_silent hx fun _ => .pure _
  cases call with
  | read p len => exact hdrop (h.sends_read p len)
  | readAt p len => exact hdrop (h.sends_readAt p len)
  | write p data => exact hdrop (h.sends_write p data)
  | erase p size => exact hdrop (h.sends_erase p size)
  | openSession =>
    refine hdrop (Proc.Sends.bind_get_state ?_)
    split
    · exact .pure
    · exact .of_silent fun _ => rfl
  | closeSession => exact .of_silent fun _ => rfl
  | sessionRead s len => exact hdrop (h.sends_sessionRead s len)
  | sessionWrite s data => exact hdrop (h.sends_sessionWrite s data)

end FlashCall

theorem Reachable.count_lt (h : Reachable config tuning f e) :
    Opcode.headerLen + tuning.readDummyLen < wordLimit := by
  induction h with
  | attach _ hrun =>
    obtain ⟨_, _, hattach, -⟩ := Attempt.ok_of_bind hrun
    exact Controller.count_lt_of_attach hattach
  | handled _ _ ih => exact ih
  | called _ _ _ ih => exact ih

theorem Reachable.attached (h : Reachable config tuning f e) : Attached f.controller e :=
  (h.invariant h.count_lt).1

/-! ## The cached sector -/

/-- The chip looks for the address in the 16 MiB sector it has selected. -/
theorem Delivery.sector_eq {d : Delivery} {b : Nat} (h : d.address? = some b) :
    d.chip.sector.toNat = b / sectorSize := by
  rw [address?] at h
  split at h
  · rename_i high middle low _ _
    split at h
    · cases h
      have hhigh := high.toNat_lt
      have hmiddle := middle.toNat_lt
      have hlow := low.toNat_lt
      simp only [Chip.address, Address.highWeight, Address.middleWeight, sectorSize]
      omega
    · cases h
  · cases h

/-- A command at `b` goes to the chip, the 16 MiB sector and the page of the
offset. -/
structure Delivery.Hits (d : Delivery) (b : Nat) (p : UInt64) : Prop where
  slave : d.slave.val = (Address.ofOffset p).slave.toNat
  sector : d.chip.sector = (Address.ofOffset p).sector
  page : b / pageSize = (chipOffset p).toNat / pageSize

/-- What a call touches is the page of one of its bytes. -/
theorem Touched.hits {p : UInt64} {n b : Nat} {d : Delivery} (ha : Attached f.controller e)
    (h : Touched p n f d.slave b) (hd : d.address? = some b) :
    ∃ k < n, (chipOffset p).toNat + k < f.capacity ∧
      d.Hits b (UInt64.ofNat (p.toNat + k)) := by
  obtain ⟨hslave, k, hk, hpage⟩ := h
  have hremaining : f.remaining p = f.capacity - (chipOffset p).toNat := rfl
  have hbounds := ha.capacity_bounds.2.2
  rw [← ha.capacity_eq] at hbounds
  have hcapacity : f.capacity = f.controller.capacity := rfl
  have hp : Locates p d.slave (chipOffset p).toNat := ⟨hslave, (chipOffset_toNat p).symm⟩
  have hlt : (chipOffset p).toNat + k < 16 * sectorSize := by omega
  obtain ⟨-, hq⟩ := hp.advance (n := k) (by simp only [word32Limit, sectorSize] at *; omega)
  refine ⟨k, by omega, by omega, hq.slave.symm, ?_, by rw [hpage, hq.chipOffset_eq]⟩
  have hheader := hq.header
  have hhigh := (Address.ofOffset (UInt64.ofNat (p.toNat + k))).high.toNat_lt
  have hmiddle := (Address.ofOffset (UInt64.ofNat (p.toNat + k))).middle.toNat_lt
  have hlow := (Address.ofOffset (UInt64.ofNat (p.toNat + k))).low.toNat_lt
  rw [← UInt8.toNat_inj, Delivery.sector_eq hd]
  simp only [Address.highWeight, Address.middleWeight, sectorSize, pageSize] at *
  omega

/-- **The sector cache is coherent.** In every reachable state the cached sector,
if there is one, is the one that the active chip has selected. So whatever call
comes next, each read, program and erase that reaches a chip goes to the chip,
the 16 MiB sector and the page of one of the bytes that the call is about. -/
theorem Reachable.sector_coherent (h : Reachable config tuning f e) :
    (f.controller.sector ≠ sectorNone → ∃ i : Fin maxSlaves,
      f.controller.bus.slave.toNat = i.val ∧ (e.chip i).sector = f.controller.sector) ∧
    ∀ call : FlashCall, ∀ d ∈ (call.perform f).deliveries e, ∀ b, d.address? = some b →
      ∃ k < call.length, (chipOffset call.offset).toNat + k < f.capacity ∧
        d.Hits b (UInt64.ofNat (call.offset.toNat + k)) := by
  have ha := h.attached
  refine ⟨fun hcached => ⟨⟨_, ha.slave_lt⟩, rfl, ha.cache hcached _ rfl⟩, ?_⟩
  intro call d hd b hb
  exact ((call.sends_perform ha d hd).inside b hb).hits ha hb

/-- An attached controller is fitted. -/
theorem Attached.fitted {c : Controller} (h : Attached c e) : c.Fitted where
  scratch := h.scratch.trans h.depth.symm
  room := h.depth ▸ h.overhead_lt
  depth := h.depth ▸ h.depth_le
  capacity := h.capacity_eq ▸ h.capacity_bounds.2.2

/-- An erase that ends well leaves the sector of its offset cached. -/
theorem Flash.abides_erase_sector (hf : f.controller.Fitted) (p : UInt64) (size : Nat) :
    (erase p size f).Abides .lax fun r =>
      r.1 = .ok () → r.2.controller.sector = (Address.ofOffset p).sector := by
  have hc : f.controller.Within .lax f.controller.vendor := hf.within_of_all fun _ => trivial
  rw [erase, FlashProc.get_bind]
  split
  · exact .pure nofun
  · exact .bind (Controller.abides_erase hc size) fun r hr => .pure fun hok => (hr.2 () hok).2

/-- A call drops its answer. -/
theorem FlashCall.run_erase {f' : Flash} {p : UInt64} {size : Nat} {r : Except Error Unit}
    (h : (Flash.erase p size f).run block e = (some (r, f'), t)) :
    ((FlashCall.erase p size).perform f).run block e = (some ((), f'), t) := by
  have hends : ((FlashCall.erase p size).perform f).Ends block e
      fun x u => x = ((), f') ∧ u = t := by
    rw [perform]
    refine Proc.Ends.bind_state (M := fun x u => x = (r, f') ∧ u = t) ⟨_, t, h, rfl, rfl⟩ ?_
    intro _ _ _ hpost
    obtain ⟨hx, rfl⟩ := hpost
    cases hx
    exact Proc.Ends.pure ⟨rfl, rfl⟩
  obtain ⟨_, _, hrun, rfl, rfl⟩ := hends
  exact hrun

/-- In a chip of two sectors the second is cached after an erase in it, and a read in the first
goes back to that one. -/
theorem sector_coherent_default :
    ∃ f e, Reachable { capacityCode := 0x19 } {} f e ∧ f.controller.sector = 1 ∧
      (∃ i : Fin maxSlaves, f.controller.bus.slave.toNat = i.val ∧ (e.chip i).sector = 1) ∧
      ∀ d ∈ ((FlashCall.read 0x10 2).perform f).deliveries e, ∀ b, d.address? = some b →
        d.slave.val = 0 ∧ d.chip.sector = 0 := by
  obtain ⟨f, e, hr, hengaged⟩ := Emulator.Prepared.fresh.exists_reachable attachable_twoSectors
  have hattached := hengaged.ready.attached
  have hfit : EraseUnit.page.bytes ≤ f.remaining 0x1000000 := by
    rw [Flash.remaining, hengaged.capacity_eq]
    decide
  obtain ⟨⟨r, f'⟩, t, hrun, hok⟩ := hattached.ends_erase_ok hfit (by decide)
    (hengaged.tuning ▸ hengaged.unhindered rfl (by decide))
    (by rw [Patient, hengaged.tuning, hengaged.config]; decide)
  have hcached : f'.controller.sector = 1 :=
    (Flash.abides_erase_sector hattached.fitted 0x1000000 _).of_run hrun hok
  have hr' : Reachable { capacityCode := 0x19 } {} f' t := by
    exact .called hr (.erase 0x1000000 _) (FlashCall.run_erase hrun)
  obtain ⟨hchip, hcalls⟩ := hr'.sector_coherent
  refine ⟨f', t, hr', hcached, ?_, fun d hd b hb => ?_⟩
  · rw [hcached] at hchip
    exact hchip (by decide)
  obtain ⟨k, hk, -, hhits⟩ := hcalls (.read 0x10 2) d hd b hb
  have hk : k < 2 := hk
  have hplace : ∀ k < 2, (Address.ofOffset (UInt64.ofNat ((0x10 : UInt64).toNat + k))).slave = 0 ∧
      (Address.ofOffset (UInt64.ofNat ((0x10 : UInt64).toNat + k))).sector = 0 := by decide
  obtain ⟨hslave, hsector⟩ := hplace k hk
  exact ⟨hhits.slave.trans (by rw [FlashCall.offset, hslave]; rfl), hhits.sector.trans hsector⟩

/-! ## Lawful runs -/

/-- No command was dropped by a busy chip or for want of the write enable
latch. -/
structure Emulator.NoneDropped (e : Emulator) : Prop where
  whileBusy : e.stats.commandsWhileBusy = 0
  rejected : e.stats.rejectedCommands = 0

/-- A run whose deliveries are lawful drops no command. -/
theorem Emulator.NoneDropped.run {α : Type} {p : Proc α} (h : e.NoneDropped)
    (hp : ∀ d ∈ p.deliveries e, d.Lawful) : (p.run block e).2.NoneDropped := by
  obtain ⟨hbusy, hrejected⟩ := Proc.dropped_run p e hp
  exact ⟨hbusy.trans h.whileBusy, hrejected.trans h.rejected⟩

theorem Emulator.Handled.noneDropped (h : Emulator.Handled e t) (he : e.NoneDropped) :
    t.NoneDropped := by
  obtain ⟨i, chip, armed, -, -, -, rfl⟩ := h.eq
  exact ⟨he.whileBusy, he.rejected⟩

theorem Emulator.Prepared.noneDropped (h : Emulator.Prepared config e) : e.NoneDropped := by
  induction h with
  | fresh => exact ⟨rfl, rfl⟩
  | handled _ hh ih => exact hh.noneDropped ih

theorem Reachable.noneDropped (h : Reachable config tuning f e) : e.NoneDropped := by
  induction h with
  | attach h hrun =>
    have hrun' := h.noneDropped.run (p := (Flash.attach tuning).run) fun d hd =>
      (h.sends_attach (S := fun _ _ => True) tuning d hd).lawful
    rw [hrun] at hrun'
    exact hrun'
  | handled _ hh ih => exact hh.noneDropped ih
  | called h call hrun ih =>
    have hrun' := ih.run (p := call.perform _) fun d hd =>
      (call.sends_perform h.attached d hd).lawful
    rw [hrun] at hrun'
    exact hrun'

/-- **No run breaks the rules of the chips.** From attaching on, however that and
the calls end, only status reads reach a busy chip, commands that need the write
enable latch find it set, and no command was ever dropped. -/
theorem commands_lawful (config : EmulatorConfig) (tuning : Tuning) :
    (∀ e, Emulator.Prepared config e →
      (∀ d ∈ (Flash.attach tuning).run.deliveries e, d.Lawful) ∧
        ((Flash.attach tuning).run.run block e).2.NoneDropped) ∧
    ∀ f e, Reachable config tuning f e → e.NoneDropped ∧
      ∀ call : FlashCall, (∀ d ∈ (call.perform f).deliveries e, d.Lawful) ∧
        ((call.perform f).run block e).2.NoneDropped := by
  constructor
  · intro e h
    have hlawful : ∀ d ∈ (Flash.attach tuning).run.deliveries e, d.Lawful := fun d hd =>
      (h.sends_attach (S := fun _ _ => True) tuning d hd).lawful
    exact ⟨hlawful, h.noneDropped.run hlawful⟩
  · intro f e h
    refine ⟨h.noneDropped, fun call => ?_⟩
    have hlawful : ∀ d ∈ (call.perform f).deliveries e, d.Lawful := fun d hd =>
      (call.sends_perform h.attached d hd).lawful
    exact ⟨hlawful, h.noneDropped.run hlawful⟩

/-- A page of a default flash is erased without a command being dropped. -/
theorem commands_lawful_default :
    ∃ f e, Reachable {} {} f e ∧ e.NoneDropped ∧
      (((FlashCall.erase 0 4096).perform f).run block e).2.NoneDropped := by
  obtain ⟨f, e, hr, -⟩ := Emulator.Prepared.fresh.exists_reachable attachable_default
  obtain ⟨hnone, hcalls⟩ := (commands_lawful {} {}).2 f e hr
  exact ⟨f, e, hr, hnone, (hcalls (.erase 0 4096)).2⟩

end NorFlash
