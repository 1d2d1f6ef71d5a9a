import NorFlash.Proofs.Sending
import NorFlash.Proofs.Erasing

/-!
# Orders — what each operation delivers

A transaction delivers its command to the active slave, or nothing. Each
operation of a controller delivers sound commands only: the chip takes them, and
those with an address stay in the range that the operation is about.
-/

namespace NorFlash

open Emulator (block idleControl strike Settled Poised)

variable {e t : Emulator} {c c' : Controller} {b : Bus} {i : Fin maxSlaves} {command : Bytes}
  {p : UInt64} {a : Nat} {D : Delivery → Prop} {S : Fin maxSlaves → Nat → Prop}

/-! ## Steps of a transaction that deliver nothing -/

namespace Bus

theorem silent_push (bytes : Bytes) : (Bus.push bytes).Silent := by
  induction bytes with
  | nil => exact .pure _
  | cons v rest ih => exact .bind (.store (by decide) _) fun _ => ih

theorem silent_activate (slave : Option UInt8) : (Bus.activate slave).Silent := by
  cases slave with
  | none => exact .store (by decide) _
  | some slave =>
    rw [Bus.activate_some]
    split
    · exact .store (by decide) _
    · exact .bind (.log _) fun _ => .store (by decide) _

end Bus

/-! ## Transactions -/

namespace Emulator

/-- The write that lifts the inhibit bit delivers the waiting bytes, or nothing. -/
theorem eq_of_delivery?_start (hselected : e.selected? = some i)
    {d : Delivery} (h : e.delivery? (idleControl &&& ~~~Control.transInhibit) .control = some d) :
    d = ⟨i, e.chip i, e.tx.toList⟩ := by
  rw [delivery?, resetFifos_start, burst?, hselected] at h
  split at h
  · split at h
    · cases h
    · cases h
      rfl
  · cases h

theorem Poised.sends_transmit (h : e.Poised i command) (hb : b.fifoDepth = e.config.fifoDepth)
    (hD : D ⟨i, e.chip i, command⟩) : Attempt.Sends (b.transmit command) e D := by
  obtain ⟨q, hq, hpush⟩ := h.run_push
  rw [Bus.transmit, if_neg (by have := h.fits; omega)]
  refine Attempt.Sends.step .control run_control ?_
  rw [h.control, idleControl_or_inhibit]
  refine Attempt.Sends.step (.setControl (by decide)) (run_setControl_idle h.control) ?_
  refine Attempt.Sends.step (Bus.silent_push _) hpush ?_
  refine Attempt.Sends.bind_silent (Attempt.Sends.lift ?_) fun _ => ?_
  · intro d hd
    rw [Proc.setControl, Proc.deliveries_store, Option.mem_toList] at hd
    rw [eq_of_delivery?_start (e := { e with tx := q }) h.selected hd]
    rw [← hq] at hD
    exact hD
  -- once the burst has started, what is left delivers nothing
  · refine .bind_attempt (.attempt (Bus.passive_await Bus.passive_txSettled b).silent)
      fun settled => ?_
    exact .bind_attempt (.attempt (.setControl (by decide))) fun _ => Bus.passive_settle.silent

theorem Poised.sends_transfer (h : e.Poised i command) (hb : b.fifoDepth = e.config.fifoDepth)
    (hD : D ⟨i, e.chip i, command⟩) (wanted : Bool) : (b.transfer command wanted).Sends e D := by
  refine Proc.Sends.bind_silent (h.sends_transmit hb hD) fun r => ?_
  rcases r with error | _
  · exact .pure _
  · cases wanted with
    | true =>
      rw [if_pos rfl, Bus.receive_self]
      exact (Bus.passive_pull _ _ []).silent
    | false =>
      refine .bind (.bind (Bus.passive_pull _ _ []).silent fun _ => .pure _) fun r => ?_
      cases r with
      | error _ => exact .bind (.log _) fun _ => .pure _
      | ok _ => exact .pure _

theorem sends_resetFifos (hc : e.control = idleControl) : Attempt.Sends b.resetFifos e D := by
  refine Attempt.Sends.step Bus.passive_fifosIdle.silent (watches_fifosIdle e) ?_
  split
  · exact .of_silent (.pure _)
  · refine Attempt.Sends.step .control run_control ?_
    rw [hc]
    refine .of_silent (.bind_attempt (.attempt (.setControl (by decide))) fun _ => ?_)
    refine .bind_attempt (.attempt (Bus.passive_await Bus.passive_fifosIdle b).silent)
      fun r => ?_
    cases r with
    | some _ => exact .pure _
    | none =>
      exact .bind_attempt (.attempt .status) fun _ =>
        .bind_attempt (.attempt (.log _)) fun _ => .pure _

/-- **A transaction delivers its command** to the active slave, or nothing. -/
theorem Settled.sends_transaction (h : e.Settled) (hb : b.fifoDepth = e.config.fifoDepth)
    (hi : b.slave.toNat = i.val) (hne : command ≠ []) (hfit : command.length ≤ b.fifoDepth)
    (hD : D ⟨i, e.chip i, command⟩) (wanted : Bool) : (b.transaction command wanted).Sends e D := by
  rw [Bus.transaction, if_neg (Nat.not_lt.mpr hfit)]
  refine Proc.Sends.bind (sends_resetFifos h.control) (h.ends_resetFifos b) ?_
  rintro (error | _) t ht
  · exact .pure
  · obtain ⟨hfree, rfl⟩ := ht
    dsimp only
    rw [if_pos (hi ▸ i.isLt)]
    have hselect : (Bus.activate (some b.slave)).run block e.emptied =
        (some (), { e.emptied with slaveSelect := Bus.selectWord b.slave }) := by
      rw [Bus.activate_some, if_pos (hi ▸ i.isLt), run_store]
      rfl
    have hpoised : Poised { e.emptied with slaveSelect := Bus.selectWord b.slave } i command := by
      refine ⟨h.control, rfl, ?_, selected?_eq hi rfl, hne, hb ▸ hfit, h.shows⟩
      change e.emptied.rx.toList = []
      rw [rx_emptied hfree]
      rfl
    refine Proc.Sends.step (Bus.silent_activate _) hselect ?_
    refine Proc.Sends.bind_silent (hpoised.sends_transfer hb hD wanted) fun _ => ?_
    exact .bind (Bus.silent_activate _) fun _ => .pure _

end Emulator

/-! ## Sound commands -/

/-- The chip takes the command, and if it has an address, that lies in `S`. -/
structure Delivery.Sound (S : Fin maxSlaves → Nat → Prop) (d : Delivery) : Prop where
  lawful : d.Lawful
  inside : ∀ b, d.address? = some b → S d.slave b

namespace Delivery

variable {chip : Chip}

/-- A command without an address. -/
theorem sound_of_plain {opcode : UInt8} {operands : Bytes} (hplain : opcode ∉ addressedOpcodes)
    (hidle : opcode ≠ Opcode.readStatus → chip.busy = 0)
    (hlatch : opcode ∈ latchedOpcodes → chip.writeEnabled = true) :
    Sound S ⟨i, chip, opcode :: operands⟩ := by
  refine ⟨⟨hidle, hlatch⟩, fun b hb => ?_⟩
  simp only [address?] at hb
  split at hb
  · rename_i hcommand
    cases hcommand
    rw [if_neg hplain] at hb
    cases hb
  · cases hb

/-- A command with an address, to a chip that is not busy. -/
theorem sound_of_addressed {opcode high middle low : UInt8} {data : Bytes}
    (hidle : chip.busy = 0) (hlatch : opcode ∈ latchedOpcodes → chip.writeEnabled = true)
    (hS : S i (chip.address high middle low)) :
    Sound S ⟨i, chip, opcode :: high :: middle :: low :: data⟩ := by
  refine ⟨⟨fun _ => hidle, hlatch⟩, fun b hb => ?_⟩
  simp only [address?] at hb
  split at hb
  · cases hb
    exact hS
  · cases hb

theorem Sound.mono {S' : Fin maxSlaves → Nat → Prop} {d : Delivery} (h : d.Sound S)
    (hS : ∀ b, S d.slave b → S' d.slave b) : d.Sound S' :=
  ⟨h.lawful, fun b hb => hS b (h.inside b hb)⟩

/-- `D` allows every command without an address that the chip takes, and with this
opcode one at a place of a chip. -/
structure Allows (D : Delivery → Prop) (opcode : UInt8) (i : Fin maxSlaves) (a : Nat) : Prop where
  plain : ∀ d : Delivery, d.Sound (fun _ _ => False) → D d
  headed : ∀ {chip : Chip} {high middle low : UInt8} {data : Bytes}, chip.busy = 0 →
    (opcode ∈ latchedOpcodes → chip.writeEnabled = true) → chip.address high middle low = a →
    D ⟨i, chip, opcode :: high :: middle :: low :: data⟩

theorem Allows.sound {opcode : UInt8} (hS : S i a) : Allows (Sound S) opcode i a where
  plain _ h := h.mono fun _ => False.elim
  headed hidle hlatch ha := sound_of_addressed hidle hlatch (ha.symm ▸ hS)

end Delivery

open Delivery (Sound Allows sound_of_plain sound_of_addressed)

/-! ## Waiting -/

namespace Emulator

theorem Settled.sends_send (h : e.Settled) (hb : b.fifoDepth = e.config.fifoDepth)
    (hi : b.slave.toNat = i.val) (hne : command ≠ []) (hfit : command.length ≤ b.fifoDepth)
    (hD : D ⟨i, e.chip i, command⟩) : Attempt.Sends (b.send command) e D :=
  Proc.Sends.bind_silent (h.sends_transaction hb hi hne hfit hD false) fun _ => .pure _

theorem Settled.sends_exchange (h : e.Settled) (hb : b.fifoDepth = e.config.fifoDepth)
    (hi : b.slave.toNat = i.val) (hne : command ≠ []) (hfit : command.length ≤ b.fifoDepth)
    (hD : D ⟨i, e.chip i, command⟩) : Attempt.Sends (b.exchange command) e D := by
  refine Attempt.Sends.bind_silent (.lift (h.sends_transaction hb hi hne hfit hD true)) ?_
  intro arrival
  split
  · exact .pure _
  · exact .pure _

section Waiting

variable (hb : b.fifoDepth = e.config.fifoDepth) (hi : b.slave.toNat = i.val)
  (hroom : Opcode.headerLen < b.fifoDepth)

include hb hi hroom

theorem Settled.sends_isReady (h : e.Settled) : b.isReady.Sends e (Sound S) := by
  refine Proc.Sends.bind_silent (h.sends_exchange hb hi (by simp) ?_
    (sound_of_plain (by decide) (absurd rfl) fun h => absurd h (by decide))) fun r => ?_
  · exact Nat.le_trans (by decide) (Nat.le_of_lt hroom)
  · cases r with
    | ok _ => exact .pure _
    | error _ => exact .bind (.log _) fun _ => .pure _

/-- A check that answers that the chip is ready has found it so. -/
theorem Settled.ends_isReady (h : e.Settled) :
    b.isReady.Ends block e fun ready t => t.Settled ∧ t.config = e.config ∧
      (ready = true → (t.chip i).busy = 0) := by
  refine Proc.Ends.bind (h.ends_exchange hb hi (by simp) ?_) ?_
  · exact Nat.le_trans (by decide) (Nat.le_of_lt hroom)
  rintro (error | response) t ht
  · obtain ⟨bytes, hr⟩ := ht
    exact Proc.Ends.step run_log (Proc.Ends.pure ⟨hr.settled, hr.config, nofun⟩)
  · obtain ⟨ha, rfl⟩ := ht
    obtain ⟨hchip, hbit, -⟩ := Chip.react_readStatus e.config (e.chip i)
    refine Proc.Ends.pure ⟨ha.settled, ha.config, fun hyes => ?_⟩
    have hzero := hbit.mp (beq_iff_eq.mp hyes)
    rw [chip_of_chipsWith ha.chips, if_pos rfl, hchip, hzero]
    rfl

/-- Polling delivers status reads only, and a poll that succeeds leaves the chip
ready. -/
theorem Settled.poll_isReady (h : e.Settled) (us : UInt32) (spent left : Nat) :
    (PollBudget.poll b.isReady (Proc.pause us) PollBudget.unlimited spent left).Sends e (Sound S) ∧
      (PollBudget.poll b.isReady (Proc.pause us) PollBudget.unlimited spent left).Ends block e
        fun r t => t.Settled ∧ t.config = e.config ∧ (r ≠ none → (t.chip i).busy = 0) := by
  induction left generalizing spent e with
  | zero =>
    refine ⟨Proc.Sends.bind_silent (h.sends_isReady hb hi hroom) fun yes => ?_,
      Proc.Ends.bind (h.ends_isReady hb hi hroom) ?_⟩
    · cases yes <;> exact .pure _
    · rintro (_ | _) t ⟨ht, hconfig, hidle⟩
      · exact Proc.Ends.pure ⟨ht, hconfig, fun hn => absurd rfl hn⟩
      · exact Proc.Ends.pure ⟨ht, hconfig, fun _ => hidle rfl⟩
  | succ left ih =>
    have hagain : ∀ {t : Emulator}, t.Settled → t.config = e.config →
        (t.atTime (t.stats.delayedUs + us.toNat)).Settled ∧
          b.fifoDepth = (t.atTime (t.stats.delayedUs + us.toNat)).config.fifoDepth :=
      fun ht hconfig => ⟨⟨ht.control, ht.depth_pos, ht.quiet, ht.stuck, ht.shows⟩,
        hb.trans (congrArg EmulatorConfig.fifoDepth hconfig).symm⟩
    constructor
    · refine Proc.Sends.bind (h.sends_isReady hb hi hroom) (h.ends_isReady hb hi hroom) ?_
      rintro (_ | _) t ⟨ht, hconfig, hidle⟩
      · obtain ⟨hs, hdepth⟩ := hagain ht hconfig
        exact Proc.Sends.step (.pause _) run_pause (ih hdepth hs (spent + 1)).1
      · exact .pure
    · refine Proc.Ends.bind (h.ends_isReady hb hi hroom) ?_
      rintro (_ | _) t ⟨ht, hconfig, hidle⟩
      · obtain ⟨hs, hdepth⟩ := hagain ht hconfig
        apply Proc.Ends.step run_pause
        refine (ih hdepth hs (spent + 1)).2.mono fun r u hu => ?_
        exact ⟨hu.1, hu.2.1.trans hconfig, hu.2.2⟩
      · exact Proc.Ends.pure ⟨ht, hconfig, fun _ => hidle rfl⟩

theorem Settled.sends_waitUntilReady (h : e.Settled) :
    Attempt.Sends b.waitUntilReady e (Sound S) := by
  rw [Bus.waitUntilReady, Bus.await_eq]
  refine Attempt.Sends.bind_silent (.lift (h.poll_isReady hb hi hroom _ 0 _).1) fun r => ?_
  cases r with
  | some _ => exact .pure _
  | none => exact .bind_attempt (.attempt (.log _)) fun _ => .pure _

/-- A wait that goes well leaves the chip ready, whatever chip it is. -/
theorem Settled.ends_waitUntilReady_idle (h : e.Settled) :
    Attempt.Ends block b.waitUntilReady e
      (fun _ t => t.Settled ∧ t.config = e.config ∧ (t.chip i).busy = 0) (fun _ _ => True) := by
  rw [Bus.waitUntilReady, Bus.await_eq]
  refine Attempt.Ends.bind_lift (h.poll_isReady (S := fun _ _ => True) hb hi hroom _ 0 _).2 ?_
  rintro (_ | _) t ⟨ht, hconfig, hidle⟩
  · exact Attempt.Ends.step run_log (Attempt.Ends.throw trivial)
  · exact Attempt.Ends.pure ⟨ht, hconfig, hidle (Option.some_ne_none _)⟩

/-- An ID read delivers itself, to a chip that is ready. -/
theorem Settled.sends_identify (h : e.Settled) (hidle : (e.chip i).busy = 0) :
    Attempt.Sends b.identify e (Sound S) := by
  refine Attempt.Sends.bind_silent (h.sends_exchange hb hi (by simp) hroom
    (sound_of_plain (by decide) (fun _ => hidle) fun h => absurd h (by decide))) fun id => ?_
  dsimp only
  split
  · exact .bind_attempt (.attempt (.log _)) fun _ => .pure _
  · split
    · exact .bind_attempt (.attempt (.log _)) fun _ => .pure _
    · exact .bind_attempt (.attempt (.log _)) fun _ => .pure _

end Waiting

end Emulator

namespace Attached

theorem room (h : Attached c e) : Opcode.headerLen < c.bus.fifoDepth := by
  have := h.overhead_lt
  rw [h.depth]
  omega

theorem sends_wait (h : Attached c e) (hi : c.bus.slave.toNat = i.val) :
    Drive.Sends Controller.waitUntilReady c e (Sound S) :=
  Drive.Sends.bind_get (.attempt (h.settled.sends_waitUntilReady h.depth hi h.room))

end Attached

/-! ## The commands ahead of an address -/

namespace Controller

theorem silent_setActiveSlave (slave : UInt8) (c : Controller) :
    ((setActiveSlave slave).run c).Silent := by
  rw [setActiveSlave]
  split
  · refine .bind_drive (fun _ => .pure _) (fun c _ => ?_) c
    split
    · exact .pure _
    · exact .bind_drive (.drive (.log _)) (fun _ _ => .pure _) _
  · exact .pure _

end Controller

namespace Ready

theorem sends_enableWrite (h : Ready c e i) : Drive.Sends Controller.enableWrite c e (Sound S) :=
  Drive.Sends.bind_get (.attempt (h.attached.settled.sends_send h.attached.depth h.slave (by simp)
    (h.attached.fits (by decide)) (sound_of_plain (by decide) (fun _ => h.idle)
      fun h => absurd h (by decide))))

theorem sends_selectSector (h : Ready c e i) (sector : UInt8) :
    Drive.Sends (Controller.selectSector sector) c e (Sound S) := by
  refine Drive.Sends.bind_get ?_
  split
  · exact .pure
  refine Drive.Sends.bind h.sends_enableWrite h.ends_enableWrite ?_
  rintro _ _ m ⟨rfl, hran, hchips⟩
  have hlatch : (m.chip i).writeEnabled = true := by
    rw [Emulator.chip_of_chipsWith hchips, if_pos rfl]
  have ha := hran.kept.attached
  refine Drive.Sends.bind_get (Drive.Sends.bind_silent (.attempt (ha.settled.sends_send ha.depth
    hran.slave (by simp) (ha.fits (by simp [Opcode.headerLen])) ?_)) fun _ c' => ?_)
  · exact sound_of_plain (by decide) (fun _ => hran.idle) fun _ => hlatch
  · exact .bind_drive (.drive (.log _)) (fun _ _ => .pure _) c'

/-- The header itself is put together without a command. -/
theorem sends_buildHeader (h : Ready c e i) (hp : Locates p i a) (opcode : UInt8) :
    Drive.Sends (Controller.buildHeader opcode (Address.ofOffset p)) c e (Sound S) := by
  refine Drive.Sends.bind (.of_silent (Controller.silent_setActiveSlave _ c))
    (h.ends_setActiveSlave hp) ?_
  rintro _ _ _ ⟨rfl, rfl⟩
  refine Drive.Sends.bind_silent (h.sends_selectSector _) fun _ c' => ?_
  refine .bind_drive (fun _ => .pure _) (fun c _ => ?_) c'
  exact .bind_drive (.drive (.checked _)) (fun _ _ => .pure _) _

end Ready

theorem Attached.sends_runScratch (h : Attached c e) (hi : c.bus.slave.toNat = i.val)
    {rest : Bytes} (hscratch : c.scratch = command ++ rest) (hne : command ≠ [])
    (hD : D ⟨i, e.chip i, command⟩) (wanted : Bool) :
    Drive.Sends (Controller.runScratch command.length wanted) c e D := by
  have hlen : command.length + rest.length = e.config.fifoDepth := by
    rw [← h.scratch, hscratch, List.length_append]
  refine Drive.Sends.bind_get (Drive.Sends.step (.checked _)
    (Proc.run_split (by rw [hscratch, List.length_append]; omega)) ?_)
  rw [hscratch]
  simp only [List.take_left, List.drop_left]
  refine Drive.Sends.bind_silent (.lift (h.settled.sends_transaction h.depth hi hne
    (by rw [h.depth]; omega) hD wanted)) fun arrival c' => ?_
  refine .bind_drive (fun _ => .pure _) (fun _ c => ?_) c'
  split
  · exact .pure _
  · exact .pure _

/-- A command from the scratch buffer whose header is there. -/
theorem Ready.sends_headed (h : Ready c e i) (hp : Locates p i a) {opcode : UInt8}
    (hh : Headed opcode p i c e) (hD : Allows D opcode i a)
    (hlatch : opcode ∈ Delivery.latchedOpcodes → (e.chip i).writeEnabled = true)
    {data rest : Bytes} (hscratch : c.scratch = opcode :: (Address.ofOffset p).high ::
      (Address.ofOffset p).middle :: (Address.ofOffset p).low :: data ++ rest) (wanted : Bool) :
    Drive.Sends (Controller.runScratch (Opcode.headerLen + data.length) wanted) c e D := by
  have hlen : Opcode.headerLen + data.length = (opcode :: (Address.ofOffset p).high ::
      (Address.ofOffset p).middle :: (Address.ofOffset p).low :: data).length := by
    simp [Opcode.headerLen]
    omega
  rw [hlen]
  exact h.attached.sends_runScratch h.slave hscratch (by simp)
    (hD.headed h.idle hlatch (hh.address hp)) wanted

/-! ## Commands with an address -/

/-- An erase on a slave that does not exist delivers nothing. -/
theorem Attached.sends_eraseUnit_beyond (h : Attached c e) (unit : EraseUnit)
    (hslave : ¬ (Address.ofOffset p).slave.toNat < maxSlaves) :
    Drive.Sends (Controller.eraseUnit p unit) c e D := by
  rw [Controller.eraseUnit]
  split
  · refine Drive.Sends.bind (.of_silent (Controller.silent_setActiveSlave _ c))
      (h.ends_setActiveSlave _) ?_
    rintro _ _ _ ⟨-, -, -, hlt⟩
    exact absurd hlt hslave
  · exact Drive.Sends.step (.log _) Emulator.run_log .throw

/-- An erase delivers an erase command at its place, between waits. -/
theorem Attached.sends_eraseUnit (h : Attached c e) (hp : Locates p i a) (unit : EraseUnit)
    (hfit : a + unit.bytes ≤ e.config.capacity) (hS : S i a) :
    Drive.Sends (Controller.eraseUnit p unit) c e (Sound S) := by
  rw [Controller.eraseUnit]
  by_cases halign : a % unit.bytes = 0
  case neg =>
    rw [if_neg (mt (hp.isAligned_iff unit).mp halign)]
    exact Drive.Sends.step (.log _) Emulator.run_log .throw
  have hlt : a < e.config.capacity := by
    have := unit.bytes_pos
    omega
  rw [if_pos ((hp.isAligned_iff unit).mpr halign)]
  refine Drive.Sends.bind (.of_silent (Controller.silent_setActiveSlave _ c))
    (h.ends_setActiveSlave _) ?_
  rintro _ c₁ _ ⟨rfl, hk₁, hslave, -⟩
  have hi₁ : c₁.bus.slave.toNat = i.val := by rw [hslave, hp.slave]
  refine Drive.Sends.bind (hk₁.attached.sends_wait hi₁) (hk₁.attached.ends_wait hi₁) ?_
  rintro _ _ e₂ ⟨rfl, hw⟩
  have hran₂ := (hw.ran hi₁).of_kept hk₁
  refine Drive.Sends.bind (hran₂.ready.sends_buildHeader hp _)
    (hran₂.ready.ends_buildHeader hp (hran₂.kept.config ▸ hlt) _) ?_
  rintro _ c₃ e₃ ⟨hran₃, -, hheaded⟩
  replace hran₃ := hran₂.trans hran₃
  refine Drive.Sends.bind hran₃.ready.sends_enableWrite hran₃.ready.ends_enableWrite ?_
  rintro _ _ e₄ ⟨rfl, hran₄, hset₄⟩
  have hget₄ : (e₄.chip i) = { e₃.chip i with writeEnabled := true } := by
    rw [Emulator.chip_of_chipsWith hset₄, if_pos rfl]
  have hheaded₄ : Headed unit.opcode p i c₃ e₄ := by
    refine ⟨?_, hheaded.scratch⟩
    rw [hget₄]
    exact hheaded.sector
  replace hran₄ := hran₃.trans hran₄
  have hlatch₄ : (e₄.chip i).writeEnabled = true := by rw [hget₄]
  obtain ⟨rest, hscratch⟩ := hheaded₄.scratch
  have hsends : Drive.Sends (Controller.runScratch (Opcode.headerLen + ([] : Bytes).length) false)
      c₃ e₄ (Sound S) :=
    hran₄.ready.sends_headed hp hheaded₄ (.sound hS) (fun _ => hlatch₄) hscratch false
  refine Drive.Sends.bind hsends (hran₄.ready.ends_runErase hheaded₄ hp hlatch₄ halign
    (hran₄.kept.config ▸ hfit)) ?_
  rintro _ c₅ e₅ ⟨hk₅, -, hbus, -, -⟩
  have hi₅ : c₅.bus.slave.toNat = i.val := by rw [hbus, hran₄.slave]
  exact Drive.Sends.step (.log _) Emulator.run_log (hk₅.attached.sends_wait hi₅)

end NorFlash
