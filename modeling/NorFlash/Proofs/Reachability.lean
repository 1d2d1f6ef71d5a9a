import NorFlash.Proofs.Attaching
import NorFlash.Proofs.Sessions

/-!
# Reachability — the states of an attached flash

A flash and its emulator are reachable if calls and interference led there:
any calls of a user in any order, and between them contents that were set,
chips that were kept busy and faults that were armed. In every reachable state
the controller is attached, so no call fails a bounds check.
-/

namespace NorFlash

open Emulator (Spares Unarmed)

variable {c c' : Controller} {e m t : Emulator} {i : Fin maxSlaves} {f f' : Flash}
  {config : EmulatorConfig} {tuning : Tuning}

/-! ## Interference -/

namespace Emulator

/-- What may happen to an emulator between two calls. A fault that is armed
shows when it strikes. -/
inductive Handled : Emulator → Emulator → Prop where
  | load (e : Emulator) (slave : Nat) (offset : UInt64) (data : Bytes) :
    Handled e (e.load slave offset data).1
  | busy {e t : Emulator} {slave : Nat} {polls : UInt32} (h : e.setBusy? slave polls = some t) :
    Handled e t
  | arm (e : Emulator) {plan : ArmedFault} (h : plan.fault.Shows) : Handled e (e.arm plan)

/-- An emulator that no driver attached to yet. -/
inductive Prepared (config : EmulatorConfig) : Emulator → Prop where
  | fresh : Prepared config (.ofConfig config)
  | handled {e t : Emulator} (h : Prepared config e) (hh : Handled e t) : Prepared config t

theorem load_eq (e : Emulator) (slave : Nat) (offset : UInt64) (data : Bytes) :
    (e.load slave offset data).1 = e ∨
      ∃ i : Fin maxSlaves, ∃ contents, contents.capacity = (e.chip i).contents.capacity ∧
        (e.load slave offset data).1 =
          { e with chips := e.chipsWith i { e.chip i with contents } } := by
  rw [load]
  split
  · rename_i h
    exact .inr ⟨⟨slave, h⟩, _, PageStore.capacity_storeRange _ _ _, rfl⟩
  · exact .inl rfl

theorem setBusy?_eq {slave : Nat} {polls : UInt32} (h : e.setBusy? slave polls = some t) :
    ∃ i : Fin maxSlaves, t = { e with chips := e.chipsWith i { e.chip i with busy := polls } } := by
  rw [setBusy?, range?] at h
  split at h
  · rename_i hlt
    rw [if_pos (by decide)] at h
    cases h
    exact ⟨⟨slave, hlt⟩, rfl⟩
  · cases h

/-- Interference leaves everything but a fault plan and one chip as it is, and
of the chip the sector and the size. -/
theorem Handled.eq (h : Handled e t) :
    ∃ i : Fin maxSlaves, ∃ chip armed, chip.sector = (e.chip i).sector ∧
      chip.contents.capacity = (e.chip i).contents.capacity ∧
      (armed = e.armed ∨ ∃ plan, plan.fault.Shows ∧ armed = some plan) ∧
      t = { e with chips := e.chipsWith i chip, armed } := by
  have hsame : e = { e with chips := e.chipsWith firstChip (e.chip firstChip) } := by
    rw [chipsWith_chip]
  cases h with
  | load slave offset data =>
    rcases load_eq e slave offset data with heq | ⟨i, contents, hcapacity, heq⟩
    · exact ⟨firstChip, _, _, rfl, rfl, .inl rfl, heq.trans hsame⟩
    · exact ⟨i, { e.chip i with contents }, _, rfl, hcapacity, .inl rfl, heq⟩
  | @busy _ _ polls h =>
    obtain ⟨i, rfl⟩ := setBusy?_eq h
    exact ⟨i, { e.chip i with busy := polls }, _, rfl, rfl, .inl rfl, rfl⟩
  | @arm plan hshows =>
    refine ⟨firstChip, e.chip firstChip, some plan, rfl, rfl, .inr ⟨plan, hshows, rfl⟩, ?_⟩
    rw [chipsWith_chip]
    rfl

theorem Prepared.fresh_and_config (h : Prepared config e) : e.Fresh ∧ e.config = config := by
  induction h with
  | fresh =>
    refine ⟨⟨rfl, rfl, rfl, rfl, nofun, fun i => ?_⟩, rfl⟩
    simp only [ofConfig, chip, Fin.getElem_fin, Vector.getElem_replicate]
  | handled _ hh ih =>
    obtain ⟨hfresh, hconfig⟩ := ih
    obtain ⟨i, chip, armed, -, hcapacity, harmed, rfl⟩ := hh.eq
    refine ⟨⟨hfresh.tx, hfresh.rx, hfresh.errors, hfresh.rxStuck, ?_, fun j => ?_⟩, hconfig⟩
    · rcases harmed with rfl | ⟨plan, hshows, rfl⟩
      · exact hfresh.shows
      · intro _ h
        cases h
        exact hshows
    · rw [chip_of_chipsWith rfl]
      split
      · rw [hcapacity, hfresh.sizes]
      · exact hfresh.sizes j

/-! ### Chips that are not erased -/

/-- A new chip is erased. -/
theorem cell_ofConfig (config : EmulatorConfig) (i : Fin maxSlaves) (a : Nat) :
    (ofConfig config).cell i a = 0xff := by
  simp only [cell, chip, ofConfig, Fin.getElem_fin, Vector.getElem_replicate, PageStore.read,
    Std.HashMap.getElem?_empty]

/-- A new emulator with data on its first chip. -/
def loaded (config : EmulatorConfig) (a : UInt64) (data : Bytes) : Emulator :=
  ((ofConfig config).load firstChip a data).1

theorem prepared_loaded (config : EmulatorConfig) (a : UInt64) (data : Bytes) :
    Prepared config (loaded config a data) :=
  .handled .fresh (.load _ _ _ _)

/-- Around the data the chip is erased. -/
theorem cell_loaded {a : UInt64} {data : Bytes} {b : Nat}
    (hfit : a.toNat + data.length ≤ config.capacity) (hword : a.toNat + data.length ≤ wordLimit)
    (hb : b < config.capacity) : (loaded config a data).cell firstChip b =
      if h : a.toNat ≤ b ∧ b < a.toNat + data.length then data[b - a.toNat] else 0xff := by
  rw [loaded, load, dif_pos firstChip.isLt, List.take_of_length_le (by omega), cell,
    chip_of_chipsWith rfl, if_pos rfl]
  exact (PageStore.read_storeRange _ hfit hb).trans
    (dite_congr rfl (fun _ => rfl) fun _ => cell_ofConfig config firstChip b)

end Emulator

/-- Interference leaves a controller attached. -/
theorem Emulator.Handled.attached (h : Emulator.Handled e t) (ha : Attached c e) :
    Attached c t ∧ t.config = e.config := by
  obtain ⟨i, chip, armed, hsector, hcapacity, harmed, rfl⟩ := h.eq
  have hs := ha.settled
  refine ⟨⟨⟨hs.control, hs.depth_pos, hs.quiet, hs.stuck, ?_⟩, ha.depth, ha.depth_le,
    ha.overhead_lt, ha.scratch, ha.budget, ha.slave_lt, ha.vendor, ha.capacity, fun j => ?_,
    fun hne j hj => ?_⟩, rfl⟩
  · rcases harmed with rfl | ⟨plan, hshows, rfl⟩
    · exact hs.shows
    · intro _ h
      cases h
      exact hshows
  · rw [Emulator.chip_of_chipsWith rfl]
    split
    · rw [hcapacity, ha.sizes]
    · exact ha.sizes j
  · rw [Emulator.chip_of_chipsWith rfl]
    split
    · rename_i hij
      rw [hsector, hij]
      exact ha.cache hne j hj
    · exact ha.cache hne j hj

/-! ## Calls -/

/-- A call that a user makes. A session may have moved anywhere since its last
call. -/
inductive FlashCall where
  | read (offset : UInt64) (len : Nat)
  | readAt (offset : UInt64) (len : Nat)
  | write (offset : UInt64) (data : Bytes)
  | erase (offset : UInt64) (size : Nat)
  | openSession
  | closeSession
  | sessionRead (s : Session) (len : Nat)
  | sessionWrite (s : Session) (data : Bytes)

namespace FlashCall

/-- Make the call. -/
def perform : FlashCall → FlashProc Unit
  | read offset len => do let _ ← Flash.read offset len
  | readAt offset len => do let _ ← Flash.readAt offset len
  | write offset data => do let _ ← Flash.write offset data
  | erase offset size => do let _ ← Flash.erase offset size
  | openSession => do let _ ← Session.openOn
  | closeSession => Session.close
  | sessionRead s len => do let _ ← Session.read len s
  | sessionWrite s data => do let _ ← Session.write data s

/-- **Every call comes to an end** without a failed bounds check, and leaves the
controller attached. -/
theorem ends_perform (h : Attached f.controller e) (call : FlashCall) :
    (call.perform f).Ends Emulator.block e fun r t => Kept f.controller e r.2.controller t := by
  -- every call drops its answer
  have hdrop : ∀ {α : Type} {x : FlashProc α}, ((x f).Ends Emulator.block e fun r t =>
      Kept f.controller e r.2.controller t) → ((x >>= fun _ => pure ()) f).Ends Emulator.block e
        fun r t => Kept f.controller e r.2.controller t :=
    fun hx => Proc.Ends.bind_state hx fun _ _ _ hk => Proc.Ends.pure hk
  cases call with
  | read offset len => exact hdrop ((h.ends_read offset len).mono fun _ _ hr => hr.kept)
  | readAt offset len =>
    refine hdrop ((h.ends_readAt offset len).mono ?_)
    intro _ _ hpost
    rcases hpost with ⟨-, rfl, rfl⟩ | ⟨-, hr⟩
    · exact h.kept
    · exact hr.kept
  | write offset data => exact hdrop ((h.ends_write offset data).mono fun _ _ hw => hw.2.kept)
  | erase offset size => exact hdrop ((h.ends_erase offset size).mono fun _ _ he => he.2.1)
  | openSession =>
    refine hdrop (Proc.Ends.bind_get_state ?_)
    split
    · exact Proc.Ends.pure h.kept
    · exact Proc.Ends.pure h.kept
  | closeSession => exact Proc.Ends.pure h.kept
  | sessionRead s len =>
    exact hdrop ((h.ends_sessionRead s len).mono fun _ _ hr => hr.1.kept)
  | sessionWrite s data =>
    refine hdrop ((h.ends_sessionWrite s data).mono ?_)
    intro _ _ hpost
    obtain ⟨-, w, hw, -⟩ := hpost
    exact hw.kept

end FlashCall

/-! ## Reachable states -/

/-- A flash on an emulator that calls and interference lead to, from an attach
to a prepared emulator on. -/
inductive Reachable (config : EmulatorConfig) (tuning : Tuning) : Flash → Emulator → Prop where
  | attach {f : Flash} {e t : Emulator} (h : Emulator.Prepared config e)
    (hrun : (Flash.attach tuning).run.run Emulator.block e = (some (.ok f), t)) :
    Reachable config tuning f t
  | handled {f : Flash} {e t : Emulator} (h : Reachable config tuning f e)
    (hh : Emulator.Handled e t) : Reachable config tuning f t
  | called {f f' : Flash} {e t : Emulator} (h : Reachable config tuning f e) (call : FlashCall)
    (hrun : (call.perform f).run Emulator.block e = (some ((), f'), t)) :
    Reachable config tuning f' t

/-- Attaching a flash to a prepared emulator. -/
theorem Emulator.Prepared.ends_attach (h : Emulator.Prepared config e) (tuning : Tuning)
    (hcount : Opcode.headerLen + tuning.readDummyLen < wordLimit) :
    Attempt.Ends Emulator.block (Flash.attach tuning) e
      (fun f t => Engaged tuning e f.controller t) (fun _ _ => ¬ Attachable tuning e) :=
  Attempt.Ends.bind (h.fresh_and_config.1.ends_attach tuning hcount) (fun _ _ hn => hn)
    fun _ _ hengaged => Attempt.Ends.pure hengaged

/-- **In every reachable state the controller is attached.** -/
theorem Reachable.invariant (h : Reachable config tuning f e)
    (hcount : Opcode.headerLen + tuning.readDummyLen < wordLimit) :
    Attached f.controller e ∧ f.controller.tuning = tuning ∧ e.config = config := by
  induction h with
  | attach h hrun =>
    have hengaged := Proc.Ends.of_run (h.ends_attach tuning hcount) hrun
    exact ⟨hengaged.ready.attached, hengaged.tuning,
      hengaged.config.trans h.fresh_and_config.2⟩
  | handled _ hh ih =>
    obtain ⟨hattached, htuning, hconfig⟩ := ih
    obtain ⟨hattached', hconfig'⟩ := hh.attached hattached
    exact ⟨hattached', htuning, hconfig'.trans hconfig⟩
  | called _ call hrun ih =>
    obtain ⟨hattached, htuning, hconfig⟩ := ih
    have hkept := Proc.Ends.of_run (call.ends_perform hattached) hrun
    exact ⟨hkept.attached, hkept.tuning.trans htuning, hkept.config.trans hconfig⟩

/-- A driver that can attach to a prepared emulator reaches a state. -/
theorem Emulator.Prepared.exists_reachable (h : Emulator.Prepared config e)
    (ha : Attachable tuning e) :
    ∃ f t, Reachable config tuning f t ∧ Engaged tuning e f.controller t := by
  have hcount : Opcode.headerLen + tuning.readDummyLen < wordLimit := by
    have h1 := ha.overhead_lt
    have h2 := ha.depth_le
    simp only [Bus.probeLimit, wordLimit] at *
    omega
  obtain ⟨r, t, hrun, hr⟩ := h.ends_attach tuning hcount
  cases r with
  | error error => exact absurd ha hr
  | ok f => exact ⟨f, t, .attach h hrun, hr⟩

end NorFlash
