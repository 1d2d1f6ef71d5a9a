import NorFlash.Proofs.Discipline
import NorFlash.Session

/-!
# Orderly — operations that keep to the discipline of the bus

Whatever a block answers, a transaction selects one slave, runs one burst and
deselects it. Everything else works by transactions, so every operation of a
controller, a flash or a session leaves the bus as idle as it found it.
-/

namespace NorFlash

variable {α : Type} {past : List Deed} {slave : UInt8} {probing : Bool}

/-! ## Transactions -/

namespace Bus

variable {P : List Deed → Prop}

theorem keeps_resetFifos (b : Bus) : b.resetFifos.run.Keeps (Idle slave probing) := by
  refine .bind_attempt (.lift (.passive Idle.lasting passive_fifosIdle)) fun idle => ?_
  split
  · exact .pure _
  · refine .bind_attempt (.lift (.passive Idle.lasting .control)) fun control => ?_
    refine .bind_attempt (.lift (.store (by decide) (by decide) _)) fun _ => ?_
    refine .bind_attempt (.lift (.passive Idle.lasting (passive_await passive_fifosIdle b)))
      fun waited => ?_
    cases waited with
    | some _ => exact .pure _
    | none =>
      exact .bind_attempt (.lift (.passive Idle.lasting .status)) fun _ =>
        .bind_attempt (.lift (.passive Idle.lasting (.log rfl))) fun _ => .pure _

/-- Pushing bytes while transfers are inhibited. -/
theorem leads_push (bytes : Bytes) (h : Addressing slave probing Loading past)
    (hinhibited : Inhibited past) :
    (push bytes).Leads Permitted past fun _ => Addressing slave probing Loading := by
  induction bytes generalizing past with
  | nil => exact h
  | cons byte rest ih =>
    exact ⟨⟨hinhibited, .inr h.isSelected⟩, ih (h.write (by decide) h.segment.cons_tx) hinhibited⟩

/-- **A burst is loaded, run and inhibited again**, whatever comes of it. -/
theorem leads_transmit (b : Bus) {bytes : Bytes} (h : Addressing slave probing Loading past)
    (hfit : bytes.length ≤ b.fifoDepth) :
    (b.transmit bytes).run.Leads Permitted past fun _ => Addressing slave probing RanOnce := by
  refine Attempt.Leads.iff_run.mp ?_
  rw [transmit, if_neg (Nat.not_lt.mpr hfit)]
  refine .bind_lift (Proc.Passive.control.leads (Addressing.lasting Loading.lasting) h)
    fun control past h => ?_
  have hword := inhibits_or control
  refine .bind_lift (M := fun _ past => Addressing slave probing Loading past ∧ Inhibited past)
    ⟨trivial, h.write (by decide) (h.segment.cons_control hword), _, rfl, hword⟩
    fun _ past h => ?_
  refine .bind_lift (leads_push bytes h.1 h.2) fun _ past h => ?_
  refine .bind_lift (M := fun _ => Addressing slave probing Bursting)
    ⟨trivial, h.write (by decide) ⟨_, h.segment.starts (not_inhibits_and_not control)⟩⟩
    fun _ past h => ?_
  refine .bind_lift ((passive_await passive_txSettled b).leads
    (Addressing.lasting Bursting.lasting) h) fun settled past h => ?_
  refine .bind_lift (M := fun _ => Addressing slave probing RanOnce)
    ⟨trivial, h.write (by decide) (h.segment.ranOnce hword)⟩ fun _ past h => ?_
  exact Attempt.Leads.iff_run.mpr (passive_settle.leads (Addressing.lasting RanOnce.lasting) h)

theorem leads_transfer (b : Bus) {command : Bytes} (wanted : Bool)
    (h : Addressing slave probing Loading past) (hfit : command.length ≤ b.fifoDepth) :
    (b.transfer command wanted).Leads Permitted past fun _ =>
      Addressing slave probing RanOnce := by
  have hlasting : Lasting (Addressing slave probing RanOnce) := Addressing.lasting RanOnce.lasting
  refine Proc.Leads.bind (b.leads_transmit h hfit) fun r past h => ?_
  rcases r with error | _
  · exact h
  · refine Proc.Passive.leads ?_ hlasting h
    cases wanted with
    | true =>
      rw [if_pos rfl, receive_self]
      exact passive_pull _ _ []
    | false =>
      refine .bind (.bind (passive_pull _ _ []) fun _ => .pure _) fun r => ?_
      cases r with
      | error _ => exact .bind (.log rfl) fun _ => .pure _
      | ok _ => exact .pure _

/-- **A transaction selects the active slave, runs one burst and deselects it**,
or selects none. -/
theorem keeps_transaction (b : Bus) (command : Bytes) (wanted : Bool) :
    (b.transaction command wanted).Keeps (Idle b.slave probing) := by
  rw [transaction]
  by_cases hfit : b.fifoDepth < command.length
  · rw [if_pos hfit]
    exact .pure _
  rw [if_neg hfit]
  refine .bind b.keeps_resetFifos fun r => ?_
  rcases r with error | _
  · exact .pure _
  dsimp only
  split
  · rename_i hlt
    intro past h
    have hselect := h.select hlt
    refine Proc.Leads.bind (M := fun _ => Addressing b.slave probing Loading) ?_
      fun _ past h => ?_
    · rw [activate_some, if_pos hlt]
      exact hselect
    refine Proc.Leads.bind (b.leads_transfer wanted h (Nat.not_lt.mp hfit)) fun _ past h => ?_
    exact Proc.Leads.bind (M := fun _ => Idle b.slave probing) h.deselect fun _ _ h => h
  · exact .pure _

/-! ## Plain commands -/

theorem keeps_send (b : Bus) (command : Bytes) :
    (b.send command).run.Keeps (Idle b.slave probing) :=
  .bind (b.keeps_transaction command false) fun _ => .pure _

theorem keeps_exchange (b : Bus) (command : Bytes) :
    (b.exchange command).run.Keeps (Idle b.slave probing) := by
  refine .bind_attempt (.lift (b.keeps_transaction command true)) fun arrival => ?_
  cases arrival.outcome <;> exact .pure _

theorem keeps_isReady (b : Bus) : b.isReady.Keeps (Idle b.slave probing) := by
  refine .bind (b.keeps_exchange _) fun r => ?_
  cases r with
  | ok response => exact .pure _
  | error e => exact .bind (.passive Idle.lasting (.log rfl)) fun _ => .pure _

theorem keeps_waitUntilReady (b : Bus) : b.waitUntilReady.run.Keeps (Idle b.slave probing) := by
  rw [waitUntilReady, await_eq]
  refine .bind_attempt (.lift (.poll Idle.lasting b.keeps_isReady _ _ _)) fun waited => ?_
  cases waited with
  | some _ => exact .pure _
  | none => exact .bind_attempt (.lift (.passive Idle.lasting (.log rfl))) fun _ => .pure _

theorem keeps_identify (b : Bus) : b.identify.run.Keeps (Idle b.slave probing) := by
  refine .bind_attempt (b.keeps_exchange _) fun id => ?_
  dsimp only
  split
  · exact .bind_attempt (.lift (.passive Idle.lasting (.log rfl))) fun _ => .pure _
  · split
    · exact .bind_attempt (.lift (.passive Idle.lasting (.log rfl))) fun _ => .pure _
    · exact .bind_attempt (.lift (.passive Idle.lasting (.log rfl))) fun _ => .pure _

/-! ## FIFO depth -/

/-- Filling the FIFO while transfers are inhibited. -/
theorem leads_fill (filler : UInt8) {left pushed : Nat} (hlimit : pushed + left < wordLimit)
    (h : Idle slave true past) (hinhibited : Inhibited past) :
    (fill filler left pushed).Leads Permitted past fun _ => Idle slave true := by
  have hlasting := Idle.lasting.and Inhibited.lasting (I := Idle slave true)
  induction left generalizing pushed past with
  | zero =>
    exact Proc.Leads.bind (passive_txFull.leads hlasting ⟨h, hinhibited⟩) fun _ _ h => h.1
  | succ left ih =>
    rw [fill_succ filler hlimit]
    refine Proc.Leads.bind (passive_txFull.leads hlasting ⟨h, hinhibited⟩) fun full past h => ?_
    obtain ⟨h, hinhibited⟩ := h
    cases full with
    | true => exact h
    | false =>
      exact ⟨⟨hinhibited, .inl h.measuring⟩,
        ih (by omega) (h.write (by decide) _) hinhibited⟩

/-- Filling the FIFO and putting the control word back pushes bytes only while transfers
are inhibited. -/
theorem leads_measureDepth (filler : UInt8) (h : Idle slave true past) :
    Attempt.Leads (measureDepth filler) past (fun _ => Idle slave true) (Idle slave true) := by
  have hcontrol : ∀ word, (Proc.setControl word).Keeps (Idle slave true) :=
    .store (by decide) (by decide)
  refine .bind_lift (Proc.Passive.control.leads Idle.lasting h) fun control past h => ?_
  refine .bind_lift (M := fun _ past => Idle slave true past ∧ Inhibited past)
    ⟨trivial, h.write (by decide) _, _, rfl, inhibits_or control⟩ fun _ past h => ?_
  refine .bind_lift (leads_fill filler (by decide) h.1 h.2) fun measured past h => ?_
  cases measured with
  | none =>
    refine .bind_lift (Proc.Passive.leads (.log rfl) Idle.lasting h) fun _ past h => ?_
    exact .bind_lift (hcontrol control past h) fun _ past h => .throw h
  | some depth =>
    refine .bind_lift (Proc.Passive.status.leads Idle.lasting h) fun status past h => ?_
    split
    · refine .bind_lift (Proc.Passive.leads (.log rfl) Idle.lasting h) fun _ past h => ?_
      exact .bind_lift (hcontrol control past h) fun _ past h => .throw h
    · exact .bind_lift (hcontrol control past h) fun _ past h => .pure h

/-- **Measuring the FIFO depth** runs no burst and leaves the bus idle. -/
theorem leads_discoverFifoDepth (b : Bus) (filler : UInt8) (h : Idle slave true past) :
    Attempt.Leads (b.after (discoverFifoDepth filler)) past
      (fun b' past => b'.slave = b.slave ∧ Idle slave false past) (Idle slave true) := by
  rw [after_discoverFifoDepth]
  refine .bind (.of_keeps b.keeps_resetFifos h) (fun _ h => h) fun _ past h => ?_
  refine .bind (leads_measureDepth filler h) (fun _ h => h) fun depth past h => ?_
  refine .bind (.of_keeps b.keeps_resetFifos h) (fun _ h => h) fun _ past h => ?_
  split
  · exact .throw h
  · exact .bind_lift (M := fun _ => Idle slave false)
      ⟨trivial, h.deselected, h.active, rfl⟩ fun _ past h => .pure ⟨rfl, h⟩

end Bus

/-! ## Controllers -/

namespace Controller

/-- The bus is idle, and the controller knows which slave is active. -/
def Steady (c : Controller) (past : List Deed) : Prop :=
  Idle c.bus.slave false past

/-- **Attaching** leaves the bus idle, with a controller that knows it. -/
theorem leads_attach (tuning : Tuning) (h : Idle 0 true past) :
    Attempt.Leads (attach tuning) past Steady Deselected := by
  rw [attach]
  refine .join (M := Idle 0 true) (fun _ => h) (fun past h => ?_) fun _ hy => ?_
  · refine .bind_lift (M := fun _ => Idle 0 true)
      (Proc.Keeps.store (by decide) (by decide) _ past h)
      fun _ past h => ?_
    refine .bind (Bus.leads_discoverFifoDepth _ _ h) (fun _ h => h.deselected) fun bus past h => ?_
    obtain ⟨hslave, h⟩ := h
    change bus.slave = 0 at hslave
    rw [← hslave] at h
    refine .bind_lift (Proc.Keeps.count _ past h) fun overhead past h => ?_
    split
    · exact .bind_lift (Proc.Passive.leads (.log rfl) Idle.lasting h) fun _ past h =>
        .throw h.deselected
    · refine .bind (.of_keeps bus.keeps_waitUntilReady h) (fun _ h => h.deselected)
        fun _ past h => ?_
      refine .bind (.of_keeps bus.keeps_identify h) (fun _ h => h.deselected)
        fun found past h => ?_
      exact .bind_lift (Proc.Passive.leads (.log rfl) Idle.lasting h) fun _ past h => .pure h
  · refine .bind_lift (Proc.Passive.leads (.log rfl) Idle.lasting h) fun _ past h => ?_
    exact .bind_lift (M := fun _ => Idle 0 true)
      (Proc.Keeps.store (by decide) (by decide) _ past h) fun _ => hy

/-- From any past that the controller knows, the operation keeps to the rule and
leaves a controller that knows its past. -/
def Orderly (x : StateT Controller Proc α) (c : Controller) : Prop :=
  ∀ past, c.Steady past → (x c).Leads Permitted past fun r => r.2.Steady

theorem Orderly.pure {a : α} {c : Controller} : Orderly (Pure.pure a) c := fun _ h => h

theorem Orderly.bind {β : Type} {x : StateT Controller Proc α}
    {f : α → StateT Controller Proc β} {c : Controller} (hx : Orderly x c)
    (hf : ∀ a c', Orderly (f a) c') : Orderly (x >>= f) c :=
  fun past h => Proc.Leads.bind (hx past h) fun r past h => hf r.1 r.2 past h

theorem Orderly.bind_get {f : Controller → StateT Controller Proc α} {c : Controller}
    (hf : Orderly (f c) c) : Orderly (get >>= f) c :=
  hf

theorem Orderly.lift {p : Proc α} {c : Controller} (hp : p.Keeps (Idle c.bus.slave false)) :
    Orderly (liftM p) c := by
  exact fun past h => Proc.Leads.bind (M := fun _ => Idle c.bus.slave false) (hp past h)
    fun _ _ h => show Controller.Steady c _ from h

end Controller

/-- The same of an operation that may fail. -/
def Drive.Orderly (x : Drive α) (c : Controller) : Prop :=
  Controller.Orderly x.run c

namespace Drive.Orderly

variable {β : Type} {x : Drive α} {f : α → Drive β} {c : Controller}

theorem pure {a : α} : Drive.Orderly (Pure.pure a) c := fun _ h => h

theorem throw {error : Error} : Drive.Orderly (MonadExcept.throw error : Drive α) c :=
  fun _ h => h

theorem bind (hx : Drive.Orderly x c) (hf : ∀ a c', Drive.Orderly (f a) c') :
    Drive.Orderly (x >>= f) c :=
  Controller.Orderly.bind hx fun r c' => by
    cases r with
    | ok a => exact hf a c'
    | error error => exact .pure

theorem leads_lift {p : Proc α} (hp : p.Keeps (Idle c.bus.slave false)) (h : c.Steady past) :
    ((liftM p : Drive α).run c).Leads Permitted past fun r past =>
      ∃ a, r = (.ok a, c) ∧ c.Steady past :=
  Proc.Leads.bind (M := fun r past => r.2 = c ∧ c.Steady past)
    (Proc.Leads.bind (hp past h) fun _ _ h => ⟨rfl, h⟩) fun r _ h => by
      obtain ⟨a, _⟩ := r
      obtain ⟨rfl, h⟩ := h
      exact ⟨a, rfl, h⟩

/-- A step that does not use the controller. -/
theorem lift {p : Proc α} (hp : p.Keeps (Idle c.bus.slave false)) :
    Drive.Orderly (liftM p) c :=
  fun _ h => (leads_lift hp h).mono fun _ _ ⟨_, hr, h⟩ => hr ▸ h

theorem bind_lift {p : Proc α} (hp : p.Keeps (Idle c.bus.slave false))
    (hf : ∀ a, Drive.Orderly (f a) c) : Drive.Orderly (liftM p >>= f) c :=
  fun _ h => Proc.Leads.bind (leads_lift hp h) fun _ past ⟨a, hr, h⟩ => hr ▸ hf a past h

theorem attempt {y : Attempt α} (hy : y.run.Keeps (Idle c.bus.slave false)) :
    Drive.Orderly (liftM y) c :=
  fun past h => Proc.Leads.bind (hy past h) fun r past h => by cases r <;> exact h

theorem bind_get {f : Controller → Drive β} (hf : Drive.Orderly (f c) c) :
    Drive.Orderly (get >>= f) c :=
  hf

/-- A replacement that leaves the active slave. -/
theorem bind_set {c' : Controller} {f : PUnit → Drive β} (hslave : c'.bus.slave = c.bus.slave)
    (hf : Drive.Orderly (f ⟨⟩) c') : Drive.Orderly (set c' >>= f) c :=
  fun past h => hf past (by rw [Controller.Steady, hslave]; exact h)

/-- A change that leaves the active slave. -/
theorem modify {g : Controller → Controller} (hslave : (g c).bus.slave = c.bus.slave) :
    Drive.Orderly (modify g) c :=
  fun past h => show (g c).Steady past by rw [Controller.Steady, hslave]; exact h

theorem log {m : Message} (hm : m.isMilestone = false) : Drive.Orderly (liftM (Proc.log m)) c :=
  lift (.passive Idle.lasting (.log hm))

end Drive.Orderly

namespace Controller

/-- The same of an operation with a page buffer. -/
def Merge.Orderly (x : Merge α) (c : Controller) : Prop :=
  ∀ page, Controller.Orderly (x.run page) c

namespace Merge.Orderly

variable {β : Type} {x : Merge α} {f : α → Merge β} {c : Controller}

theorem pure {a : α} : Merge.Orderly (Pure.pure a) c := fun _ _ h => h

theorem throw {error : Error} : Merge.Orderly (MonadExcept.throw error : Merge α) c :=
  fun _ _ h => h

theorem bind (hx : Merge.Orderly x c) (hf : ∀ a c', Merge.Orderly (f a) c') :
    Merge.Orderly (x >>= f) c := by
  intro page past h
  refine Proc.Leads.bind (hx page past h) fun r past h => ?_
  obtain ⟨⟨r, page'⟩, c'⟩ := r
  cases r with
  | ok a => exact hf a c' page' past h
  | error error => exact h

theorem drive {y : Drive α} (hy : Drive.Orderly y c) : Merge.Orderly (liftM y) c := fun _ past h =>
  Proc.Leads.bind (hy past h) fun r past h => by
    obtain ⟨r, c'⟩ := r
    cases r <;> exact h

theorem state {y : StateT Controller Proc α} (hy : Controller.Orderly y c) :
    Merge.Orderly (liftM y) c := fun _ past h =>
  Proc.Leads.bind (M := fun r : (α × Bytes) × Controller => r.2.Steady)
    (Proc.Leads.bind (hy past h) fun _ _ h => h) fun _ _ h => h

theorem lift {p : Proc α} (hp : p.Keeps (Idle c.bus.slave false)) : Merge.Orderly (liftM p) c :=
  fun _ past h => Proc.Leads.bind (M := fun r : (α × Bytes) × Controller => r.2.Steady)
    (Proc.Leads.bind (M := fun r : α × Controller => r.2.Steady)
      (Proc.Leads.bind (hp past h) fun _ _ h => h) fun _ _ h => h) fun _ _ h => h

theorem bind_get {f : Bytes → Merge β} (hf : ∀ page, Merge.Orderly (f page) c) :
    Merge.Orderly (get >>= f) c :=
  fun page => hf page page

theorem bind_set {page : Bytes} {f : PUnit → Merge β} (hf : Merge.Orderly (f ⟨⟩) c) :
    Merge.Orderly (set page >>= f) c :=
  fun _ => hf page

/-- A branch whose two sides come together in `y`. -/
theorem join {P : Prop} [Decidable P] {y z : Merge β} (hy : ∀ c, Merge.Orderly y c)
    (hz : (∀ c, Merge.Orderly y c) → Merge.Orderly z c) :
    Merge.Orderly (if P then z else y) c := by
  split
  · exact hz hy
  · exact hy c

end Merge.Orderly

/-! ## Commands of a controller -/

/-- Switching the slave is the one step that changes who is active. -/
theorem orderly_setActiveSlave (slave : UInt8) (c : Controller) :
    Drive.Orderly (setActiveSlave slave) c := by
  rw [setActiveSlave]
  split
  · refine .bind_get ?_
    split
    · exact .pure
    · exact fun past h => ⟨trivial, h.deselected, rfl, h.measuring⟩
  · exact .throw

theorem orderly_waitUntilReady (c : Controller) : Drive.Orderly waitUntilReady c :=
  .bind_get (.attempt c.bus.keeps_waitUntilReady)

theorem orderly_enableWrite (c : Controller) : Drive.Orderly enableWrite c :=
  .bind_get (.attempt (c.bus.keeps_send _))

theorem orderly_selectSector (sector : UInt8) (c : Controller) :
    Drive.Orderly (selectSector sector) c := by
  refine .bind_get ?_
  split
  · exact .pure
  · refine .bind (orderly_enableWrite c) fun _ c => .bind_get ?_
    refine .bind (.attempt (c.bus.keeps_send _)) fun _ c => ?_
    exact .bind (.log rfl) fun _ _ => .modify rfl

theorem orderly_buildHeader (opcode : UInt8) (a : Address) (c : Controller) :
    Drive.Orderly (buildHeader opcode a) c := by
  refine .bind (orderly_setActiveSlave _ c) fun _ c => ?_
  refine .bind (orderly_selectSector _ c) fun _ c => .bind_get ?_
  exact .bind_lift (.checked _) fun _ => .bind_set rfl .pure

theorem orderly_runScratch (n : Nat) (wanted : Bool) (c : Controller) :
    Drive.Orderly (runScratch n wanted) c := by
  refine .bind_get (.bind_lift (.checked _) fun _ => ?_)
  refine .bind_lift (c.bus.keeps_transaction _ _) fun arrival => .bind_set rfl ?_
  split
  · exact .pure
  · exact .throw

/-! ## Moving data -/

theorem orderly_readChunk (offset : UInt64) (len : Nat) (c : Controller) :
    Drive.Orderly (readChunk offset len) c := by
  rw [readChunk]
  split
  · exact .pure
  refine .bind_lift (.count _) fun stop => ?_
  split
  · exact .throw
  refine .bind (orderly_buildHeader _ _ c) fun _ c => .bind_get ?_
  refine .bind_lift (.count _) fun dataStart => ?_
  dsimp only
  split
  · exact .bind_lift (.count _) fun _ => .throw
  refine .bind_lift (.count _) fun total => .bind_lift (.checked _) fun blank => ?_
  refine .bind_lift (.checked _) fun _ => .bind_set rfl ?_
  refine .bind (orderly_runScratch _ _ _) fun _ c => .bind_get ?_
  refine .bind_lift (.checked _) fun _ => .bind_lift (.checked _) fun _ => ?_
  exact .bind_lift (.checked _) fun here => .bind_lift (.checked _) fun _ => .pure

theorem orderly_writeChunk (offset : UInt64) (data : Bytes) (c : Controller) :
    Drive.Orderly (writeChunk offset data) c := by
  rw [writeChunk_eq]
  split
  · exact .pure
  refine .bind_get (.bind (orderly_buildHeader c.vendor.programOpcode (Address.ofOffset offset) c)
    fun _ c => .bind_get ?_)
  dsimp only
  generalize data.take (min (min (c.scratch.length - Opcode.headerLen) c.tuning.writeMaxLen)
    (programPageSize - offset.toNat % programPageSize)) = payload
  split
  · exact .throw
  refine .bind_lift (.checked _) fun _ => .bind_set rfl ?_
  refine .bind (orderly_enableWrite _) fun _ c => .bind (orderly_runScratch _ _ c) fun _ c => ?_
  exact .bind (orderly_waitUntilReady c) fun _ _ => .pure

theorem orderly_readOn (offset : UInt64) (fuel left done : Nat) (got : Bytes) (c : Controller) :
    Orderly (readOn offset fuel left done got) c := by
  induction fuel generalizing left done got c with
  | zero =>
    cases left with
    | zero => exact .pure
    | succ left => exact .lift (.checked none)
  | succ fuel ih =>
    cases left with
    | zero => exact .pure
    | succ left =>
      rw [readOn_succ]
      refine .bind (.lift (.advance _ _)) fun position c => ?_
      refine .bind (.lift (.count _)) fun _ c => ?_
      refine .bind (orderly_readChunk _ _ c) fun r c => ?_
      cases r with
      | error e => exact .pure
      | ok bytes => exact .bind (.lift (.count _)) fun filled c => ih _ _ _ c

theorem orderly_bulkRead (offset : UInt64) (len : Nat) (c : Controller) :
    Orderly (bulkRead offset len) c := by
  refine .bind (orderly_readOn _ _ _ _ _ c) fun arrival c => ?_
  split
  · exact .pure
  · exact .bind (.lift (.passive Idle.lasting .giveWay)) fun _ _ => .pure

theorem orderly_writeOn (offset : UInt64) (fuel done : Nat) (data : Bytes) (c : Controller) :
    Drive.Orderly (writeOn offset fuel done data) c := by
  induction fuel generalizing done data c with
  | zero =>
    cases data with
    | nil => exact .pure
    | cons byte more => exact .lift (.checked none)
  | succ fuel ih =>
    cases data with
    | nil => exact .pure
    | cons byte more =>
      refine .bind_lift (.advance _ _) fun position => ?_
      refine .bind (orderly_writeChunk _ _ c) fun n c => ?_
      exact .bind_lift (.checked _) fun _ => .bind_lift (.count _) fun _ => ih _ _ c

theorem orderly_bulkWrite (offset : UInt64) (data : Bytes) (c : Controller) :
    Drive.Orderly (bulkWrite offset data) c :=
  .bind (orderly_writeOn _ _ _ _ c) fun _ _ => .lift (.passive Idle.lasting .giveWay)

/-! ## Pages -/

theorem orderly_eraseUnit (offset : UInt64) (unit : EraseUnit) (c : Controller) :
    Drive.Orderly (eraseUnit offset unit) c := by
  rw [eraseUnit]
  split
  · refine .bind (orderly_setActiveSlave _ c) fun _ c => ?_
    refine .bind (orderly_waitUntilReady c) fun _ c => ?_
    refine .bind (orderly_buildHeader _ _ c) fun _ c => ?_
    refine .bind (orderly_enableWrite c) fun _ c => ?_
    refine .bind (orderly_runScratch _ _ c) fun _ c => ?_
    exact .bind (.log rfl) fun _ c => orderly_waitUntilReady c
  · exact .bind (.log rfl) fun _ _ => .throw

theorem orderly_erase (offset : UInt64) (size : Nat) (c : Controller) :
    Drive.Orderly (erase offset size) c := by
  rw [erase]
  split
  · exact orderly_eraseUnit _ _ c
  · exact .bind (.log rfl) fun _ _ => .throw

theorem orderly_rewriteUnit (offset : UInt64) (data : Bytes) (c : Controller) :
    Drive.Orderly (rewriteUnit offset data) c := by
  rw [rewriteUnit]
  split
  · exact .pure
  · refine .bind (orderly_eraseUnit _ _ c) fun _ c => .bind_lift (.checked _) fun _ => ?_
    exact .bind (orderly_bulkWrite _ _ c) fun _ _ => .pure

theorem orderly_readInto (offset : UInt64) (start stop : Nat) (c : Controller) :
    Merge.Orderly (readInto offset start stop) c := by
  refine .bind (.lift (.checked _)) fun len c => ?_
  refine .bind (.state (orderly_bulkRead _ _ c)) fun arrival c => .bind_get fun page => ?_
  refine .bind (.lift (.checked _)) fun _ c => .bind_set ?_
  split
  · exact .pure
  · exact .throw

theorem orderly_mergePage (offset : UInt64) (data : Bytes) (c : Controller) :
    Merge.Orderly (mergePage offset data) c := by
  rw [mergePage_eq]
  split
  · exact .pure
  refine .join (fun c => .join (fun c => .bind_get fun page => ?_) fun hy => ?_) fun hy => ?_
  · refine .bind (.lift (.checked _)) fun _ c => .bind_set ?_
    refine .bind (.drive (orderly_eraseUnit _ _ c)) fun _ c => .bind_get fun page => ?_
    exact .bind (.drive (orderly_bulkWrite _ _ c)) fun _ _ => .pure
  · exact .bind (.lift (.advance _ _)) fun _ c =>
      .bind (orderly_readInto _ _ _ c) fun _ c => hy c
  · exact .bind (orderly_readInto _ _ _ c) fun _ c => hy c

theorem orderly_programPage (offset : UInt64) (data : Bytes) (c : Controller) :
    Merge.Orderly (programPage offset data) c := by
  refine .bind (.drive (orderly_rewriteUnit _ _ c)) fun written c => ?_
  cases written with
  | some n => exact .pure
  | none => exact orderly_mergePage _ _ c

end Controller

end NorFlash
