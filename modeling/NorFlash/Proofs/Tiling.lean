import NorFlash.Proofs.Bounds
import NorFlash.Proofs.Ledger

/-!
# Tiling — bulk transfers, burst by burst

A bulk transfer repeats bursts of data until its range is done. Here each loop is
followed with the bursts that it adds to the ledger: program bursts and read bursts
tile the range, one beginning where the one before it ended, whatever commands for
selecting a sector or polling come in between.
-/

namespace NorFlash

variable {α β σ : Type} {c c' : Controller} {a : Address} {v : Vendor} {offset : UInt64}
  {added : List Burst}

/-! ## Operations of a controller -/

/-- From this controller the operation adds bursts with `A`, and caches the sector
that the ledger says. -/
def Controller.Adds (x : StateT Controller Proc α) (c : Controller)
    (A : α → Controller → List Burst → Prop) : Prop :=
  ∀ l : Ledger, l.sector = c.sector → (x c).Enters l fun r l' =>
    l'.sector = r.2.sector ∧ ∃ added, l'.bursts = l.bursts ++ added ∧ A r.1 r.2 added

/-- The same of an operation that may fail: it ends with `A`, or fails with `E`. -/
def Drive.Adds (x : Drive α) (c : Controller) (A : α → Controller → List Burst → Prop)
    (E : List Burst → Prop) : Prop :=
  Controller.Adds x.run c fun r c' added =>
    match r with
    | .ok v => A v c' added
    | .error _ => E added

namespace Controller.Adds

variable {x : StateT Controller Proc α} {f : α → StateT Controller Proc β}
  {A M : α → Controller → List Burst → Prop} {B : β → Controller → List Burst → Prop}

theorem mono (h : Adds x c M) (hm : ∀ v c' added, M v c' added → A v c' added) : Adds x c A :=
  fun l hl => (h l hl).mono fun _ _ ⟨hs, added, hb, ha⟩ => ⟨hs, added, hb, hm _ _ added ha⟩

theorem pure {v : α} (h : A v c []) : Adds (Pure.pure v) c A :=
  fun _ hl => .pure ⟨hl, [], (List.append_nil _).symm, h⟩

theorem bind (hx : Adds x c M)
    (hf : ∀ v c' added, M v c' added → Adds (f v) c' fun w c'' more => B w c'' (added ++ more)) :
    Adds (x >>= f) c B := by
  refine fun l hl => .bind (hx l hl) ?_
  rintro ⟨v, c'⟩ _ ⟨hl', added, hb, ha⟩
  refine (hf v c' added ha _ hl').mono ?_
  rintro _ _ ⟨hl'', more, hb', hb''⟩
  exact ⟨hl'', added ++ more, by rw [hb', hb, List.append_assoc], hb''⟩

/-- A step that does not use the controller. -/
theorem bind_lift {p : Proc α} {M : α → List Burst → Prop} (hp : p.Adds c.sector M)
    (hf : ∀ v added, M v added → Adds (f v) c fun w c' more => B w c' (added ++ more)) :
    Adds (liftM p >>= f) c B := by
  refine bind (M := fun v c' added => M v added ∧ c' = c) (fun l hl => ?_) ?_
  · refine .bind (hp l hl) ?_
    rintro v _ ⟨hl', added, hb, hv⟩
    exact .pure ⟨hl', added, hb, hv, rfl⟩
  · rintro v _ added ⟨hv, rfl⟩
    exact hf v added hv

/-- One that adds no burst. -/
theorem bind_quiet {p : Proc α} {P : α → Prop} (hq : p.Quiet) (hp : p.Abides .lax P)
    (hf : ∀ v, P v → Adds (f v) c B) : Adds (liftM p >>= f) c B := by
  refine bind_lift (hq.adds.and_abides hp) ?_
  rintro v _ ⟨hv, rfl⟩
  exact hf v hv

end Controller.Adds

namespace Drive.Adds

variable {x : Drive α} {f : α → Drive β} {A M : α → Controller → List Burst → Prop}
  {B : β → Controller → List Burst → Prop} {D E : List Burst → Prop}

theorem mono (h : Adds x c M D) (hm : ∀ v c' added, M v c' added → A v c' added)
    (he : ∀ added, D added → E added) : Adds x c A E :=
  Controller.Adds.mono h fun r c' added hr => by
    cases r with
    | ok v => exact hm v c' added hr
    | error _ => exact he added hr

theorem pure {v : α} (h : A v c []) : Adds (Pure.pure v) c A E :=
  Controller.Adds.pure h

theorem throw {error : Error} (h : E []) : Adds (MonadExcept.throw error : Drive α) c A E :=
  Controller.Adds.pure h

theorem bind (hx : Adds x c M D) (herr : ∀ added, D added → E added)
    (hf : ∀ v c' added, M v c' added →
      Adds (f v) c' (fun w c'' more => B w c'' (added ++ more)) fun more => E (added ++ more)) :
    Adds (x >>= f) c B E := by
  refine Controller.Adds.bind hx fun r c' added hr => ?_
  cases r with
  | ok v => exact hf v c' added hr
  | error _ =>
    refine Controller.Adds.pure ?_
    rw [List.append_nil]
    exact herr added hr

/-- An attempt as a step. -/
theorem attempt {y : Attempt α} {A : α → List Burst → Prop} (hy : Attempt.Adds y c.sector A E) :
    Adds (liftM y) c (fun v c' added => c' = c ∧ A v added) E := by
  refine fun l hl => .bind (hy l hl) ?_
  rintro r _ ⟨hl', added, hb, ha⟩
  refine .pure ⟨hl', added, hb, ?_⟩
  cases r with
  | ok v => exact ⟨rfl, ha⟩
  | error _ => exact ha

theorem bind_get {f : Controller → Drive β} (hf : Adds (f c) c B E) : Adds (get >>= f) c B E :=
  hf

/-- A replacement that leaves the cached sector. -/
theorem bind_set {c' : Controller} {f : PUnit → Drive β} (hsector : c'.sector = c.sector)
    (hf : Adds (f ⟨⟩) c' B E) : Adds (set c' >>= f) c B E :=
  fun l hl => hf l (hl.trans hsector.symm)

theorem set {c' : Controller} {A : PUnit → Controller → List Burst → Prop}
    (hsector : c'.sector = c.sector) (h : A ⟨⟩ c' []) : Adds (MonadStateOf.set c') c A E :=
  fun _ hl => .pure ⟨hl.trans hsector.symm, [], (List.append_nil _).symm, h⟩

/-- A step that does not use the controller and cannot fail. -/
theorem bind_lift {p : Proc α} {M : α → List Burst → Prop} (hp : p.Adds c.sector M)
    (hf : ∀ v added, M v added → Adds (f v) c (fun w c' more => B w c' (added ++ more))
      fun more => E (added ++ more)) : Adds (liftM p >>= f) c B E := by
  refine bind (M := fun v c' added => M v added ∧ c' = c) (D := fun _ => False)
    (fun l hl => ?_) (fun _ h => h.elim) ?_
  · refine Proc.Enters.bind (M := fun (r : α × Controller) l' => l'.sector = c.sector ∧
      ∃ added, l'.bursts = l.bursts ++ added ∧ M r.1 added ∧ r.2 = c) ?_ ?_
    · refine .bind (hp l hl) ?_
      rintro v _ ⟨hl', added, hb, hv⟩
      exact .pure ⟨hl', added, hb, hv, rfl⟩
    · rintro ⟨v, _⟩ _ ⟨hl', added, hb, hv, rfl⟩
      exact .pure ⟨hl', added, hb, hv, rfl⟩
  · rintro v _ added ⟨hv, rfl⟩
    exact hf v added hv

/-- One that adds no burst. -/
theorem bind_quiet {p : Proc α} {P : α → Prop} (hq : p.Quiet) (hp : p.Abides .lax P)
    (hf : ∀ v, P v → Adds (f v) c B E) : Adds (liftM p >>= f) c B E := by
  refine bind_lift (hq.adds.and_abides hp) ?_
  rintro v _ ⟨hv, rfl⟩
  exact hf v hv

end Drive.Adds

/-! ## Plain and addressed commands -/

/-- The same chip and tuning, whatever is addressed. -/
structure SameSetup (c c' : Controller) : Prop where
  vendor : c'.vendor = c.vendor
  tuning : c'.tuning = c.tuning

theorem SameSetup.refl (c : Controller) : SameSetup c c := ⟨rfl, rfl⟩

theorem SameSetup.trans {c'' : Controller} (h : SameSetup c c') (h' : SameSetup c' c'') :
    SameSetup c c'' :=
  ⟨h'.vendor.trans h.vendor, h'.tuning.trans h.tuning⟩

/-- What a driver sends before the first command for a sector, unless the sector is
cached already. -/
def Selects (a : Address) (added : List Burst) : Prop :=
  added = [] ∨ ∃ (sector : UInt8) (enable select : Burst), added = [enable, select] ∧
    enable.Carries a.slave sector [Opcode.writeEnable] ∧
    select.Carries a.slave sector [Opcode.writeSector, a.sector]

/-- Commands that bring no data along. -/
def Burst.Plain (x : Burst) : Prop :=
  x.sent.head? ∈ [some Opcode.writeEnable, some Opcode.writeSector, some Opcode.readStatus]

theorem Burst.Carries.plain {x : Burst} {slave sector opcode : UInt8} {rest : Bytes}
    (h : x.Carries slave sector (opcode :: rest))
    (hopcode : opcode ∈ [Opcode.writeEnable, Opcode.writeSector, Opcode.readStatus]) :
    x.Plain := by
  rw [Plain, h.sent, List.head?_cons]
  simpa using hopcode

theorem Tried.plain {slave sector opcode : UInt8} {rest : Bytes}
    (h : Tried slave sector (opcode :: rest) added)
    (hopcode : opcode ∈ [Opcode.writeEnable, Opcode.writeSector, Opcode.readStatus]) :
    ∀ x ∈ added, x.Plain :=
  fun x hx => (h.carries x hx).plain hopcode

theorem Selects.plain (h : Selects a added) : ∀ x ∈ added, x.Plain := by
  rcases h with rfl | ⟨sector, enable, select, rfl, henable, hselect⟩
  · exact fun _ hx => absurd hx List.not_mem_nil
  · exact List.forall_mem_cons.mpr ⟨henable.plain (by decide),
      List.forall_mem_singleton.mpr (hselect.plain (by decide))⟩

namespace Controller

theorem adds_setActiveSlave (slave : UInt8) (c : Controller) :
    Drive.Adds (setActiveSlave slave) c
      (fun _ c' added => added = [] ∧ c'.bus.slave = slave ∧ SameSetup c c')
      (fun added => ∀ x ∈ added, x.Plain) := by
  rw [setActiveSlave]
  split
  · refine .bind_get ?_
    split
    · rename_i hslave
      exact .pure ⟨rfl, hslave, .refl c⟩
    · -- the line about the switch is what the ledger forgets the sector by
      rintro l hl start past rfl
      exact ⟨Terms.rule_lax _ _, rfl, [], (List.append_nil _).symm, rfl, rfl, rfl, rfl⟩
  · exact .throw fun _ hx => absurd hx List.not_mem_nil

theorem adds_waitUntilReady (c : Controller) :
    Drive.Adds waitUntilReady c (fun _ c' added => c' = c ∧ Polled c.bus.slave c.sector added)
      (fun added => ∀ x ∈ added, x.Plain) :=
  .bind_get ((Drive.Adds.attempt (c.bus.adds_waitUntilReady c.sector)).mono (fun _ _ _ h => h)
    fun _ h x hx => (h x hx).plain (by decide))

theorem adds_send (command : Bytes) (c : Controller) :
    Drive.Adds (liftM (c.bus.send command)) c
      (fun _ c' added => c' = c ∧ ∃ x, added = [x] ∧ x.Carries c.bus.slave c.sector command)
      (Tried c.bus.slave c.sector command) :=
  .attempt (c.bus.adds_send command c.sector)

theorem adds_enableWrite (c : Controller) :
    Drive.Adds enableWrite c (fun _ c' added => c' = c ∧
        ∃ x, added = [x] ∧ x.Carries c.bus.slave c.sector [Opcode.writeEnable])
      (fun added => ∀ x ∈ added, x.Plain) :=
  .bind_get ((adds_send _ c).mono (fun _ _ _ h => h) fun _ h => h.plain (by decide))

/-- A sector that was selected is cached from then on. -/
theorem adds_selected (sector : UInt8) (c : Controller) {E : List Burst → Prop} :
    Drive.Adds (do Proc.log (.sectorSelected sector); modify ({ · with sector })) c
      (fun _ c' added => c' = { c with sector } ∧ added = []) E := by
  rintro l hl start past rfl
  exact ⟨Terms.rule_lax _ _, rfl, [], (List.append_nil _).symm, rfl, rfl⟩

theorem adds_selectSector (a : Address) (c : Controller) (hslave : c.bus.slave = a.slave) :
    Drive.Adds (selectSector a.sector) c
      (fun _ c' added => c'.bus.slave = a.slave ∧ c'.sector = a.sector ∧ SameSetup c c' ∧
        Selects a added)
      (fun added => ∀ x ∈ added, x.Plain) := by
  refine .bind_get ?_
  split
  · rename_i hsector
    exact .pure ⟨hslave, hsector, .refl c, .inl rfl⟩
  refine .bind (adds_enableWrite c) (fun _ h => h) ?_
  rintro _ _ _ ⟨rfl, enable, rfl, henable⟩
  refine .bind_get (.bind (adds_send _ _) (fun added htried => ?_) ?_)
  · exact List.forall_mem_cons.mpr ⟨henable.plain (by decide), htried.plain (by decide)⟩
  rintro _ _ _ ⟨rfl, select, rfl, hselect⟩
  refine (adds_selected a.sector _).mono ?_ fun _ h => h
  rintro _ _ _ ⟨rfl, rfl⟩
  rw [hslave] at henable hselect
  exact ⟨hslave, rfl, ⟨rfl, rfl⟩, .inr ⟨_, enable, select, rfl, henable, hselect⟩⟩

/-- The header of a command is at the front of the scratch buffer, and its slave and
sector are selected. -/
structure Addresses (c c' : Controller) (opcode : UInt8) (a : Address) : Prop where
  slave : c'.bus.slave = a.slave
  sector : c'.sector = a.sector
  setup : SameSetup c c'
  scratch : ∃ rest, c'.scratch = opcode :: a.bytes ++ rest

theorem adds_buildHeader (opcode : UInt8) (a : Address) (c : Controller) :
    Drive.Adds (buildHeader opcode a) c
      (fun _ c' added => Addresses c c' opcode a ∧ Selects a added)
      (fun added => ∀ x ∈ added, x.Plain) := by
  refine .bind (adds_setActiveSlave a.slave c) (fun _ h => h) ?_
  rintro _ c₁ _ ⟨rfl, hslave, hsetup⟩
  refine .bind (adds_selectSector a c₁ hslave) (fun _ h => h) ?_
  rintro _ c₂ added ⟨hslave₂, hsector, hsetup₂, hselects⟩
  refine .bind_get (.bind_quiet (.checked _) (.overwrite (.inl trivial)) fun scratch h => ?_)
  obtain ⟨-, rfl⟩ := h
  refine .set rfl ⟨⟨hslave₂, hsector, (hsetup.trans hsetup₂).trans ⟨rfl, rfl⟩,
    c₂.scratch.drop (0 + (opcode :: a.bytes).length), ?_⟩, ?_⟩
  · rw [List.take_zero, List.nil_append]
  · rw [List.nil_append, List.append_nil]
    exact hselects

/-- The first `n` bytes of the scratch buffer are sent; a response that is wanted takes
their place. -/
theorem adds_runScratch (n : Nat) (wanted : Bool) (c : Controller) :
    Drive.Adds (runScratch n wanted) c
      (fun _ c' added => SameSetup c c' ∧ c'.bus.slave = c.bus.slave ∧ c'.sector = c.sector ∧
        ∃ x, added = [x] ∧ x.Carries c.bus.slave c.sector (c.scratch.take n) ∧
          (wanted = true → c'.scratch = x.received ++ c.scratch.drop n ∧
            x.received.length = x.sent.length))
      (Tried c.bus.slave c.sector (c.scratch.take n)) := by
  refine .bind_get (.bind_quiet (.checked _) (.split (.inl trivial)) fun r hr => ?_)
  obtain ⟨command, rest⟩ := r
  obtain ⟨hscratch, hlen⟩ := hr
  dsimp only at hscratch hlen ⊢
  rw [hscratch, List.take_left' hlen, List.drop_left' hlen]
  refine .bind_lift (c.bus.adds_transaction command wanted c.sector) fun arrival added h => ?_
  refine .bind_set rfl ?_
  obtain ⟨bytes, outcome⟩ := arrival
  cases outcome with
  | error e =>
    refine .throw ?_
    rw [List.append_nil]
    exact h.imp And.left fun ⟨x, hx, hcarries, _⟩ => ⟨x, hx, hcarries⟩
  | ok _ =>
    rcases h with ⟨-, hne⟩ | ⟨x, rfl, hcarries, hreceived⟩
    · exact absurd rfl hne
    · refine .pure ⟨⟨rfl, rfl⟩, rfl, rfl, x, rfl, hcarries, fun hwanted => ?_⟩
      obtain ⟨hbytes, hlen⟩ := hreceived hwanted
      dsimp only at hbytes
      rw [hcarries.sent, Arrival.into, hbytes, hlen rfl, List.drop_length, List.append_nil]
      exact ⟨rfl, rfl⟩

end Controller

/-! ## Tiles -/

/-- Pieces of data, `done` bytes from an offset on, each with its bursts: one begins
where the one before it ends. -/
inductive Tiles (Tile : UInt64 → Bytes → List Burst → Prop) (offset : UInt64) :
    Nat → Bytes → List Burst → Prop where
  | nil {done : Nat} : Tiles Tile offset done [] []
  | cons {done : Nat} {position : UInt64} {piece rest : Bytes} {added more : List Burst}
    (hposition : position.toNat = offset.toNat + done) (htile : Tile position piece added)
    (hrest : Tiles Tile offset (done + piece.length) rest more) :
    Tiles Tile offset done (piece ++ rest) (added ++ more)

/-- What can be told of each piece from its bursts can be told of the whole. -/
theorem Tiles.flatMap_eq {Tile : UInt64 → Bytes → List Burst → Prop} {g : Burst → Bytes}
    {done : Nat} {data : Bytes} (h : Tiles Tile offset done data added)
    (hg : ∀ {position piece added}, Tile position piece added → added.flatMap g = piece) :
    added.flatMap g = data := by
  induction h with
  | nil => rfl
  | cons _ htile _ ih => rw [List.flatMap_append, hg htile, ih]

/-- Some data is programmed by one burst at a place. The sector is selected before, if
need be; the write enable command comes right before the program burst, and behind it
the status is read until it reports ready. -/
structure ProgramTile (v : Vendor) (position : UInt64) (piece : Bytes) (added : List Burst) :
    Prop where
  some : piece ≠ []
  bursts : ∃ (lead : List Burst) (enable program : Burst) (polls : List Burst),
    added = lead ++ enable :: program :: polls ∧
    Selects (Address.ofOffset position) lead ∧
    enable.Carries (Address.ofOffset position).slave (Address.ofOffset position).sector
      [Opcode.writeEnable] ∧
    program.Carries (Address.ofOffset position).slave (Address.ofOffset position).sector
      (v.programOpcode :: (Address.ofOffset position).bytes ++ piece) ∧
    Polled (Address.ofOffset position).slave (Address.ofOffset position).sector polls

/-- Some data is read by one burst at a place, inside its page. The sector is selected
before, if need be; the data is what was received behind header and dummy bytes. -/
structure ReadTile (dummy : Nat) (position : UInt64) (piece : Bytes) (added : List Burst) :
    Prop where
  some : piece ≠ []
  inPage : pageIndex position + piece.length ≤ pageSize
  bursts : ∃ (lead : List Burst) (read : Burst),
    added = lead ++ [read] ∧ Selects (Address.ofOffset position) lead ∧
    read.Carries (Address.ofOffset position).slave (Address.ofOffset position).sector
      (Opcode.quadRead :: (Address.ofOffset position).bytes ++
        Bytes.filled (dummy + piece.length) 0) ∧
    read.received.length = read.sent.length ∧
    read.received.drop (Opcode.headerLen + dummy) = piece

namespace Burst

/-- The data that a program burst sends; other bursts send none. -/
def payload (v : Vendor) (x : Burst) : Bytes :=
  if x.sent.head? = some v.programOpcode then x.sent.drop Opcode.headerLen else []

/-- The burst is a read. -/
def isRead (x : Burst) : Bool :=
  x.sent.head? == some Opcode.quadRead

/-- The data that a read burst receives; other bursts receive none. -/
def data (dummy : Nat) (x : Burst) : Bytes :=
  if x.isRead then x.received.drop (Opcode.headerLen + dummy) else []

theorem Plain.payload {x : Burst} (h : x.Plain) (v : Vendor) : x.payload v = [] := by
  rw [Burst.payload, if_neg]
  intro heq
  rw [Plain, heq] at h
  cases v <;> exact absurd h (by decide)

theorem Plain.isRead {x : Burst} (h : x.Plain) : x.isRead = false := by
  rw [Burst.isRead, beq_eq_false_iff_ne]
  intro heq
  rw [Plain, heq] at h
  exact absurd h (by decide)

theorem Plain.data {x : Burst} (h : x.Plain) (dummy : Nat) : x.data dummy = [] := by
  rw [Burst.data, h.isRead]
  rfl

theorem payload_of_carries {x : Burst} {slave sector : UInt8} {piece : Bytes}
    (h : x.Carries slave sector (v.programOpcode :: a.bytes ++ piece)) : x.payload v = piece := by
  rw [Burst.payload, h.sent, List.cons_append, List.head?_cons, if_pos rfl]
  rfl

end Burst

/-- The data that bursts sent to be programmed. -/
def payloads (v : Vendor) (added : List Burst) : Bytes :=
  added.flatMap (Burst.payload v)

/-- The data that bursts received in response to reads. -/
def responses (dummy : Nat) (added : List Burst) : Bytes :=
  added.flatMap (Burst.data dummy)

theorem payloads_append (v : Vendor) (added more : List Burst) :
    payloads v (added ++ more) = payloads v added ++ payloads v more :=
  List.flatMap_append

theorem payloads_of_plain (h : ∀ x ∈ added, x.Plain) (v : Vendor) : payloads v added = [] :=
  List.flatMap_eq_nil_iff.mpr fun x hx => (h x hx).payload v

theorem countP_isRead_of_plain (h : ∀ x ∈ added, x.Plain) : added.countP Burst.isRead = 0 :=
  List.countP_eq_zero.mpr fun x hx => Bool.eq_false_iff.mp (h x hx).isRead

theorem Polled.plain {slave sector : UInt8} (h : Polled slave sector added) :
    ∀ x ∈ added, x.Plain :=
  fun x hx => (h.1 x hx).plain (by decide)

theorem ProgramTile.payloads {position : UInt64} {piece : Bytes}
    (h : ProgramTile v position piece added) : payloads v added = piece := by
  obtain ⟨lead, enable, program, polls, rfl, hlead, henable, hprogram, hpolls⟩ := h.bursts
  rw [payloads_append, payloads_of_plain hlead.plain, List.nil_append]
  change enable.payload v ++ (program.payload v ++ NorFlash.payloads v polls) = piece
  rw [(henable.plain (by decide)).payload, Burst.payload_of_carries hprogram,
    payloads_of_plain hpolls.plain, List.nil_append, List.append_nil]

theorem ReadTile.responses {dummy : Nat} {position : UInt64} {piece : Bytes}
    (h : ReadTile dummy position piece added) : responses dummy added = piece := by
  obtain ⟨lead, read, rfl, hlead, hread, -, hdata⟩ := h.bursts
  have hisRead : read.isRead = true := by
    rw [Burst.isRead, hread.sent]
    rfl
  have hnone : lead.flatMap (Burst.data dummy) = [] :=
    List.flatMap_eq_nil_iff.mpr fun x hx => (hlead.plain x hx).data dummy
  rw [NorFlash.responses, List.flatMap_append, hnone, List.nil_append, List.flatMap_singleton,
    Burst.data, hisRead, if_pos rfl, hdata]

/-! ## One burst of data -/

namespace Controller

/-- Data that is put behind a header makes a command of the two. -/
theorem take_command {opcode : UInt8} {scratch rest piece : Bytes}
    (h : scratch = opcode :: a.bytes ++ rest) (tail : Bytes) :
    (scratch.take Opcode.headerLen ++ piece ++ tail).take (Opcode.headerLen + piece.length) =
      opcode :: a.bytes ++ piece := by
  have hheader : scratch.take Opcode.headerLen = opcode :: a.bytes := by
    rw [h]
    rfl
  rw [hheader]
  exact List.take_left' (by rw [List.length_append]; rfl)

/-- The program command in the scratch buffer is sent behind a write enable command, and
the status is read until it reports ready. If that fails, the command was sent once at
most. -/
theorem adds_program {piece : Bytes} (c : Controller)
    (h : c.scratch.take (Opcode.headerLen + piece.length) = v.programOpcode :: a.bytes ++ piece) :
    Drive.Adds (do
        enableWrite
        runScratch (Opcode.headerLen + piece.length) false
        waitUntilReady
        return piece.length) c
      (fun n c' added => n = piece.length ∧ SameSetup c c' ∧
        ∃ enable program polls, added = enable :: program :: polls ∧
          enable.Carries c.bus.slave c.sector [Opcode.writeEnable] ∧
          program.Carries c.bus.slave c.sector (v.programOpcode :: a.bytes ++ piece) ∧
          Polled c.bus.slave c.sector polls)
      (fun added => payloads v added <+: piece) := by
  refine .bind (adds_enableWrite c) (fun added h => ?_) ?_
  · rw [payloads_of_plain h]
    exact List.nil_prefix
  rintro _ _ _ ⟨rfl, enable, rfl, henable⟩
  have hplain := (henable.plain (by decide)).payload v
  refine .bind (adds_runScratch _ false _) (fun added htried => ?_) ?_
  · rw [h] at htried
    rw [payloads_append, payloads, List.flatMap_singleton, hplain, List.nil_append]
    rcases htried with rfl | ⟨program, rfl, hprogram⟩
    · exact List.nil_prefix
    · have hpayload : payloads v [program] = piece := by
        rw [payloads, List.flatMap_singleton, Burst.payload_of_carries hprogram]
      exact hpayload ▸ List.prefix_rfl
  rintro _ c₁ _ ⟨hsetup, hslave, hsector, program, rfl, hprogram, -⟩
  rw [h] at hprogram
  refine .bind (adds_waitUntilReady c₁) (fun added hpolls => ?_) ?_
  · have hpayload : enable.payload v ++ (program.payload v ++ payloads v added) = piece := by
      rw [hplain, Burst.payload_of_carries hprogram, payloads_of_plain hpolls, List.nil_append,
        List.append_nil]
    exact hpayload ▸ List.prefix_rfl
  rintro _ _ polls ⟨rfl, hpolls⟩
  rw [hslave, hsector] at hpolls
  exact .pure ⟨rfl, hsetup, enable, program, polls, List.append_nil _ ▸ rfl, henable, hprogram,
    hpolls⟩

/-- A program burst takes some of the data from the front. If it fails, it sent nothing
else. -/
theorem adds_writeChunk (c : Controller) (offset : UInt64) {data : Bytes} (hdata : data ≠ []) :
    Drive.Adds (writeChunk offset data) c
      (fun n c' added => SameSetup c c' ∧ n ≤ data.length ∧
        ProgramTile c.vendor offset (data.take n) added)
      (fun added => payloads c.vendor added <+: data) := by
  have hnone : ∀ {added : List Burst}, (∀ x ∈ added, x.Plain) →
      payloads c.vendor added <+: data :=
    fun h => payloads_of_plain h c.vendor ▸ List.nil_prefix
  rw [writeChunk_eq, if_neg (by simpa using hdata)]
  refine .bind_get (.bind (adds_buildHeader _ _ c) (fun _ h => hnone h) ?_)
  rintro _ c₁ lead ⟨⟨hslave, hsector, hsetup, rest, hscratch⟩, hlead⟩
  refine .bind_get ?_
  dsimp only
  generalize min (min (c₁.scratch.length - Opcode.headerLen) c₁.tuning.writeMaxLen)
    (programPageSize - offset.toNat % programPageSize) = limit
  have hprefix := List.take_prefix limit data
  generalize data.take limit = piece at *
  split
  · refine .throw ?_
    rw [List.append_nil]
    exact hnone hlead.plain
  rename_i hsome
  refine .bind_quiet (.checked _) (.overwrite (.inl trivial)) fun scratch h => ?_
  obtain ⟨-, rfl⟩ := h
  refine .bind_set rfl ((adds_program _ (take_command hscratch _)).mono ?_ fun added h => ?_)
  · rintro _ c₂ _ ⟨rfl, hsetup₂, enable, program, polls, rfl, henable, hprogram, hpolls⟩
    rw [← List.prefix_iff_eq_take.mp hprefix]
    dsimp only at henable hprogram hpolls
    rw [hslave, hsector] at henable hprogram hpolls
    exact ⟨hsetup.trans ⟨hsetup₂.vendor, hsetup₂.tuning⟩, hprefix.length_le, by simpa using hsome,
      lead, enable, program, polls, rfl, hlead, henable, hprogram, hpolls⟩
  · rw [payloads_append, payloads_of_plain hlead.plain, List.nil_append]
    exact h.trans hprefix

/-- The read command in the scratch buffer is sent, and the data is what arrives behind
`dataStart` bytes. If that fails, the command was sent once at most. -/
theorem adds_read {dataStart n len : Nat} {blank : Bytes} (c : Controller)
    (h : c.scratch.take (Opcode.headerLen + blank.length) = Opcode.quadRead :: a.bytes ++ blank)
    (hblank : Opcode.headerLen + blank.length = dataStart + n) :
    Drive.Adds (do
        runScratch (dataStart + n) true
        let (response, _) ← Proc.split (dataStart + n) (← get).scratch
        let (_, data) ← Proc.split dataStart response
        let here ← Proc.slice 0 n len
        Proc.equal here data.length
        return data) c
      (fun bytes c' added => SameSetup c c' ∧ bytes.length = n ∧
        ∃ read, added = [read] ∧
          read.Carries c.bus.slave c.sector (Opcode.quadRead :: a.bytes ++ blank) ∧
          read.received.length = read.sent.length ∧ read.received.drop dataStart = bytes)
      (fun added => added.countP Burst.isRead ≤ 1) := by
  rw [hblank] at h
  refine .bind (adds_runScratch _ true c) (fun added htried => ?_) ?_
  · rcases htried with rfl | ⟨read, rfl, -⟩
    · exact Nat.zero_le 1
    · exact List.countP_le_length
  rintro _ c₁ _ ⟨hsetup, -, -, read, rfl, hread, hreceived⟩
  obtain ⟨hscratch, hlen⟩ := hreceived rfl
  rw [h] at hread
  have htotal : read.received.length = dataStart + n := by
    rw [hlen, hread.sent, ← hblank, List.length_append]
    rfl
  refine .bind_get (.bind_quiet (.checked _) (.split (.inl trivial)) ?_)
  rintro ⟨response, rest⟩ ⟨hresponse, hresponse'⟩
  dsimp only at hresponse hresponse' ⊢
  obtain ⟨rfl, -⟩ := List.append_inj (hscratch.symm.trans hresponse) (htotal.trans hresponse'.symm)
  refine .bind_quiet (.checked _) (.split (.inl trivial)) ?_
  rintro ⟨front, data⟩ ⟨hdata, hfront⟩
  dsimp only at hdata hfront ⊢
  refine .bind_quiet (.checked _) (.slice (.inl trivial)) fun here _ => ?_
  refine .bind_quiet (.checked _) (.equal (.inl trivial)) fun _ _ => ?_
  refine .pure ⟨hsetup, ?_, read, rfl, hread, hlen, ?_⟩
  · have hsum := congrArg List.length hdata
    rw [List.length_append] at hsum
    omega
  · rw [hdata, List.drop_left' hfront]

/-- A read burst brings some bytes, as many as were asked for at most and none from
another page. If it fails, it was tried once. -/
theorem adds_readChunk (c : Controller) (offset : UInt64) {len : Nat} (hlen : len ≠ 0) :
    Drive.Adds (readChunk offset len) c
      (fun bytes c' added => SameSetup c c' ∧ bytes.length ≤ len ∧
        ReadTile c.tuning.readDummyLen offset bytes added)
      (fun added => added.countP Burst.isRead ≤ 1) := by
  have hnone : ∀ {added : List Burst}, (∀ x ∈ added, x.Plain) →
      added.countP Burst.isRead ≤ 1 :=
    fun h => countP_isRead_of_plain h ▸ Nat.zero_le 1
  rw [readChunk, if_neg hlen]
  refine .bind_quiet (.count _) (.count (.inl trivial)) fun stop hstop => ?_
  split
  · exact .throw (Nat.zero_le 1)
  rename_i hin
  refine .bind (adds_buildHeader _ _ c) (fun _ h => hnone h) ?_
  rintro _ c₁ lead ⟨⟨hslave, hsector, hsetup, rest, hscratch⟩, hlead⟩
  refine .bind_get (.bind_quiet (.count _) (.count (.inl trivial)) fun dataStart h => ?_)
  subst h
  rw [hsetup.tuning]
  dsimp only
  have hle := Nat.min_le_left len
    (c₁.scratch.length - (Opcode.headerLen + c.tuning.readDummyLen))
  generalize min len (c₁.scratch.length - (Opcode.headerLen + c.tuning.readDummyLen)) = n at *
  split
  · refine .bind_quiet (.count _) (.count (.inl trivial)) fun least _ => .throw ?_
    rw [List.append_nil]
    exact hnone hlead.plain
  rename_i hsome
  refine .bind_quiet (.count _) (.count (.inl trivial)) fun total h => ?_
  subst h
  refine .bind_quiet (.checked _) (.slice (.inl trivial)) fun blank h => ?_
  obtain ⟨-, rfl⟩ := h
  rw [Nat.add_assoc Opcode.headerLen, Nat.add_sub_cancel_left, ← Nat.add_assoc Opcode.headerLen]
  have hblank : (Bytes.filled (c.tuning.readDummyLen + n) 0).length =
      c.tuning.readDummyLen + n :=
    List.length_replicate
  refine .bind_quiet (.checked _) (.overwrite (.inl trivial)) fun scratch h => ?_
  obtain ⟨-, rfl⟩ := h
  refine .bind_set rfl ((adds_read _ (take_command hscratch _)
    (by rw [hblank, Nat.add_assoc])).mono ?_ fun added h => ?_)
  · rintro bytes c₂ _ ⟨hsetup₂, hbytes, read, rfl, hread, hreceived, hdata⟩
    dsimp only at hread
    rw [hslave, hsector] at hread
    refine ⟨⟨hsetup₂.vendor.trans hsetup.vendor, hsetup₂.tuning⟩, hbytes ▸ hle, ?_, by omega,
      lead, read, rfl, hlead, hbytes ▸ hread, hreceived, hdata⟩
    exact List.ne_nil_of_length_pos (by omega)
  · rw [List.countP_append, countP_isRead_of_plain hlead.plain, Nat.zero_add]
    exact h

end Controller

/-! ## Whole ranges -/

/-- What the bursts of a read come to that had `left` bytes to bring: the completed ones
bring its bytes, and all of them if it ends well. If it fails, one more read burst was
tried at most. -/
structure ReadRun (dummy : Nat) (offset : UInt64) (done left : Nat) (bytes : Bytes)
    (outcome : Except Error Unit) (completed failed : List Burst) : Prop where
  tiles : Tiles (ReadTile dummy) offset done bytes completed
  length_le : bytes.length ≤ left
  tried : failed.countP Burst.isRead ≤ 1
  ok : outcome = .ok () → bytes.length = left ∧ failed = []

theorem ReadRun.nil {dummy done : Nat} {outcome : Except Error Unit} :
    ReadRun dummy offset done 0 [] outcome [] [] :=
  ⟨.nil, Nat.zero_le 0, Nat.zero_le 1, fun _ => ⟨rfl, rfl⟩⟩

namespace Controller

/-- Each burst brings a piece that begins where the ones before it end. -/
theorem adds_readOn (offset : UInt64) (fuel left done : Nat) (got : Bytes) (c : Controller) :
    Adds (readOn offset fuel left done got) c fun arrival _ added =>
      ∃ bytes completed failed, arrival.bytes = got.reverse ++ bytes ∧
        added = completed ++ failed ∧
        ReadRun c.tuning.readDummyLen offset done left bytes arrival.outcome completed failed := by
  induction fuel generalizing left done got c with
  | zero =>
    cases left with
    | zero =>
      exact .pure ⟨[], [], [], (List.append_nil _).symm, rfl, .nil⟩
    | succ left => exact fun _ _ _ _ _ => Terms.rule_lax _ _
  | succ fuel ih =>
    cases left with
    | zero =>
      exact .pure ⟨[], [], [], (List.append_nil _).symm, rfl, .nil⟩
    | succ left =>
      rw [readOn_succ]
      refine .bind_quiet (.advance _ _) (.advance (.inl trivial)) fun position hposition => ?_
      have hindex := pageIndex_lt position
      refine .bind_quiet (.count _) (.count (.inl trivial)) fun _ _ => ?_
      refine .bind (adds_readChunk c position (by omega)) fun r c₁ added h => ?_
      cases r with
      | error e =>
        exact .pure ⟨[], [], added, (List.append_nil _).symm, List.append_nil _, .nil,
          Nat.zero_le _, h, nofun⟩
      | ok piece =>
        obtain ⟨hsetup, hlen, htile⟩ := h
        refine .bind_quiet (.count _) (.count (.inl trivial)) fun filled h => ?_
        subst h
        refine (ih _ _ _ c₁).mono ?_
        rintro arrival _ _ ⟨bytes, completed, failed, hbytes, rfl, hrun⟩
        have hleft := hrun.length_le
        rw [hsetup.tuning] at hrun
        refine ⟨piece ++ bytes, added ++ completed, failed, ?_,
          (List.append_assoc _ _ _).symm, .cons hposition htile hrun.tiles, ?_, hrun.tried,
          fun hok => ⟨?_, (hrun.ok hok).2⟩⟩
        · rw [hbytes, List.reverseAux_eq, List.reverse_append, List.reverse_reverse,
            List.append_assoc]
        · rw [List.length_append]
          omega
        · rw [List.length_append, (hrun.ok hok).1]
          omega

theorem adds_bulkRead (offset : UInt64) (len : Nat) (c : Controller) :
    Adds (bulkRead offset len) c fun arrival _ added =>
      ∃ completed failed, added = completed ++ failed ∧
        ReadRun c.tuning.readDummyLen offset 0 len arrival.bytes arrival.outcome completed
          failed := by
  refine .bind (adds_readOn offset len len 0 [] c) ?_
  rintro ⟨_, outcome⟩ c₁ _ ⟨bytes, completed, failed, rfl, rfl, hrun⟩
  cases outcome with
  | error e => exact .pure ⟨completed, failed, List.append_nil _, hrun⟩
  | ok _ =>
    refine .bind_quiet .giveWay (.passive .giveWay) fun _ _ => .pure ?_
    exact ⟨completed, failed, List.append_nil _, hrun⟩

/-- Each burst carries a piece that begins where the ones before it end. If a burst fails,
it carried its piece or nothing. -/
theorem adds_writeOn (offset : UInt64) (fuel done : Nat) (data : Bytes) (c : Controller) :
    Drive.Adds (writeOn offset fuel done data) c
      (fun _ _ added => Tiles (ProgramTile c.vendor) offset done data added)
      (fun added => payloads c.vendor added <+: data) := by
  induction fuel generalizing done data c with
  | zero =>
    cases data with
    | nil => exact .pure .nil
    | cons byte more => exact fun _ _ _ _ _ => Terms.rule_lax _ _
  | succ fuel ih =>
    cases data with
    | nil => exact .pure .nil
    | cons byte more =>
      refine .bind_quiet (.advance _ _) (.advance (.inl trivial)) fun position hposition => ?_
      refine .bind (adds_writeChunk c position (List.cons_ne_nil byte more)) (fun _ h => h) ?_
      rintro n c₁ added ⟨hsetup, hn, htile⟩
      refine .bind_quiet (.checked _) (.split (.inl trivial)) ?_
      rintro ⟨piece, rest⟩ ⟨hdata, rfl⟩
      dsimp only at hdata htile ⊢
      rw [hdata, List.take_left] at htile
      rw [hdata]
      refine .bind_quiet (.count _) (.count (.inl trivial)) fun filled h => ?_
      subst h
      refine (ih _ _ c₁).mono (fun _ _ more hrest => ?_) fun more hprefix => ?_
      · rw [hsetup.vendor] at hrest
        exact .cons hposition htile hrest
      · rw [hsetup.vendor] at hprefix
        rw [payloads_append, htile.payloads]
        exact (List.prefix_append_right_inj piece).mpr hprefix

theorem adds_bulkWrite (offset : UInt64) (data : Bytes) (c : Controller) :
    Drive.Adds (bulkWrite offset data) c
      (fun _ _ added => Tiles (ProgramTile c.vendor) offset 0 data added)
      (fun added => payloads c.vendor added <+: data) := by
  refine .bind (adds_writeOn offset data.length 0 data c) (fun _ h => h) fun _ c₁ added h => ?_
  rintro l hl start past rfl
  refine ⟨Terms.rule_lax _ _, hl, [], (List.append_nil _).symm, ?_⟩
  show Tiles _ offset 0 data (added ++ [])
  rwa [List.append_nil]

/-! ## The law of bulk transfers -/

/-- What the run of a procedure on a block comes to, from the sector that a controller
has cached. -/
def ledger (c : Controller) (b : RegisterBlock σ) (p : Proc α) (s : σ) : Ledger :=
  ({ sector := c.sector } : Ledger).afterAll (p.deeds b s)

/-- The bursts of an operation that ends. -/
theorem Adds.ends {x : StateT Controller Proc α} {A : α → Controller → List Burst → Prop}
    (hx : Adds x c A) {b : RegisterBlock σ} {s : σ} {P : α × Controller → σ → Prop}
    (h : (x c).Ends b s P) :
    (x c).Ends b s fun r _ => (c.ledger b (x c) s).sector = r.2.sector ∧
      A r.1 r.2 (c.ledger b (x c) s).bursts := by
  obtain ⟨r, t, hrun, -⟩ := h
  obtain ⟨hsector, added, hbursts, ha⟩ := (hx { sector := c.sector } rfl).of_run hrun
  exact ⟨r, t, hrun, hsector, by rwa [ledger, hbursts]⟩

/-- A bulk write ends on the block. If it goes well, its bursts tile the range that
starts at the offset and carry exactly the data; if it fails, a prefix of the data was
carried. -/
def WriteTiles (c : Controller) (b : RegisterBlock σ) (s : σ) (offset : UInt64)
    (data : Bytes) : Prop :=
  let write := (bulkWrite offset data).run c
  let after := c.ledger b write s
  write.Ends b s fun r _ => after.sector = r.2.sector ∧
    match r.1 with
    | .ok () => Tiles (ProgramTile c.vendor) offset 0 data after.bursts ∧
        payloads c.vendor after.bursts = data
    | .error _ => payloads c.vendor after.bursts <+: data

/-- A bulk read ends on the block. Some of its bursts tile the range from the offset on.
What they received takes the place of as many bytes in the buffer, and the bytes beyond
stay. If it goes well, these are all of its bursts and they fill the buffer; if it
fails, it tried one more read burst at most. -/
def ReadTiles (c : Controller) (b : RegisterBlock σ) (s : σ) (offset : UInt64)
    (buffer : Bytes) : Prop :=
  let read := bulkRead offset buffer.length c
  let after := c.ledger b read s
  let dummy := c.tuning.readDummyLen
  read.Ends b s fun (arrival, c') _ => after.sector = c'.sector ∧
    ∃ completed failed, after.bursts = completed ++ failed ∧
      Tiles (ReadTile dummy) offset 0 (responses dummy completed) completed ∧
      (responses dummy completed).length ≤ buffer.length ∧
      arrival.into buffer = responses dummy completed ++
        buffer.drop (responses dummy completed).length ∧
      match arrival.outcome with
      | .ok () => failed = [] ∧ arrival.into buffer = responses dummy completed
      | .error _ => failed.countP Burst.isRead ≤ 1

theorem writeTiles (hc : c.Fitted) (b : RegisterBlock σ) (s : σ) (offset : UInt64)
    {data : Bytes} (hlen : data.length ≤ signedLimit) : c.WriteTiles b s offset data := by
  have habides : Drive.Abides .strict c.vendor (bulkWrite offset data) c _ :=
    abides_bulkWrite (hc.within_of_all fun _ => trivial) (.inr hlen)
  refine ((adds_bulkWrite offset data c).ends (habides.ends b s)).mono ?_
  rintro ⟨_ | _, c'⟩ _ ⟨hsector, h⟩
  · exact ⟨hsector, h⟩
  · exact ⟨hsector, h, h.flatMap_eq ProgramTile.payloads⟩

theorem readTiles (hc : c.Fitted) (b : RegisterBlock σ) (s : σ) (offset : UInt64)
    {buffer : Bytes} (hlen : buffer.length ≤ signedLimit) : c.ReadTiles b s offset buffer := by
  have habides : Abides .strict c.vendor (bulkRead offset buffer.length) c _ :=
    abides_bulkRead (hc.within_of_all fun _ => trivial) (.inr hlen)
  refine ((adds_bulkRead offset buffer.length c).ends (habides.ends b s)).mono ?_
  rintro ⟨⟨bytes, outcome⟩, c'⟩ _ ⟨hsector, completed, failed, hbursts, hrun⟩
  have hbytes : responses c.tuning.readDummyLen completed = bytes :=
    hrun.tiles.flatMap_eq ReadTile.responses
  refine ⟨hsector, completed, failed, hbursts, ?_⟩
  rw [hbytes]
  refine ⟨hrun.tiles, hrun.length_le, rfl, ?_⟩
  cases outcome with
  | error e => exact hrun.tried
  | ok _ =>
    obtain ⟨hlen, hfailed⟩ := hrun.ok rfl
    refine ⟨hfailed, ?_⟩
    dsimp only at hlen
    rw [Arrival.into, hlen, List.drop_length, List.append_nil]

end Controller

/-- **Bulk transfers tile their range exactly once and always end.** On every block, from
every state of it, and with every controller that was attached there, whatever operations
came in between. No buffer is longer than half of the address space. -/
theorem bulk_transfers_tile {b : RegisterBlock σ} {start : σ} {ops : List Operation} {f : Flash}
    (hflash : (Course.run b ops { state := start }).flash = some f) (s : σ) (offset : UInt64) :
    (∀ data : Bytes, data.length ≤ signedLimit → f.controller.WriteTiles b s offset data) ∧
      ∀ buffer : Bytes, buffer.length ≤ signedLimit → f.controller.ReadTiles b s offset buffer := by
  have hfitted := Course.fitted b ops .none f hflash
  exact ⟨fun _ hlen => Controller.writeTiles hfitted b s offset hlen,
    fun _ hlen => Controller.readTiles hfitted b s offset hlen⟩

/-- A default driver on a default emulator: four bytes written across a page boundary,
and eight bytes read there. Both go well. -/
theorem bulk_transfers_tile_default :
    ∃ f e, (Course.run Emulator.block [.attach {}] { state := .ofConfig {} }).flash = some f ∧
      ((Controller.bulkWrite 0xffe [1, 2, 3, 4]).run f.controller).Ends Emulator.block e
        (fun r _ => r.1 = .ok ()) ∧
      f.controller.WriteTiles Emulator.block e 0xffe [1, 2, 3, 4] ∧
      (Controller.bulkRead 0xffc 8 f.controller).Ends Emulator.block e
        (fun r _ => r.1.outcome = .ok ()) ∧
      f.controller.ReadTiles Emulator.block e 0xffc (Bytes.filled 8 0) := by
  obtain ⟨r, e, hrun, hr⟩ := Emulator.Prepared.fresh.ends_attach {} (by decide)
  cases r with
  | error error => exact absurd attachable_default hr
  | ok f =>
    have hengaged : Engaged {} (.ofConfig {}) f.controller e := hr
    have hflash : (Course.run Emulator.block [.attach {}] { state := .ofConfig {} }).flash =
        some f := by
      rw [show Course.run Emulator.block [.attach {}] { state := .ofConfig {} } =
        Course.step Emulator.block { state := .ofConfig {} } (.attach {}) from rfl, Course.step,
        Operation.run_attach hrun]
      rfl
    have hcapacity : e.config.capacity = sectorSize := by
      rw [hengaged.config]
      rfl
    have hfree : Unhindered 0xffe f.controller.tuning e :=
      hengaged.tuning ▸ hengaged.unhindered rfl (by decide)
    have hable : Able f.controller e := by
      rw [Able, Patient, hengaged.config, hengaged.tuning]
      decide
    have hwritten : Locates 0xffe firstChip 0xffe := ⟨by decide, by decide⟩
    have hreading : Locates 0xffc firstChip 0xffc := ⟨by decide, by decide⟩
    have hfits : 0xffe + ([1, 2, 3, 4] : Bytes).length ≤ e.config.capacity := by
      rw [hcapacity]
      decide
    have hblank : Blank e firstChip 0xffe (0xffe + ([1, 2, 3, 4] : Bytes).length) := fun b _ _ =>
      (hengaged.contents.cell firstChip b).trans (Emulator.cell_ofConfig {} firstChip b)
    refine ⟨f, e, hflash, ?_, (bulk_transfers_tile hflash e 0xffe).1 _ (by decide), ?_,
      (bulk_transfers_tile hflash e 0xffc).2 _ (by decide)⟩
    · refine Proc.Ends.mono (hengaged.ready.ends_bulkWrite hwritten hfits hblank) ?_
      rintro ⟨error | _, c'⟩ t hwrote
      · exact absurd hwrote.1 (hfree.not_failed hable)
      · rfl
    · refine (hengaged.ready.ends_bulkRead hreading (by rw [hcapacity]; decide)).mono ?_
      rintro ⟨⟨bytes, outcome⟩, c'⟩ t hread
      refine Classical.byContradiction fun hne => ?_
      exact hfree.not_failed trivial ((hread.failed hne).mono (fun _ => Emulator.Unarmed.spares)
        fun h => h)

end NorFlash
