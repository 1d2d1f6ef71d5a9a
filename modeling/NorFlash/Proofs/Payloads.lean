import NorFlash.Controller.Page
import NorFlash.Proofs.Location
import NorFlash.Proofs.Outcome
import NorFlash.Proofs.Terms

/-!
# Payloads — what the bursts of a controller carry

Every burst fits the FIFO, and the data of a program burst fits the tuned limit
and one 256-byte page. A controller whose scratch buffer is as long as the FIFO is
deep sends no other bursts, whatever the block answers, and none of its slices
leaves its buffer. What its operations take and bring is counted here, too: an
operation that went through addressed a slave that exists, so the offsets ahead of
it do not leave 64 bits.
-/

namespace NorFlash

variable {α β : Type} {T : Terms} {v : Vendor} {depth limit : Nat} {offset : UInt64}

/-! ## Bounds of a burst -/

/-- The place that a command header names within the selected sector. -/
def headerAddress (high middle low : UInt8) : Nat :=
  high.toNat * Address.highWeight + middle.toNat * Address.middleWeight + low.toNat

/-- The data of a program command: there is some, it stays below the limit and
leaves the FIFO room for the header, and it stays inside the program page of the
address. -/
structure Payload (depth limit address : Nat) (data : Bytes) : Prop where
  pos : 1 ≤ data.length
  le : data.length ≤ min limit (depth - Opcode.headerLen)
  one_page : ∀ k < data.length, (address + k) / programPageSize = address / programPageSize

/-- A burst fits the FIFO, and a program burst has a header and a payload. -/
structure Bounded (v : Vendor) (depth limit : Nat) (burst : Bytes) : Prop where
  fits : burst.length ≤ depth
  program : burst.head? = some v.programOpcode →
    ∃ high middle low data, burst = v.programOpcode :: high :: middle :: low :: data ∧
      Payload depth limit (headerAddress high middle low) data

theorem headerAddress_ofOffset (offset : UInt64) :
    headerAddress (Address.ofOffset offset).high (Address.ofOffset offset).middle
      (Address.ofOffset offset).low = offset.toNat % sectorSize := by
  simp only [headerAddress, Address.ofOffset, Address.highWeight, Address.middleWeight,
    sectorSize, UInt8.toNat_ofNat']
  omega

/-- Data that ends before the next program page stays inside its own. -/
theorem Payload.of_offset {data : Bytes} (hpos : 1 ≤ data.length)
    (hle : data.length ≤ min limit (depth - Opcode.headerLen))
    (hpage : data.length ≤ programPageSize - offset.toNat % programPageSize) :
    Payload depth limit (headerAddress (Address.ofOffset offset).high
      (Address.ofOffset offset).middle (Address.ofOffset offset).low) data := by
  refine ⟨hpos, hle, fun k hk => ?_⟩
  rw [headerAddress_ofOffset]
  simp only [sectorSize, programPageSize] at *
  omega

/-- A burst that is no program command only has to fit. -/
theorem Bounded.of_head {opcode : UInt8} {rest : Bytes} (hopcode : opcode ≠ v.programOpcode)
    (hfits : (opcode :: rest).length ≤ depth) : Bounded v depth limit (opcode :: rest) :=
  ⟨hfits, fun hhead => absurd (Option.some.inj hhead) hopcode⟩

theorem Bounded.of_payload {high middle low : UInt8} {data : Bytes}
    (h : Payload depth limit (headerAddress high middle low) data)
    (hdepth : Opcode.headerLen ≤ depth) :
    Bounded v depth limit (v.programOpcode :: high :: middle :: low :: data) := by
  refine ⟨?_, fun _ => ⟨high, middle, low, data, rfl, h⟩⟩
  have hle := h.le
  simp only [List.length_cons, Opcode.headerLen] at *
  omega

/-! ## Offsets of slaves that exist -/

/-- The slave that the offset names exists. -/
def Addressed (offset : UInt64) : Prop :=
  (Address.ofOffset offset).slave.toNat < maxSlaves

theorem addressed_iff : Addressed offset ↔ offset.toNat < maxSlaves * Address.slaveWeight := by
  have hlt := offset.toNat_lt
  simp only [Addressed, Address.ofOffset, maxSlaves, Address.slaveWeight, UInt8.toNat_ofNat']
  omega

theorem Addressed.of_le {p : UInt64} (h : Addressed p) (hle : offset.toNat ≤ p.toNat) :
    Addressed offset :=
  addressed_iff.mpr (Nat.lt_of_le_of_lt hle (addressed_iff.mp h))

theorem pageStart_toNat (offset : UInt64) :
    (pageStart offset).toNat = offset.toNat - offset.toNat % pageSize := by
  rw [pageStart, UInt64.toNat_sub_of_le]
  · rfl
  · exact UInt64.le_iff_toNat_le.mpr (Nat.mod_le _ _)

/-- A page belongs to one slave. -/
theorem Addressed.of_pageStart (h : Addressed (pageStart offset)) : Addressed offset := by
  rw [addressed_iff] at *
  have hmod := Nat.mod_lt offset.toNat pageSize_pos
  rw [pageStart_toNat] at h
  simp only [pageSize, maxSlaves, Address.slaveWeight] at *
  omega

/-- The offset `n` bytes on is meant to be used: no buffer is that long, and where
bytes have gone through already, the slave exists. -/
structure Ahead (offset : UInt64) (n : Nat) : Prop where
  le : n ≤ signedLimit
  addressed : n = 0 ∨ Addressed offset

theorem Ahead.lt (h : Ahead offset n) : offset.toNat + n < wordLimit := by
  have hlt := offset.toNat_lt
  have hle := h.le
  simp only [wordLimit, signedLimit] at *
  rcases h.addressed with rfl | h
  · omega
  · rw [addressed_iff] at h
    simp only [maxSlaves, Address.slaveWeight] at h
    omega

/-! ## Controllers -/

namespace Controller

/-- The scratch buffer is as long as the FIFO is deep, and has room for data; a chip
has at most sixteen sectors. -/
structure Fitted (c : Controller) : Prop where
  scratch : c.scratch.length = c.bus.fifoDepth
  room : Opcode.headerLen + c.tuning.readDummyLen < c.bus.fifoDepth
  depth : c.bus.fifoDepth ≤ Bus.probeLimit
  capacity : c.capacity ≤ 16 * sectorSize

/-- The controller sends allowed bursts only: the terms allow every bounded one. -/
structure Within (T : Terms) (v : Vendor) (c : Controller) : Prop extends Fitted c where
  vendor : c.vendor = v
  allows : ∀ burst, Bounded v c.bus.fifoDepth c.tuning.writeMaxLen burst → T.burst burst

theorem Fitted.lt_depth {c : Controller} (hc : c.Fitted) : Opcode.headerLen < c.bus.fifoDepth :=
  Nat.lt_of_le_of_lt (Nat.le_add_right _ _) hc.room

/-- Where every burst is allowed, a fitted controller is within the terms. -/
theorem Fitted.within_of_all {c : Controller} (hc : c.Fitted)
    (hall : ∀ burst, T.burst burst) : c.Within T c.vendor :=
  ⟨hc, rfl, fun burst _ => hall burst⟩

namespace Within

variable {c : Controller} (hc : c.Within T v)
include hc

/-- A scratch buffer of the same length serves as well. -/
theorem withScratch {scratch : Bytes} (h : scratch.length = c.bus.fifoDepth) :
    Within T v { c with scratch } :=
  ⟨⟨h, hc.room, hc.depth, hc.capacity⟩, hc.vendor, hc.allows⟩

/-- A burst that fits and is no program command is allowed. -/
theorem burst_of_head {opcode : UInt8} {rest : Bytes} (hopcode : opcode ≠ v.programOpcode)
    (hfits : (opcode :: rest).length ≤ c.bus.fifoDepth) : T.burst (opcode :: rest) :=
  hc.allows _ (.of_head hopcode hfits)

theorem burst_status : T.burst [Opcode.readStatus, 0] := by
  refine hc.burst_of_head (by cases v <;> decide) ?_
  have := hc.lt_depth
  simp only [Opcode.headerLen, List.length_cons, List.length_nil] at *
  omega

end Within

/-- From this controller the operation abides by the terms; it leaves a controller
of the same kind behind, and `A` holds. -/
def Abides (T : Terms) (v : Vendor) (x : StateT Controller Proc α) (c : Controller)
    (A : α → Controller → Prop) : Prop :=
  (x c).Abides T fun r => r.2.Within T v ∧ A r.1 r.2

namespace Abides

variable {c : Controller} {x : StateT Controller Proc α} {f : α → StateT Controller Proc β}
  {A M : α → Controller → Prop} {B : β → Controller → Prop}

theorem mono (h : Abides T v x c M) (hm : ∀ a c', M a c' → A a c') : Abides T v x c A :=
  Proc.Abides.mono h fun r hr => ⟨hr.1, hm r.1 r.2 hr.2⟩

theorem pure {a : α} (hc : c.Within T v) (h : A a c) : Abides T v (Pure.pure a) c A :=
  Proc.Abides.pure ⟨hc, h⟩

theorem bind (hx : Abides T v x c M)
    (hf : ∀ a c', c'.Within T v → M a c' → Abides T v (f a) c' B) :
    Abides T v (x >>= f) c B :=
  Proc.Abides.bind hx fun r hr => hf r.1 r.2 hr.1 hr.2

/-- A step that does not use the controller. -/
theorem bind_lift {p : Proc α} {M : α → Prop} (hp : p.Abides T M)
    (hf : ∀ a, M a → Abides T v (f a) c B) : Abides T v (liftM p >>= f) c B := by
  refine Proc.Abides.bind (M := fun r => M r.1 ∧ r.2 = c) ?_ ?_
  · exact Proc.Abides.bind hp fun _ h => Proc.Abides.pure ⟨h, rfl⟩
  · rintro ⟨a, _⟩ ⟨h, rfl⟩
    exact hf a h

theorem bind_get {f : Controller → StateT Controller Proc β} (hf : Abides T v (f c) c B) :
    Abides T v (get >>= f) c B :=
  hf

end Abides

end Controller

/-- The same of an operation that may fail; `A` holds where it does not. -/
def Drive.Abides (T : Terms) (v : Vendor) (x : Drive α) (c : Controller)
    (A : α → Controller → Prop) : Prop :=
  Controller.Abides T v x.run c fun r c' => ∀ a, r = .ok a → A a c'

namespace Drive.Abides

variable {c : Controller} {x : Drive α} {f : α → Drive β} {A M : α → Controller → Prop}
  {B : β → Controller → Prop}

theorem mono (h : Drive.Abides T v x c M) (hm : ∀ a c', M a c' → A a c') :
    Drive.Abides T v x c A :=
  Controller.Abides.mono h fun _ c' hr a ha => hm a c' (hr a ha)

theorem pure {a : α} (hc : c.Within T v) (h : A a c) : Drive.Abides T v (Pure.pure a) c A := by
  refine Controller.Abides.pure hc ?_
  rintro _ ⟨⟩
  exact h

theorem throw {error : Error} (hc : c.Within T v) :
    Drive.Abides T v (MonadExcept.throw error : Drive α) c A :=
  Controller.Abides.pure hc nofun

theorem bind (hx : Drive.Abides T v x c M)
    (hf : ∀ a c', c'.Within T v → M a c' → Drive.Abides T v (f a) c' B) :
    Drive.Abides T v (x >>= f) c B := by
  refine Controller.Abides.bind hx fun r c' hc' hr => ?_
  cases r with
  | ok a => exact hf a c' hc' (hr a rfl)
  | error error => exact throw hc'

/-- An attempt as a step. -/
theorem attempt {y : Attempt α} {M : α → Prop} (hc : c.Within T v) (hy : Attempt.Abides T y M) :
    Drive.Abides T v (liftM y) c fun a c' => M a ∧ c' = c :=
  Proc.Abides.bind hy fun _ hr => Proc.Abides.pure ⟨hc, fun a ha => ⟨hr a ha, rfl⟩⟩

/-- A step that does not use the controller and cannot fail. -/
theorem bind_lift {p : Proc α} {M : α → Prop} (hp : p.Abides T M)
    (hf : ∀ a, M a → Drive.Abides T v (f a) c B) : Drive.Abides T v (liftM p >>= f) c B := by
  refine Proc.Abides.bind (M := fun r : Except Error α × Controller =>
    (∃ a, r.1 = .ok a ∧ M a) ∧ r.2 = c) ?_ ?_
  · refine Proc.Abides.bind (M := fun r : α × Controller => M r.1 ∧ r.2 = c) ?_ ?_
    · exact Proc.Abides.bind hp fun _ h => Proc.Abides.pure ⟨h, rfl⟩
    · exact fun r h => Proc.Abides.pure ⟨⟨r.1, rfl, h.1⟩, h.2⟩
  · rintro ⟨_, _⟩ ⟨⟨a, rfl, h⟩, rfl⟩
    exact hf a h

theorem log {m : Message} (hc : c.Within T v) :
    Drive.Abides T v (liftM (Proc.log m)) c fun _ c' => c' = c :=
  fun _ => ⟨trivial, hc, fun _ _ => rfl⟩

theorem bind_get {f : Controller → Drive β} (hf : Drive.Abides T v (f c) c B) :
    Drive.Abides T v (get >>= f) c B :=
  hf

theorem bind_set {c' : Controller} {f : PUnit → Drive β} (hf : Drive.Abides T v (f ⟨⟩) c' B) :
    Drive.Abides T v (set c' >>= f) c B :=
  hf

theorem set {c' : Controller} {A : PUnit → Controller → Prop} (hc : c'.Within T v)
    (h : A ⟨⟩ c') : Drive.Abides T v (MonadStateOf.set c') c A := by
  refine fun _ => ⟨hc, ?_⟩
  rintro _ ⟨⟩
  exact h

end Drive.Abides

namespace Controller

variable {c : Controller}

/-! ## Plain and addressed commands -/

section Commands

variable (hc : c.Within T v)
include hc

theorem abides_setActiveSlave (slave : UInt8) :
    Drive.Abides T v (setActiveSlave slave) c fun _ _ => slave.toNat < maxSlaves := by
  rw [setActiveSlave]
  split
  · rename_i hlt
    refine .bind_get ?_
    split
    · exact .pure hc hlt
    · refine .bind (.log hc) fun _ _ _ _ => ?_
      exact .set ⟨⟨hc.scratch, hc.room, hc.depth, hc.capacity⟩, hc.vendor, hc.allows⟩ hlt
  · exact .throw hc

theorem abides_waitUntilReady : Drive.Abides T v waitUntilReady c fun _ c' => c' = c :=
  .bind_get ((Drive.Abides.attempt hc (c.bus.abides_waitUntilReady hc.burst_status)).mono
    fun _ _ h => h.2)

theorem abides_send {command : Bytes} (h : T.burst command) :
    Drive.Abides T v (liftM (c.bus.send command)) c fun _ c' => c' = c :=
  (Drive.Abides.attempt hc (c.bus.abides_send fun _ => h)).mono fun _ _ h => h.2

theorem abides_enableWrite : Drive.Abides T v enableWrite c fun _ c' => c' = c := by
  refine .bind_get (abides_send hc (hc.burst_of_head (by cases v <;> decide) ?_))
  exact Nat.le_trans (by decide : 1 ≤ Opcode.headerLen) (Nat.le_of_lt hc.lt_depth)

/-- The sector that was asked for is cached. -/
theorem abides_selectSector (sector : UInt8) :
    Drive.Abides T v (selectSector sector) c fun _ c' => c'.sector = sector := by
  refine .bind_get ?_
  split
  · rename_i hcached
    exact .pure hc hcached
  · refine .bind (abides_enableWrite hc) fun _ c hc _ => .bind_get ?_
    have hburst : T.burst [Opcode.writeSector, sector] :=
      hc.burst_of_head (by cases v <;> decide)
        (Nat.le_trans (by decide : 2 ≤ Opcode.headerLen) (Nat.le_of_lt hc.lt_depth))
    refine .bind (abides_send hc hburst) fun _ c hc _ => ?_
    refine .bind (.log hc) fun _ c hc _ _ => ?_
    exact ⟨⟨⟨hc.scratch, hc.room, hc.depth, hc.capacity⟩, hc.vendor, hc.allows⟩,
      fun _ _ => rfl⟩

/-- The header of a command is at the front of the scratch buffer, and its sector is cached. -/
theorem abides_buildHeader (opcode : UInt8) (a : Address) :
    Drive.Abides T v (buildHeader opcode a) c fun _ c' =>
      a.slave.toNat < maxSlaves ∧ c'.sector = a.sector ∧
        ∃ rest, c'.scratch = opcode :: a.high :: a.middle :: a.low :: rest := by
  refine .bind (abides_setActiveSlave hc a.slave) fun _ c hc hslave => ?_
  refine .bind (abides_selectSector hc a.sector) fun _ c hc hsector => .bind_get ?_
  have hlen : 0 + (opcode :: a.bytes).length ≤ c.scratch.length := by
    rw [hc.scratch, Nat.zero_add]
    exact Nat.le_of_lt hc.lt_depth
  refine .bind_lift (.overwrite (.inr hlen)) fun scratch h => ?_
  obtain ⟨-, rfl⟩ := h
  refine .set (hc.withScratch ?_) ⟨hslave, hsector, _, rfl⟩
  rw [Bytes.length_overwritten hlen, hc.scratch]

/-- The first `n` bytes of the scratch buffer go out as one burst. -/
theorem abides_runScratch {n : Nat} (hn : n ≤ c.scratch.length) (h : T.burst (c.scratch.take n))
    (wanted : Bool) : Drive.Abides T v (runScratch n wanted) c fun _ c' =>
      c'.scratch.length = c.scratch.length ∧ c'.sector = c.sector := by
  refine .bind_get (.bind_lift (.split (.inr hn)) fun r hr => ?_)
  obtain ⟨command, rest⟩ := r
  obtain ⟨hscratch, hlen⟩ := hr
  dsimp only at hscratch hlen ⊢
  rw [hscratch, ← hlen, List.take_left] at h
  refine .bind_lift (c.bus.abides_transaction wanted fun _ => h) fun arrival harrival => ?_
  refine .bind_set ?_
  have hsize : (arrival.into command ++ rest).length = c.scratch.length := by
    rw [hscratch]
    simp only [Arrival.into, List.length_append, List.length_drop]
    omega
  have hwithin := hc.withScratch (hsize.trans hc.scratch)
  cases arrival.outcome with
  | ok _ => exact .pure hwithin ⟨hsize, rfl⟩
  | error e => exact .throw hwithin

/-! ## One burst of data -/

/-- Data that is put behind a header makes the whole command; of what was in the
buffer before nothing is left in it. -/
theorem abides_overwrite_data {opcode high middle low : UInt8} {rest data : Bytes}
    (hscratch : c.scratch = opcode :: high :: middle :: low :: rest)
    (hfits : Opcode.headerLen + data.length ≤ c.scratch.length) :
    (Proc.overwrite Opcode.headerLen data c.scratch).Abides T fun scratch =>
      Within T v { c with scratch } ∧
        scratch.take (Opcode.headerLen + data.length) =
          opcode :: high :: middle :: low :: data := by
  refine (Proc.Abides.overwrite (.inr hfits)).mono fun scratch h => ?_
  obtain ⟨-, rfl⟩ := h
  refine ⟨hc.withScratch ((Bytes.length_overwritten hfits).trans hc.scratch), ?_⟩
  have hheader : c.scratch.take Opcode.headerLen = [opcode, high, middle, low] := by
    rw [hscratch]
    rfl
  rw [hheader]
  exact List.take_left' (by
    simp only [List.length_append, List.length_cons, List.length_nil, Opcode.headerLen])

theorem abides_readChunk (offset : UInt64) {len : Nat} (hlen : T.overrun ∨ len ≤ signedLimit) :
    Drive.Abides T v (readChunk offset len) c fun bytes _ =>
      bytes.length ≤ len ∧ (0 < len → 0 < bytes.length ∧ Addressed offset) := by
  rw [readChunk]
  split
  · exact .pure hc ⟨Nat.zero_le _, fun hpos => by omega⟩
  have hindex := pageIndex_lt offset
  refine .bind_lift (.count (hlen.imp_right fun h => ?_)) fun stop _ => ?_
  · simp only [signedLimit, pageSize, wordLimit] at *
    omega
  split
  · exact .throw hc
  refine .bind (abides_buildHeader hc Opcode.quadRead (Address.ofOffset offset))
    fun _ c hc hheader => .bind_get ?_
  obtain ⟨hslave, -, rest, hscratch⟩ := hheader
  have hroom := hc.room
  have hdepth := hc.depth
  have hscratch_len := hc.scratch
  have hlimit : c.bus.fifoDepth < wordLimit := Nat.lt_of_le_of_lt hdepth (by decide)
  refine .bind_lift (.count (.inr (by omega))) fun dataStart hstart => ?_
  rw [← hstart] at hroom
  dsimp only
  split
  · exact .bind_lift (.count (.inr (by omega))) fun _ _ => .throw hc
  generalize hpayload : min len (c.scratch.length - dataStart) = payload at *
  refine .bind_lift (.count (.inr (by omega))) fun total htotal => ?_
  refine .bind_lift (.slice (.inr (by omega))) fun blankLen hblankLen => ?_
  generalize hblank : Bytes.filled blankLen 0 = blank
  have hblank_len : blank.length = blankLen := by
    rw [← hblank, Bytes.filled, List.length_replicate]
  have hfits : Opcode.headerLen + blank.length ≤ c.scratch.length := by omega
  rw [show total = Opcode.headerLen + blank.length by omega]
  refine .bind_lift (abides_overwrite_data hc hscratch hfits) fun scratch h => .bind_set ?_
  obtain ⟨hc, hcommand⟩ := h
  have hsize : scratch.length = c.scratch.length := hc.scratch.trans hscratch_len.symm
  rw [← hsize] at hfits
  have hburst : T.burst (scratch.take (Opcode.headerLen + blank.length)) := by
    rw [hcommand]
    refine hc.burst_of_head (by cases v <;> decide) ?_
    rw [← hcommand, List.length_take, ← hc.scratch]
    exact Nat.min_le_right _ _
  refine .bind (abides_runScratch hc hfits hburst true) fun _ c₁ hc₁ hkept => .bind_get ?_
  refine .bind_lift (.split (.inr (hkept.1 ▸ hfits))) fun response hresponse => ?_
  refine .bind_lift (.split (.inr (by omega))) fun data hdata => ?_
  have hlen := congrArg List.length hdata.1
  rw [List.length_append, hresponse.2, hdata.2] at hlen
  refine .bind_lift (.slice (.inr (by omega))) fun here hhere => ?_
  refine .bind_lift (.equal (.inr (by omega))) fun _ _ => ?_
  exact .pure hc₁ ⟨by omega, fun hpos => ⟨by omega, hslave⟩⟩

/-- What is programmed is cut to fit one burst and one program page. -/
theorem abides_writeChunk (offset : UInt64) (data : Bytes) :
    Drive.Abides T v (writeChunk offset data) c fun n _ =>
      n ≤ data.length ∧ (data ≠ [] → 0 < n ∧ Addressed offset) := by
  rw [writeChunk_eq]
  split
  · rename_i hempty
    exact .pure hc ⟨Nat.zero_le _, fun hne => absurd (List.isEmpty_iff.mp hempty) hne⟩
  refine .bind_get (.bind (abides_buildHeader hc c.vendor.programOpcode (Address.ofOffset offset))
    fun _ c₁ hc₁ hheader => .bind_get ?_)
  obtain ⟨hslave, -, rest, hscratch⟩ := hheader
  rw [hc.vendor] at hscratch
  have hroom := hc₁.lt_depth
  have hscratch_len := hc₁.scratch
  dsimp only
  generalize hpayload : data.take (min (min (c₁.scratch.length - Opcode.headerLen)
    c₁.tuning.writeMaxLen) (programPageSize - offset.toNat % programPageSize)) = payload
  have hlen := congrArg List.length hpayload
  rw [List.length_take] at hlen
  split
  · exact .throw hc₁
  rename_i hne
  have hpos : 0 < payload.length := by
    rw [List.length_pos_iff]
    exact fun hnil => hne (List.isEmpty_iff.mpr hnil)
  have hfits : Opcode.headerLen + payload.length ≤ c₁.scratch.length := by omega
  refine .bind_lift (abides_overwrite_data hc₁ hscratch hfits) fun scratch h => .bind_set ?_
  obtain ⟨hc₂, hcommand⟩ := h
  have hsize : scratch.length = c₁.scratch.length := hc₂.scratch.trans hscratch_len.symm
  have hburst : T.burst (scratch.take (Opcode.headerLen + payload.length)) := by
    rw [hcommand]
    refine hc₁.allows _ (.of_payload (.of_offset hpos ?_ ?_) (Nat.le_of_lt hroom)) <;> omega
  refine .bind (abides_enableWrite hc₂) fun _ c₃ hc₃ heq => ?_
  subst heq
  refine .bind (abides_runScratch hc₃ (hsize ▸ hfits) hburst false) fun _ c₄ hc₄ _ => ?_
  refine .bind (abides_waitUntilReady hc₄) fun _ c₅ hc₅ _ => ?_
  exact .pure hc₅ ⟨by omega, fun _ => ⟨hpos, hslave⟩⟩

end Commands

end Controller

end NorFlash
