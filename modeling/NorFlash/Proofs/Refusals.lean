import NorFlash.Proofs.Bounds
import NorFlash.Proofs.Payloads

/-!
# Refusals — requests that are turned down touch nothing

Every layer checks the arguments of a request: the bus their lengths, the
controller alignment, sizes and slaves, the flash what remains of the chip. A
request that a check turns down ends with its answer on every block and in every
state. All that it does is log; the controller, the flash and the session stay as
they are, and no byte arrives in the buffer of the caller.

Some checks are behind others. A merge of a page looks at the slave only when it
reads or erases, so the steps ahead of that are shown to go through.
-/

namespace NorFlash

variable {α β : Type} {offset : UInt64} {len : Nat} {data page : Bytes}

/-! ## Procedures that decline -/

namespace Proc

/-- On every block and from every state the procedure ends with `a`, and all it
does is log: no register is read or written, and nobody waits or gives way. -/
def Declines (p : Proc α) (a : α) : Prop :=
  ∀ ⦃σ : Type⦄ (b : RegisterBlock σ) (s : σ),
    (p.run b s).1 = some a ∧ ∀ d ∈ p.deeds b s, ∃ m, d = .line m

/-- What follows a procedure does its deeds after those of the procedure. -/
theorem deeds_bind {σ : Type} {b : RegisterBlock σ} {s t : σ} {p : Proc α} {f : α → Proc β}
    {a : α} (h : p.run b s = (some a, t)) :
    (p.bind f).deeds b s = (f a).deeds b t ++ p.deeds b s := by
  induction p generalizing s with
  | done _ =>
    cases h
    simp [Proc.bind, deeds]
  | trap => cases h
  | read r next ih => simp only [Proc.bind, deeds, ih _ h, List.append_assoc]
  | write r v next ih => simp only [Proc.bind, deeds, ih _ h, List.append_assoc]
  | delay us next ih => simp only [Proc.bind, deeds, ih _ h, List.append_assoc]
  | yield next ih => simp only [Proc.bind, deeds, ih _ h, List.append_assoc]
  | note m next ih => simp only [Proc.bind, deeds, ih _ h, List.append_assoc]

namespace Declines

variable {a : α} {r : β} {c c' : Controller} {e : Error}

theorem pure (a : α) : (Pure.pure a : Proc α).Declines a :=
  fun _ _ _ => ⟨rfl, by simp [pure_eq, deeds]⟩

theorem bind {p : Proc α} {f : α → Proc β} (hp : p.Declines a) (hf : (f a).Declines r) :
    (p >>= f).Declines r := by
  intro σ b s
  obtain ⟨ha, hlines⟩ := hp b s
  have hrun : p.run b s = (some a, (p.run b s).2) := Prod.ext ha rfl
  obtain ⟨hr, hmore⟩ := hf b (p.run b s).2
  constructor
  · rw [bind_eq, run_bind, hrun]
    exact hr
  · rw [bind_eq, deeds_bind hrun]
    intro d hd
    rcases List.mem_append.mp hd with hd | hd
    · exact hmore d hd
    · exact hlines d hd

theorem bind_state {κ : Type} {x : StateT κ Proc α} {f : α → StateT κ Proc β} {k k' : κ}
    {r : β × κ} (hx : (x k).Declines (a, k')) (hf : (f a k').Declines r) :
    ((x >>= f) k).Declines r :=
  bind hx hf

/-- A look at the controller. -/
theorem bind_get {f : Controller → Drive β} {r : Except Error β × Controller}
    (h : ((f c).run c).Declines r) : ((get >>= f : Drive β).run c).Declines r :=
  h

/-- A step that does not use the controller. -/
theorem bind_lift {p : Proc α} {f : α → Drive β} {r : Except Error β × Controller}
    (hp : p.Declines a) (h : ((f a).run c).Declines r) :
    ((liftM p >>= f : Drive β).run c).Declines r :=
  bind (bind (bind hp (pure _)) (pure _)) h

/-- An operation that failed is not gone on with. -/
theorem failed {x : Drive α} {f : α → Drive β} (h : (x.run c).Declines (.error e, c')) :
    ((x >>= f).run c).Declines (.error e, c') :=
  bind h (pure _)

theorem count {n : Nat} (h : n < wordLimit) : (Proc.count n).Declines n := by
  rw [count_eq h]
  exact pure _

theorem advance {n : Nat} (h : offset.toNat + n < wordLimit) :
    (Proc.advance offset n).Declines (UInt64.ofNat (offset.toNat + n)) := by
  rw [Proc.advance, if_pos h]
  exact pure _

theorem overwrite {start : Nat} {new bytes : Bytes} (h : start + new.length ≤ bytes.length) :
    (Proc.overwrite start new bytes).Declines
      (bytes.take start ++ new ++ bytes.drop (start + new.length)) := by
  rw [Proc.overwrite, Bytes.overwrite?_eq_some_iff.mpr ⟨h, rfl⟩]
  exact pure _

theorem log {m : Message} : (Proc.log m).Declines () :=
  fun _ _ _ => ⟨rfl, fun _ hd => ⟨m, List.mem_singleton.mp hd⟩⟩

section Merge

open Controller (Merge)

variable {f : α → Merge β} {r' : (Except Error β × Bytes) × Controller}

/-- An operation of the controller as a step of a merge. -/
theorem merge_step {y : StateT Controller Proc α} (hy : (y c).Declines (a, c'))
    (h : ((f a).run page c').Declines r') : ((liftM y >>= f : Merge β).run page c).Declines r' :=
  bind (bind (bind hy (pure _)) (pure _)) h

theorem merge_lift {p : Proc α} (hp : p.Declines a) (h : ((f a).run page c).Declines r') :
    ((liftM p >>= f : Merge β).run page c).Declines r' :=
  bind (bind (bind (bind hp (pure _)) (pure _)) (pure _)) h

/-- An operation of the controller that failed ends the merge. -/
theorem merge_drive {x : Drive α} (h : (x.run c).Declines (.error e, c')) :
    ((liftM x >>= f : Merge β).run page c).Declines ((.error e, page), c') :=
  bind (bind h (pure _)) (pure _)

theorem merge_get {f : Bytes → Merge β} (h : ((f page).run page c).Declines r') :
    ((get >>= f : Merge β).run page c).Declines r' :=
  h

theorem merge_set {page' : Bytes} {f : PUnit → Merge β} (h : ((f ⟨⟩).run page' c).Declines r') :
    ((set page' >>= f : Merge β).run page c).Declines r' :=
  h

theorem merge_failed {x : Merge α} (h : (x.run page c).Declines ((.error e, page), c')) :
    ((x >>= f).run page c).Declines ((.error e, page), c') :=
  bind h (pure _)

end Merge

end Declines

end Proc

/-- Nothing arrives with a refusal: the buffer stays as it is. -/
theorem Arrival.into_refused (e : Error) (buffer : Bytes) :
    (Arrival.refused e).into buffer = buffer :=
  rfl

/-! ## The bus -/

namespace Bus

/-- Requests that the bus turns down: a burst must fit the FIFO, and what is
received must fit its buffer. -/
structure Guarded (b : Bus) : Prop where
  transaction : ∀ command wanted, b.fifoDepth < command.length →
    (b.transaction command wanted).Declines
      (.refused (.transferTooLarge command.length b.fifoDepth))
  send : ∀ command, b.fifoDepth < command.length →
    (b.send command).run.Declines (.error (.transferTooLarge command.length b.fifoDepth))
  exchange : ∀ command, b.fifoDepth < command.length →
    (b.exchange command).run.Declines (.error (.transferTooLarge command.length b.fifoDepth))
  transmit : ∀ bytes, b.fifoDepth < bytes.length →
    (b.transmit bytes).run.Declines (.error (.transferTooLarge bytes.length b.fifoDepth))
  receive : ∀ capacity len, capacity < len →
    (Bus.receive capacity len).Declines (.refused (.bufferTooSmall len capacity))

theorem declines_transaction {b : Bus} {command : Bytes} (h : b.fifoDepth < command.length)
    (wanted : Bool) :
    (b.transaction command wanted).Declines
      (.refused (.transferTooLarge command.length b.fifoDepth)) := by
  rw [transaction, if_pos h]
  exact .pure _

theorem guarded (b : Bus) : b.Guarded where
  transaction _ wanted h := declines_transaction h wanted
  send _ h := .bind (declines_transaction h false) (.pure _)
  exchange _ h := .bind (.bind (declines_transaction h true) (.pure _)) (.pure _)
  transmit _ h := by
    rw [transmit, if_pos h]
    exact .pure _
  receive _ _ h := by
    rw [receive, if_pos h]
    exact .pure _

end Bus

/-! ## The controller -/

/-- What an offset is refused with if no slave is there. -/
def strayError (offset : UInt64) : Error :=
  .slaveOutOfRange (Address.ofOffset offset).slave

namespace Controller

/-- On every block the operation ends at once with `r`, and the controller stays as
it is. -/
def Declines (c : Controller) (x : StateT Controller Proc α) (r : α) : Prop :=
  (x c).Declines (r, c)

variable {c : Controller}

theorem declines_setActiveSlave {slave : UInt8} (h : ¬ slave.toNat < maxSlaves) :
    c.Declines (setActiveSlave slave).run (.error (.slaveOutOfRange slave)) := by
  rw [setActiveSlave, if_neg h]
  exact .pure _

theorem declines_buildHeader {a : Address} (h : ¬ a.slave.toNat < maxSlaves) (opcode : UInt8) :
    c.Declines (buildHeader opcode a).run (.error (.slaveOutOfRange a.slave)) :=
  .failed (declines_setActiveSlave h)

theorem declines_readChunk_crossing (hlen : 0 < len)
    (h : pageSize < pageIndex offset + len) (hfits : pageIndex offset + len < wordLimit) :
    c.Declines (readChunk offset len).run (.error .crossesPageBoundary) := by
  rw [readChunk, if_neg (Nat.ne_of_gt hlen)]
  refine .bind_lift (.count hfits) ?_
  rw [if_pos h]
  exact .pure _

theorem declines_readChunk_stray (hlen : 0 < len) (hpage : pageIndex offset + len ≤ pageSize)
    (h : ¬ Addressed offset) :
    c.Declines (readChunk offset len).run (.error (strayError offset)) := by
  rw [readChunk, if_neg (Nat.ne_of_gt hlen)]
  refine .bind_lift (.count (Nat.lt_of_le_of_lt hpage (by decide))) ?_
  rw [if_neg (Nat.not_lt.mpr hpage)]
  exact .failed (declines_buildHeader h _)

theorem declines_writeChunk_stray (hdata : data ≠ []) (h : ¬ Addressed offset) :
    c.Declines (writeChunk offset data).run (.error (strayError offset)) := by
  rw [writeChunk_eq, if_neg (by simpa using hdata)]
  exact .bind_get (.failed (declines_buildHeader h _))

theorem declines_bulkRead_stray (hlen : 0 < len) (h : ¬ Addressed offset) :
    c.Declines (bulkRead offset len) (.refused (strayError offset)) := by
  obtain ⟨left, rfl⟩ : ∃ left, len = left + 1 := ⟨len - 1, by omega⟩
  have hstart : offset.toNat + 0 < wordLimit := offset.toNat_lt
  have hsame : UInt64.ofNat (offset.toNat + 0) = offset := by simp
  have hindex : pageIndex offset < pageSize := Nat.mod_lt _ pageSize_pos
  have hon : c.Declines (readOn offset (left + 1) (left + 1) 0 [])
      (.refused (strayError offset)) := by
    rw [readOn_succ]
    refine .bind_state (.bind (.advance hstart) (.pure _)) ?_
    rw [hsame]
    refine .bind_state (.bind (.count ?_) (.pure _)) ?_
    · simp only [pageSize, wordLimit] at *
      omega
    refine .bind_state (declines_readChunk_stray ?_ ?_ h) (.pure _)
    · omega
    · omega
  exact .bind_state hon (.pure _)

theorem declines_bulkWrite_stray (hdata : data ≠ []) (h : ¬ Addressed offset) :
    c.Declines (bulkWrite offset data).run (.error (strayError offset)) := by
  cases data with
  | nil => exact absurd rfl hdata
  | cons byte more =>
    have hstart : offset.toNat + 0 < wordLimit := offset.toNat_lt
    have hsame : UInt64.ofNat (offset.toNat + 0) = offset := by simp
    refine .failed (.bind_lift (.advance hstart) ?_)
    rw [hsame]
    exact .failed (declines_writeChunk_stray (List.cons_ne_nil _ _) h)

theorem declines_eraseUnit_misaligned {unit : EraseUnit} (h : unit.isAligned offset = false) :
    c.Declines (eraseUnit offset unit).run (.error .invalidAlignment) := by
  rw [eraseUnit, h]
  exact .bind_lift .log (.pure _)

theorem declines_eraseUnit_stray {unit : EraseUnit} (haligned : unit.isAligned offset = true)
    (h : ¬ Addressed offset) :
    c.Declines (eraseUnit offset unit).run (.error (strayError offset)) := by
  rw [eraseUnit, if_pos haligned]
  exact .failed (declines_setActiveSlave h)

theorem declines_erase_size {size : Nat} (h : ∀ unit : EraseUnit, size ≠ unit.bytes) :
    c.Declines (erase offset size).run (.error (.invalidEraseSize size)) := by
  have hnone : EraseUnit.ofBytes? size = none :=
    Option.eq_none_iff_forall_ne_some.mpr fun unit hunit =>
      h unit (EraseUnit.ofBytes?_eq_some_iff.mp hunit)
  rw [erase, hnone]
  exact .bind_lift .log (.pure _)

theorem erase_bytes (offset : UInt64) (unit : EraseUnit) :
    erase offset unit.bytes = eraseUnit offset unit := by
  rw [erase, EraseUnit.ofBytes?_eq_some_iff.mpr rfl]

theorem declines_rewriteUnit_stray {unit : EraseUnit}
    (hunit : EraseUnit.forSpan? offset data.length = some unit) (h : ¬ Addressed offset) :
    c.Declines (rewriteUnit offset data).run (.error (strayError offset)) := by
  rw [rewriteUnit, hunit]
  exact .failed (declines_eraseUnit_stray (EraseUnit.of_forSpan? hunit).1 h)

/-! ### Merging a page -/

/-- A page belongs to one slave. -/
theorem slave_of_page (offset : UInt64) {p : UInt64} {n : Nat} (hn : n < pageSize)
    (hp : p.toNat = (pageStart offset).toNat + n) :
    (Address.ofOffset p).slave = (Address.ofOffset offset).slave := by
  have hmod := Nat.mod_lt offset.toNat pageSize_pos
  rw [pageStart_toNat] at hp
  simp only [Address.ofOffset, pageSize, Address.slaveWeight] at *
  congr 1
  omega

theorem isAligned_pageStart (offset : UInt64) :
    EraseUnit.page.isAligned (pageStart offset) = true := by
  rw [EraseUnit.isAligned, pageStart_toNat, beq_iff_eq, EraseUnit.bytes, pageSize]
  omega

theorem declines_readInto_stray {start stop : Nat} (hstart : start < stop) (hstop : stop ≤ pageSize)
    (hpage : page.length = pageSize) (h : ¬ Addressed offset) :
    ((readInto offset start stop).run page c).Declines ((.error (strayError offset), page), c) := by
  have hwrite : (Proc.overwrite start [] page).Declines
      (page.take start ++ [] ++ page.drop (start + 0)) :=
    .overwrite (by rw [List.length_nil]; omega)
  rw [List.append_nil, Nat.add_zero, List.take_append_drop] at hwrite
  rw [readInto_eq offset (Nat.le_of_lt hstart) hstop]
  exact .merge_step (declines_bulkRead_stray (Nat.sub_pos_of_lt hstart) h)
    (.merge_get (.merge_lift hwrite (.merge_set (.pure _))))

/-- The slave is looked at when the bytes around the data are read, and where the
data fill the page when it is erased. -/
theorem declines_mergePage_stray (hdata : data ≠ []) (hpage : page.length = pageSize)
    (h : ¬ Addressed offset) :
    ((mergePage offset data).run page c).Declines
      ((.error (strayError offset),
        if pageIndex offset = 0 ∧ pageSize ≤ data.length then data.take pageSize else page),
        c) := by
  have hindex : pageIndex offset < pageSize := Nat.mod_lt _ pageSize_pos
  have hbase : ¬ Addressed (pageStart offset) := fun h' => h h'.of_pageStart
  have herror : strayError (pageStart offset) = strayError offset :=
    congrArg Error.slaveOutOfRange (slave_of_page offset (n := 0) pageSize_pos rfl)
  rw [mergePage_eq, if_neg (by simpa using hdata)]
  dsimp only
  generalize hhere : data.take (pageSize - pageIndex offset) = here
  have hlen := congrArg List.length hhere
  rw [List.length_take] at hlen
  by_cases hfront : 0 < pageIndex offset
  · have hpart : ¬ (pageIndex offset = 0 ∧ pageSize ≤ data.length) := by omega
    rw [if_neg hpart, if_pos hfront, ← herror]
    exact .merge_failed (declines_readInto_stray hfront (Nat.le_of_lt hindex) hpage hbase)
  have hzero : pageIndex offset = 0 := by omega
  rw [hzero, Nat.sub_zero] at hhere
  rw [if_neg hfront, hzero]
  by_cases hback : 0 + here.length < pageSize
  · have hpart : ¬ (0 = 0 ∧ pageSize ≤ data.length) := by omega
    have hword : (pageStart offset).toNat + (0 + here.length) < wordLimit := by
      have hlt := offset.toNat_lt
      rw [pageStart_toNat]
      simp only [pageSize, wordLimit] at *
      omega
    have hslave := slave_of_page offset hback (UInt64.toNat_ofNat_of_lt hword)
    rw [if_neg hpart, if_pos hback]
    refine .merge_lift (.advance hword) (.merge_failed ?_)
    rw [strayError, ← hslave]
    refine declines_readInto_stray hback (Nat.le_refl _) hpage fun h' => h ?_
    rw [Addressed, ← hslave]
    exact h'
  · have hwhole : 0 = 0 ∧ pageSize ≤ data.length := by omega
    have hfits : 0 + here.length ≤ page.length := by omega
    have hpage' : page.take 0 ++ here ++ page.drop (0 + here.length) = data.take pageSize := by
      rw [List.drop_eq_nil_of_le (by omega), ← hhere]
      simp
    rw [if_pos hwhole, if_neg hback, ← herror, ← hpage']
    refine .merge_get (.merge_lift (.overwrite hfits) (.merge_set (.merge_drive ?_)))
    exact declines_eraseUnit_stray (isAligned_pageStart offset) hbase

/-- Where no unit fits, the data do not fill a page. -/
theorem not_whole_of_forSpan?_none (h : EraseUnit.forSpan? offset data.length = none) :
    ¬ (pageIndex offset = 0 ∧ pageSize ≤ data.length) := by
  rintro ⟨hindex, hlen⟩
  have hpage := List.find?_eq_none.mp h .page (by decide)
  have haligned : EraseUnit.page.isAligned offset = true := by
    rw [EraseUnit.isAligned, beq_iff_eq]
    exact hindex
  rw [haligned, Bool.true_and, decide_eq_true_eq] at hpage
  exact hpage hlen

theorem declines_programPage_stray (hdata : data ≠ []) (hpage : page.length = pageSize)
    (h : ¬ Addressed offset) :
    ((programPage offset data).run page c).Declines ((.error (strayError offset), page), c) := by
  cases hunit : EraseUnit.forSpan? offset data.length with
  | some unit => exact .merge_drive (declines_rewriteUnit_stray hunit h)
  | none =>
    have hmerge := declines_mergePage_stray (c := c) hdata hpage h
    rw [if_neg (not_whole_of_forSpan?_none hunit)] at hmerge
    have hrewrite : c.Declines (rewriteUnit offset data).run (.ok none) := by
      rw [rewriteUnit, hunit]
      exact .pure _
    exact .bind (.bind hrewrite (.pure _)) hmerge

/-- Requests that a controller turns down: erasing must start at a unit and take a
unit, one burst reads from one page, and the slave must exist. The end of what is read is
counted in 64 bits, which no buffer exceeds. -/
structure Guarded (c : Controller) : Prop where
  setActiveSlave : ∀ slave, maxSlaves ≤ slave.toNat →
    c.Declines (setActiveSlave slave).run (.error (.slaveOutOfRange slave))
  buildHeader : ∀ opcode a, maxSlaves ≤ a.slave.toNat →
    c.Declines (buildHeader opcode a).run (.error (.slaveOutOfRange a.slave))
  readChunk_empty : ∀ offset, c.Declines (readChunk offset 0).run (.ok [])
  readChunk_crossing : ∀ offset len, 0 < len → pageSize < pageIndex offset + len →
    pageIndex offset + len < wordLimit →
    c.Declines (readChunk offset len).run (.error .crossesPageBoundary)
  readChunk_stray : ∀ offset len, 0 < len → pageIndex offset + len ≤ pageSize →
    ¬ Addressed offset → c.Declines (readChunk offset len).run (.error (strayError offset))
  writeChunk_empty : ∀ offset, c.Declines (writeChunk offset []).run (.ok 0)
  writeChunk_stray : ∀ offset data, data ≠ [] → ¬ Addressed offset →
    c.Declines (writeChunk offset data).run (.error (strayError offset))
  bulkRead_stray : ∀ offset len, 0 < len → ¬ Addressed offset →
    c.Declines (bulkRead offset len) (.refused (strayError offset))
  bulkWrite_stray : ∀ offset data, data ≠ [] → ¬ Addressed offset →
    c.Declines (bulkWrite offset data).run (.error (strayError offset))
  erase_size : ∀ offset size, (∀ unit : EraseUnit, size ≠ unit.bytes) →
    c.Declines (erase offset size).run (.error (.invalidEraseSize size))
  erase_misaligned : ∀ offset (unit : EraseUnit), unit.isAligned offset = false →
    c.Declines (erase offset unit.bytes).run (.error .invalidAlignment)
  erase_stray : ∀ offset (unit : EraseUnit), unit.isAligned offset = true → ¬ Addressed offset →
    c.Declines (erase offset unit.bytes).run (.error (strayError offset))
  eraseUnit_misaligned : ∀ offset (unit : EraseUnit), unit.isAligned offset = false →
    c.Declines (eraseUnit offset unit).run (.error .invalidAlignment)
  eraseUnit_stray : ∀ offset (unit : EraseUnit), unit.isAligned offset = true → ¬ Addressed offset →
    c.Declines (eraseUnit offset unit).run (.error (strayError offset))
  rewriteUnit_stray : ∀ offset data, (EraseUnit.forSpan? offset data.length).isSome →
    ¬ Addressed offset → c.Declines (rewriteUnit offset data).run (.error (strayError offset))
  mergePage_stray : ∀ offset data page, data ≠ [] → page.length = pageSize →
    ¬ Addressed offset → c.Declines ((mergePage offset data).run page)
      (.error (strayError offset),
        if pageIndex offset = 0 ∧ pageSize ≤ data.length then data.take pageSize else page)
  programPage_stray : ∀ offset data page, data ≠ [] → page.length = pageSize →
    ¬ Addressed offset →
    c.Declines ((programPage offset data).run page) (.error (strayError offset), page)

theorem guarded (c : Controller) : c.Guarded where
  setActiveSlave _ h := declines_setActiveSlave (Nat.not_lt.mpr h)
  buildHeader opcode _ h := declines_buildHeader (Nat.not_lt.mpr h) opcode
  readChunk_empty _ := .pure _
  readChunk_crossing _ _ := declines_readChunk_crossing
  readChunk_stray _ _ := declines_readChunk_stray
  writeChunk_empty _ := .pure _
  writeChunk_stray _ _ := declines_writeChunk_stray
  bulkRead_stray _ _ := declines_bulkRead_stray
  bulkWrite_stray _ _ := declines_bulkWrite_stray
  erase_size _ _ := declines_erase_size
  erase_misaligned _ unit h := by
    rw [erase_bytes]
    exact declines_eraseUnit_misaligned h
  erase_stray _ unit haligned h := by
    rw [erase_bytes]
    exact declines_eraseUnit_stray haligned h
  eraseUnit_misaligned _ _ := declines_eraseUnit_misaligned
  eraseUnit_stray _ _ := declines_eraseUnit_stray
  rewriteUnit_stray _ _ hunit h := by
    obtain ⟨unit, hunit⟩ := Option.isSome_iff_exists.mp hunit
    exact declines_rewriteUnit_stray hunit h
  mergePage_stray _ _ _ := declines_mergePage_stray
  programPage_stray _ _ _ := declines_programPage_stray

end Controller

/-! ## The flash -/

namespace Flash

/-- On every block the operation ends at once with `r`, and the flash stays as it
is. -/
def Declines (f : Flash) (x : FlashProc α) (r : α) : Prop :=
  (x f).Declines (r, f)

variable {f : Flash} {p : UInt64}

/-- A request that the controller turns down is turned down by the flash. -/
theorem Declines.onController {x : StateT Controller Proc α} {r : α}
    (h : f.controller.Declines x r) : f.Declines (onController x) r :=
  .bind h (.pure _)

/-- A line may be logged before. -/
theorem Declines.log {m : Message} {x : FlashProc α} {r : α} (h : f.Declines x r) :
    f.Declines (do Proc.log m; x) r :=
  .bind_state (.bind .log (.pure _)) h

theorem declines_prepare_stray {c : Controller} (h : ¬ Addressed p) :
    c.Declines (prepare p).run (.error (strayError p)) :=
  .failed (Controller.declines_setActiveSlave h)

theorem declines_read_nothing (h : len = 0 ∨ f.remaining p = 0) :
    f.Declines (read p len) ⟨[], .ok ()⟩ := by
  rw [Declines, read, FlashProc.get_bind, if_pos (by omega)]
  exact .pure _

theorem declines_read_stray (hlen : 0 < len) (hleft : 0 < f.remaining p) (h : ¬ Addressed p) :
    f.Declines (read p len) (.refused (strayError p)) := by
  rw [Declines, read, FlashProc.get_bind, if_neg (by omega)]
  exact Declines.log (Declines.onController (.bind (declines_prepare_stray h) (.pure _)))

theorem declines_readAt_beyond (h : f.remaining p < len) :
    f.Declines (readAt p len) (.refused .addressOutOfBounds) := by
  rw [Declines, readAt, FlashProc.get_bind, if_pos h]
  exact .pure _

theorem readAt_of_le (h : len ≤ f.remaining p) : readAt p len f = read p len f := by
  rw [readAt, FlashProc.get_bind, if_neg (Nat.not_lt.mpr h)]

theorem declines_write_nothing (h : data = [] ∨ f.remaining p = 0) :
    f.Declines (write p data) (.error ⟨0, .noSpace⟩) := by
  have hnone : (data.take (f.remaining p)).isEmpty = true := by
    rcases h with rfl | h
    · rw [List.take_nil]; rfl
    · rw [h, List.take_zero]; rfl
  rw [Declines, write, FlashProc.get_bind]
  rw [if_pos hnone]
  exact .pure _

theorem declines_write_stray (hdata : data ≠ []) (hleft : 0 < f.remaining p)
    (h : ¬ Addressed p) : f.Declines (write p data) (.error ⟨0, strayError p⟩) := by
  have hsome : ¬ (data.take (f.remaining p)).isEmpty = true := by
    rw [List.isEmpty_iff, List.take_eq_nil_iff]
    rintro (hzero | hnil)
    · omega
    · exact hdata hnil
  rw [Declines, write, FlashProc.get_bind]
  rw [if_neg hsome]
  exact Declines.log (Declines.onController (.bind (declines_prepare_stray h) (.pure _)))

theorem declines_erase_beyond {size : Nat} (h : f.remaining p < size) :
    f.Declines (erase p size) (.error .addressOutOfBounds) := by
  rw [Declines, erase, FlashProc.get_bind, if_pos h]
  exact .pure _

/-- An erase that stays inside the chip is the controller's to turn down. -/
theorem declines_erase {size : Nat} {e : Error} (h : size ≤ f.remaining p)
    (he : f.controller.Declines (Controller.erase p size).run (.error e)) :
    f.Declines (erase p size) (.error e) := by
  rw [Declines, erase, FlashProc.get_bind, if_neg (Nat.not_lt.mpr h)]
  exact Declines.onController he

/-- Requests that a flash turns down: there must be something to do and room for it
on the chip, and beyond that what its controller asks for. -/
structure Guarded (f : Flash) : Prop where
  read_nothing : ∀ p len, len = 0 ∨ f.remaining p = 0 → f.Declines (read p len) ⟨[], .ok ()⟩
  read_stray : ∀ p len, 0 < len → 0 < f.remaining p → ¬ Addressed p →
    f.Declines (read p len) (.refused (strayError p))
  readAt_nothing : ∀ p, f.Declines (readAt p 0) ⟨[], .ok ()⟩
  readAt_beyond : ∀ p len, f.remaining p < len →
    f.Declines (readAt p len) (.refused .addressOutOfBounds)
  readAt_stray : ∀ p len, 0 < len → len ≤ f.remaining p → ¬ Addressed p →
    f.Declines (readAt p len) (.refused (strayError p))
  write_nothing : ∀ p data, data = [] ∨ f.remaining p = 0 →
    f.Declines (write p data) (.error ⟨0, .noSpace⟩)
  write_stray : ∀ p data, data ≠ [] → 0 < f.remaining p → ¬ Addressed p →
    f.Declines (write p data) (.error ⟨0, strayError p⟩)
  erase_beyond : ∀ p size, f.remaining p < size →
    f.Declines (erase p size) (.error .addressOutOfBounds)
  erase_size : ∀ p size, size ≤ f.remaining p → (∀ unit : EraseUnit, size ≠ unit.bytes) →
    f.Declines (erase p size) (.error (.invalidEraseSize size))
  erase_misaligned : ∀ p (unit : EraseUnit), unit.bytes ≤ f.remaining p →
    unit.isAligned p = false → f.Declines (erase p unit.bytes) (.error .invalidAlignment)
  erase_stray : ∀ p (unit : EraseUnit), unit.bytes ≤ f.remaining p →
    unit.isAligned p = true → ¬ Addressed p →
    f.Declines (erase p unit.bytes) (.error (strayError p))

theorem guarded (f : Flash) : f.Guarded where
  read_nothing _ _ := declines_read_nothing
  read_stray _ _ := declines_read_stray
  readAt_nothing p := by
    rw [Declines, readAt_of_le (Nat.zero_le _)]
    exact declines_read_nothing (.inl rfl)
  readAt_beyond _ _ := declines_readAt_beyond
  readAt_stray p len hlen hleft h := by
    rw [Declines, readAt_of_le hleft]
    exact declines_read_stray hlen (Nat.lt_of_lt_of_le hlen hleft) h
  write_nothing _ _ := declines_write_nothing
  write_stray _ _ := declines_write_stray
  erase_beyond _ _ := declines_erase_beyond
  erase_size _ _ hleft hsize := declines_erase hleft (f.controller.guarded.erase_size _ _ hsize)
  erase_misaligned _ _ hleft h :=
    declines_erase hleft (f.controller.guarded.erase_misaligned _ _ h)
  erase_stray _ _ hleft haligned h :=
    declines_erase hleft (f.controller.guarded.erase_stray _ _ haligned h)

end Flash

/-! ## Sessions -/

namespace Session

/-- On every block the call ends at once with `r`; the session stays where it is, and
the flash stays as it is. -/
def Declines (s : Session) (f : Flash) (x : Call α) (r : α) : Prop :=
  (x s f).Declines ((r, s), f)

variable {s : Session} {f : Flash}

theorem Declines.pure (r : α) : s.Declines f (Pure.pure r) r := Proc.Declines.pure _

theorem Declines.bind {x : Call α} {g : α → Call β} {a : α} {r : β} (hx : s.Declines f x a)
    (hg : s.Declines f (g a) r) : s.Declines f (x >>= g) r :=
  Proc.Declines.bind hx hg

theorem Declines.bind_get {g : Session → Call β} {r : β} (h : s.Declines f (g s) r) :
    s.Declines f (get >>= g) r :=
  h

/-- A request that the flash turns down as a step. -/
theorem Declines.flash {x : FlashProc α} {r : α} (h : f.Declines x r) :
    s.Declines f (liftM x) r :=
  Proc.Declines.bind h (.pure _)

/-- After nothing the position is where it was. -/
theorem declines_advance_zero : s.Declines f (advance 0) () := by
  have hstart : s.position.toNat + 0 < wordLimit := s.position.toNat_lt
  have hsame : UInt64.ofNat (s.position.toNat + 0) = s.position := by simp
  have hadvance := Proc.Declines.advance hstart
  rw [hsame] at hadvance
  exact .bind_get (Proc.Declines.bind
    (Proc.Declines.bind (Proc.Declines.bind hadvance (.pure _)) (.pure _)) (.pure _))

theorem declines_read_nothing (h : len = 0 ∨ f.remaining s.position = 0) :
    s.Declines f (read len) ⟨[], .ok ()⟩ :=
  .bind_get (.bind (.flash (Flash.declines_read_nothing h))
    (.bind declines_advance_zero (.pure _)))

/-- A read that the flash refuses is refused. -/
theorem declines_read {e : Error}
    (h : f.Declines (Flash.read s.position len) (.refused e)) :
    s.Declines f (read len) (.refused e) :=
  .bind_get (.bind (.flash h) (.pure _))

/-- A write that the flash refuses is refused with the same cause. -/
theorem declines_write {e : Error}
    (h : f.Declines (Flash.write s.position data) (.error ⟨0, e⟩)) :
    s.Declines f (write data) (.error (.driver e)) :=
  .bind_get (.bind (.flash h) (.pure _))

/-- So is a write of all of the data. -/
theorem declines_writeAll {e : IoError} (hdata : data ≠ [])
    (h : s.Declines f (write data) (.error e)) : s.Declines f (writeAll data) (.error e) := by
  cases data with
  | nil => exact absurd rfl hdata
  | cons byte more => exact .bind h (.pure _)

/-- Requests that a session turns down: those that the flash turns down at its
position. -/
structure Guarded (s : Session) (f : Flash) : Prop where
  read_nothing : ∀ len, len = 0 ∨ f.remaining s.position = 0 →
    s.Declines f (read len) ⟨[], .ok ()⟩
  read_stray : ∀ len, 0 < len → 0 < f.remaining s.position → ¬ Addressed s.position →
    s.Declines f (read len) (.refused (strayError s.position))
  write_nothing : ∀ data, data = [] ∨ f.remaining s.position = 0 →
    s.Declines f (write data) (.error (.driver .noSpace))
  write_stray : ∀ data, data ≠ [] → 0 < f.remaining s.position → ¬ Addressed s.position →
    s.Declines f (write data) (.error (.driver (strayError s.position)))
  writeAll_nothing : ∀ data, data ≠ [] → f.remaining s.position = 0 →
    s.Declines f (writeAll data) (.error (.driver .noSpace))
  writeAll_stray : ∀ data, data ≠ [] → 0 < f.remaining s.position → ¬ Addressed s.position →
    s.Declines f (writeAll data) (.error (.driver (strayError s.position)))

theorem guarded (s : Session) (f : Flash) : s.Guarded f where
  read_nothing _ := declines_read_nothing
  read_stray _ hlen hleft h := declines_read (f.guarded.read_stray _ _ hlen hleft h)
  write_nothing _ h := declines_write (f.guarded.write_nothing _ _ h)
  write_stray _ hdata hleft h := declines_write (f.guarded.write_stray _ _ hdata hleft h)
  writeAll_nothing _ hdata h :=
    declines_writeAll hdata (declines_write (f.guarded.write_nothing _ _ (.inr h)))
  writeAll_stray _ hdata hleft h :=
    declines_writeAll hdata (declines_write (f.guarded.write_stray _ _ hdata hleft h))

end Session

/-- **A request that a check of its arguments turns down touches nothing.** On every
block and in every state it ends with its answer without a register access, a wait
or a yield; it leaves the controller with its slave, sector and scratch buffer, the
flash and the session as they are, and the buffer of the caller, too. -/
theorem refusals_touch_nothing :
    (∀ b : Bus, b.Guarded) ∧ (∀ c : Controller, c.Guarded) ∧ (∀ f : Flash, f.Guarded) ∧
      (∀ (s : Session) (f : Flash), s.Guarded f) ∧
      ∀ (e : Error) (buffer : Bytes), (Arrival.refused e).into buffer = buffer :=
  ⟨Bus.guarded, Controller.guarded, Flash.guarded, Session.guarded, Arrival.into_refused⟩

end NorFlash
