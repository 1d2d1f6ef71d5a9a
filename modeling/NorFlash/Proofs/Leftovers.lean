import NorFlash.Emulator
import NorFlash.Flash
import NorFlash.Proofs.Location
import NorFlash.Proofs.Lockstep
import NorFlash.Proofs.Outcome

/-!
# Leftovers — what is left in buffers has no effect

The scratch buffer of a controller and the page buffer of a merge are used again
and again, also after an operation failed halfway. What is left in them never
reaches the flash or the caller: every command is made of its header, of fillers
and of the caller's data, and a merged page of what was read back and of the
caller's data. So two runs that differ in leftovers only go in lockstep.
-/

namespace NorFlash

variable {α β σ : Type} {c c' : Controller} {offset : UInt64}

namespace Controller

/-! ## Commands -/

/-- The scratch buffers agree in their first `n` bytes. -/
def Agree (n : Nat) (c c' : Controller) : Prop :=
  c.scratch.take n = c'.scratch.take n

/-- Data that is put behind a header that agrees agrees, too. -/
theorem alike_overwrite_data {data scratch : Bytes} (hlen : scratch.length = c.scratch.length)
    (hagree : Agree Opcode.headerLen c { c with scratch }) :
    (Proc.overwrite Opcode.headerLen data c.scratch).Alike
      (fun r r' => Alike { c with scratch := r } { c with scratch := r' } ∧
        Agree (Opcode.headerLen + data.length) { c with scratch := r } { c with scratch := r' })
      (Proc.overwrite Opcode.headerLen data scratch) := by
  refine (Proc.Alike.overwrite Opcode.headerLen data hlen).mono ?_
  rintro _ _ ⟨hfits, rfl, rfl⟩
  have hagree : c.scratch.take Opcode.headerLen = scratch.take Opcode.headerLen := hagree
  have htotal : (scratch.take Opcode.headerLen ++ data).length =
      Opcode.headerLen + data.length := by
    rw [List.length_append, List.length_take]
    omega
  refine ⟨⟨_, by simp [hlen], rfl⟩, ?_⟩
  show (c.scratch.take Opcode.headerLen ++ data ++ _).take _ = (_ ++ data ++ _).take _
  rw [hagree]
  exact (List.take_left' htotal).trans (List.take_left' htotal).symm

section Commands

variable (hc : c.Alike c')
include hc

theorem lockstep_setActiveSlave (slave : UInt8) :
    Drive.Lockstep (setActiveSlave slave) (setActiveSlave slave) c c' fun _ _ _ => True := by
  obtain ⟨scratch, hlen, rfl⟩ := hc
  rw [setActiveSlave]
  split
  · refine .bind_get ?_
    dsimp only
    split
    · exact .pure ⟨scratch, hlen, rfl⟩ trivial
    · refine .bind_lift fun _ => ?_
      exact .set ⟨scratch, hlen, rfl⟩ trivial
  · exact .throw ⟨scratch, hlen, rfl⟩

/-- What the bus does depends on the bus only. -/
theorem lockstep_bus {y : Bus → Attempt α} :
    Drive.Lockstep (do y (← get).bus) (do y (← get).bus) c c' fun _ d d' => d = c ∧ d' = c' := by
  obtain ⟨scratch, hlen, rfl⟩ := hc
  exact .bind_get (.attempt ⟨scratch, hlen, rfl⟩)

theorem lockstep_waitUntilReady :
    Drive.Lockstep waitUntilReady waitUntilReady c c' fun _ _ _ => True :=
  (lockstep_bus hc).mono fun _ _ _ _ => trivial

theorem lockstep_enableWrite :
    Drive.Lockstep enableWrite enableWrite c c' fun _ d d' => d = c ∧ d' = c' :=
  lockstep_bus hc

theorem lockstep_selectSector (sector : UInt8) :
    Drive.Lockstep (selectSector sector) (selectSector sector) c c' fun _ _ _ => True := by
  obtain ⟨scratch, hlen, rfl⟩ := hc
  refine .bind_get ?_
  dsimp only
  split
  · exact .pure ⟨scratch, hlen, rfl⟩ trivial
  · refine .bind (lockstep_enableWrite ⟨scratch, hlen, rfl⟩) fun _ c c' hc _ => .bind_get ?_
    obtain ⟨scratch, hlen, rfl⟩ := hc
    refine .bind (.attempt ⟨scratch, hlen, rfl⟩) fun _ c c' hc _ => .bind_lift fun _ => ?_
    obtain ⟨scratch, hlen, rfl⟩ := hc
    exact .done ⟨rfl, ⟨scratch, hlen, rfl⟩, fun _ _ => trivial⟩

/-- A header takes the place of what was at the front of the scratch buffer. -/
theorem lockstep_buildHeader (opcode : UInt8) (a : Address) :
    Drive.Lockstep (buildHeader opcode a) (buildHeader opcode a) c c'
      fun _ => Agree Opcode.headerLen := by
  refine .bind (lockstep_setActiveSlave hc _) fun _ c c' hc _ => ?_
  refine .bind (lockstep_selectSector hc _) fun _ c c' hc _ => .bind_get ?_
  obtain ⟨scratch, hlen, rfl⟩ := hc
  refine .bind_alike (.overwrite 0 _ hlen) ?_
  rintro _ _ ⟨hfits, rfl, rfl⟩
  refine .set ⟨_, ?_, rfl⟩ rfl
  simp [hlen]

/-- Only the first `n` bytes of the scratch buffer go out. -/
theorem lockstep_runScratch {n : Nat} (hagree : Agree n c c') (wanted : Bool) :
    Drive.Lockstep (runScratch n wanted) (runScratch n wanted) c c' fun _ => Agree n := by
  obtain ⟨scratch, hlen, rfl⟩ := hc
  refine .bind_get (.bind_alike (.split n hlen) ?_)
  rintro ⟨command, rest⟩ ⟨command', rest'⟩ ⟨⟨hcommand, hrest, hcommand', hrest'⟩, hfits⟩
  dsimp only at hcommand hrest hcommand' hrest' ⊢
  obtain rfl : command = command' := hcommand.trans (hagree.trans hcommand'.symm)
  refine .bind_lift fun arrival => .bind_set ?_
  have hlong : n ≤ (arrival.into command).length := by
    rw [Arrival.into, List.length_append, List.length_drop, hcommand, List.length_take]
    omega
  have halike : Alike { c with scratch := arrival.into command ++ rest }
      { c with scratch := arrival.into command ++ rest' } := by
    refine ⟨_, ?_, rfl⟩
    simp [hrest, hrest', hlen]
  split
  · refine .pure halike ?_
    show (arrival.into command ++ rest).take n = (arrival.into command ++ rest').take n
    rw [List.take_append_of_le_length hlong, List.take_append_of_le_length hlong]
  · exact .throw halike

/-! ## One burst of data -/

theorem lockstep_readChunk (offset : UInt64) (len : Nat) :
    Drive.Lockstep (readChunk offset len) (readChunk offset len) c c'
      fun bytes _ _ => bytes.length ≤ len := by
  rw [readChunk]
  split
  · exact .pure hc (Nat.zero_le _)
  refine .bind_lift fun stop => ?_
  split
  · exact .throw hc
  refine .bind (lockstep_buildHeader hc _ _) fun _ c c' hc hagree => .bind_get ?_
  obtain ⟨scratch, hlen, rfl⟩ := hc
  refine .bind_lift fun dataStart => ?_
  dsimp only
  rw [hlen]
  split
  · exact .bind_lift fun _ => .throw ⟨scratch, hlen, rfl⟩
  have hle : min len (c.scratch.length - dataStart) ≤ len := Nat.min_le_left _ _
  generalize min len (c.scratch.length - dataStart) = payload at *
  refine .bind_abides (.count (.inl trivial)) fun total htotal => ?_
  refine .bind_abides (.slice (.inl trivial)) fun blank hblank => ?_
  have hblank_len : Opcode.headerLen + (Bytes.filled blank 0).length = total := by
    rw [Bytes.filled, List.length_replicate]
    omega
  refine .bind_alike (alike_overwrite_data hlen hagree) ?_
  rintro r r' ⟨hc, hagree⟩
  rw [hblank_len] at hagree
  refine .bind_set (.bind (lockstep_runScratch hc hagree true) fun _ c c' hc hagree => .bind_get ?_)
  obtain ⟨scratch, hlen, rfl⟩ := hc
  refine .bind_alike (.split _ hlen) ?_
  rintro ⟨response, rest⟩ ⟨response', rest'⟩ ⟨⟨hresponse, -, hresponse', -⟩, hfits⟩
  dsimp only at hresponse hresponse' ⊢
  obtain rfl : response = response' := hresponse.trans (hagree.trans hresponse'.symm)
  refine .bind_alike (.split _ rfl) ?_
  rintro ⟨front, data⟩ ⟨front', data'⟩ ⟨⟨-, hdata, -, hdata'⟩, -⟩
  dsimp only at hdata hdata' ⊢
  obtain rfl : data = data' := hdata.trans hdata'.symm
  refine .bind_lift fun here => .bind_lift fun _ => .pure ⟨scratch, hlen, rfl⟩ ?_
  rw [hdata, hresponse, List.length_drop, List.length_take]
  omega

theorem lockstep_writeChunk (offset : UInt64) (data : Bytes) :
    Drive.Lockstep (writeChunk offset data) (writeChunk offset data) c c' fun _ _ _ => True := by
  rw [writeChunk_eq]
  split
  · exact .pure hc trivial
  have hvendor : c'.vendor = c.vendor := by
    obtain ⟨scratch, hlen, rfl⟩ := hc
    rfl
  refine .bind_get ?_
  rw [hvendor]
  refine .bind (lockstep_buildHeader hc _ _) fun _ c c' hc hagree => .bind_get ?_
  obtain ⟨scratch, hlen, rfl⟩ := hc
  dsimp only
  rw [hlen]
  split
  · exact .throw ⟨scratch, hlen, rfl⟩
  refine .bind_alike (alike_overwrite_data hlen hagree) ?_
  rintro r r' ⟨hc, hagree⟩
  refine .bind_set (.bind (lockstep_enableWrite hc) ?_)
  rintro _ _ _ hc ⟨rfl, rfl⟩
  refine .bind (lockstep_runScratch hc hagree false) fun _ c c' hc _ => ?_
  exact .bind (lockstep_waitUntilReady hc) fun _ c c' hc _ => .pure hc trivial

/-! ## Bulk transfers -/

/-- A read that ends well brings all of its bytes. -/
theorem lockstep_readOn (offset : UInt64) (fuel left done : Nat) (got : Bytes) :
    Lockstep (readOn offset fuel left done got) (readOn offset fuel left done got) c c'
      fun arrival _ _ => arrival.outcome = .ok () → arrival.bytes.length = left + got.length := by
  induction fuel generalizing left done got c c' with
  | zero =>
    cases left with
    | zero => exact .pure hc fun _ => by simp
    | succ left => exact .trap
  | succ fuel ih =>
    cases left with
    | zero => exact .pure hc fun _ => by simp
    | succ left =>
      rw [readOn_succ]
      refine .bind_lift fun position => .bind_lift fun _ => ?_
      refine .bind (lockstep_readChunk hc _ _) fun r c c' hc hr => ?_
      cases r with
      | error e => exact .pure hc nofun
      | ok bytes =>
        have hle := hr bytes rfl
        refine .bind_lift fun filled => (ih hc _ _ _).mono fun arrival _ _ h hok => ?_
        rw [h hok, List.reverseAux_eq, List.length_append, List.length_reverse]
        omega

theorem lockstep_bulkRead (offset : UInt64) (len : Nat) :
    Lockstep (bulkRead offset len) (bulkRead offset len) c c'
      fun arrival _ _ => arrival.outcome = .ok () → arrival.bytes.length = len := by
  refine .bind (lockstep_readOn hc offset len len 0 []) fun arrival c c' hc h => ?_
  split
  · exact .pure hc h
  · exact .bind_lift fun _ => .pure hc h

theorem lockstep_writeOn (offset : UInt64) (fuel done : Nat) (data : Bytes) :
    Drive.Lockstep (writeOn offset fuel done data) (writeOn offset fuel done data) c c'
      fun _ _ _ => True := by
  induction fuel generalizing done data c c' with
  | zero =>
    cases data with
    | nil => exact .pure hc trivial
    | cons byte more => exact .trap
  | succ fuel ih =>
    cases data with
    | nil => exact .pure hc trivial
    | cons byte more =>
      refine .bind_lift fun position => ?_
      refine .bind (lockstep_writeChunk hc _ _) fun n c c' hc _ => .bind_lift fun _ => ?_
      exact .bind_lift fun _ => ih hc _ _

theorem lockstep_bulkWrite (offset : UInt64) (data : Bytes) :
    Drive.Lockstep (bulkWrite offset data) (bulkWrite offset data) c c' fun _ _ _ => True :=
  .bind (lockstep_writeOn hc _ _ _ _) fun _ _ _ hc _ =>
    .yield (.done ⟨rfl, hc, fun _ _ => trivial⟩)

/-! ## Pages -/

theorem lockstep_eraseUnit (offset : UInt64) (unit : EraseUnit) :
    Drive.Lockstep (eraseUnit offset unit) (eraseUnit offset unit) c c' fun _ _ _ => True := by
  rw [eraseUnit]
  split
  · refine .bind (lockstep_setActiveSlave hc _) fun _ c c' hc _ => ?_
    refine .bind (lockstep_waitUntilReady hc) fun _ c c' hc _ => ?_
    refine .bind (lockstep_buildHeader hc _ _) fun _ c c' hc hagree => ?_
    refine .bind (lockstep_enableWrite hc) ?_
    rintro _ _ _ hc ⟨rfl, rfl⟩
    refine .bind (lockstep_runScratch hc hagree false) fun _ c c' hc _ => ?_
    exact .bind_lift fun _ => lockstep_waitUntilReady hc
  · exact .bind_lift fun _ => .throw hc

theorem lockstep_erase (offset : UInt64) (size : Nat) :
    Drive.Lockstep (erase offset size) (erase offset size) c c' fun _ _ _ => True := by
  rw [erase]
  split
  · exact lockstep_eraseUnit hc _ _
  · exact .bind_lift fun _ => .throw hc

theorem lockstep_rewriteUnit (offset : UInt64) (data : Bytes) :
    Drive.Lockstep (rewriteUnit offset data) (rewriteUnit offset data) c c' fun _ _ _ => True := by
  rw [rewriteUnit]
  split
  · exact .pure hc trivial
  · refine .bind (lockstep_eraseUnit hc _ _) fun _ c c' hc _ => .bind_lift fun _ => ?_
    exact .bind (lockstep_bulkWrite hc _ _) fun _ c c' hc _ => .pure hc trivial

end Commands

/-- What is ahead of the new bytes stays. -/
theorem take_overwritten {front start : Nat} {page new rest : Bytes} (hfront : front ≤ start)
    (hstart : start ≤ page.length) :
    (page.take start ++ new ++ rest).take front = page.take front := by
  rw [List.append_assoc, List.take_append_of_le_length (by rw [List.length_take]; omega),
    List.take_take, Nat.min_eq_left hfront]

/-- New bytes that reach the end are all there is from their start on. -/
theorem drop_overwritten {start stop : Nat} {page new : Bytes} (hstart : start ≤ page.length)
    (hstop : page.length ≤ stop) :
    (page.take start ++ new ++ page.drop stop).drop start = new := by
  rw [List.drop_eq_nil_of_le hstop, List.append_nil]
  exact List.drop_left' (by rw [List.length_take, Nat.min_eq_left hstart])

section Pages

variable {page page' : Bytes} (hc : c.Alike c') (hpage : page.length = pageSize)
  (hpage' : page'.length = pageSize)
include hc hpage hpage'

/-- What was read takes the place of what was in the page buffer. -/
theorem lockstep_readInto (offset : UInt64) {start stop : Nat} (hstart : start ≤ stop)
    (hstop : stop ≤ pageSize) :
    Merge.Lockstep (readInto offset start stop) (readInto offset start stop) page page' c c'
      fun _ d d' => ∃ bytes, bytes.length = stop - start ∧
        d = page.take start ++ bytes ++ page.drop stop ∧
        d' = page'.take start ++ bytes ++ page'.drop stop := by
  rw [readInto_eq offset hstart hstop]
  refine .bind_state (lockstep_bulkRead hc offset _) fun arrival c c' hc hlen => .bind_get ?_
  refine .bind_alike (.overwrite start arrival.bytes (hpage'.trans hpage.symm)) ?_
  rintro _ _ ⟨hfits, rfl, rfl⟩
  refine .bind_set ?_
  have hd := (Bytes.length_overwritten hfits).trans hpage
  have hfits' : start + arrival.bytes.length ≤ page'.length := by omega
  have hd' := (Bytes.length_overwritten hfits').trans hpage'
  cases houtcome : arrival.outcome with
  | ok _ =>
    have hlen := hlen houtcome
    have hend : start + arrival.bytes.length = stop := by omega
    exact .pure hc hd hd' ⟨arrival.bytes, hlen, by rw [hend], by rw [hend]⟩
  | error e => exact .throw hc hd hd'

/-- **A merged page is made of what was read and of the data**, so both page buffers
hold the same in the end. -/
theorem lockstep_mergePage (offset : UInt64) (data : Bytes) :
    Merge.Lockstep (mergePage offset data) (mergePage offset data) page page' c c'
      fun _ d d' => data ≠ [] → d = d' := by
  rw [mergePage_eq]
  split
  · rename_i hempty
    exact .pure hc hpage hpage' fun hne => absurd (List.isEmpty_iff.mp hempty) hne
  dsimp only
  have hmod : pageIndex offset < pageSize := Nat.mod_lt _ pageSize_pos
  generalize hhere : data.take (pageSize - pageIndex offset) = here
  have hlen := congrArg List.length hhere
  rw [List.length_take] at hlen
  generalize pageIndex offset = front at *
  -- after the first read the buffers agree ahead of the data, after the second behind it
  refine .join (J := fun page page' => page.take front = page'.take front) hc hpage hpage'
    (fun hzero => ?_) (fun page page' c c' hc hpage hpage' hfront => ?_) fun _ hy => ?_
  · obtain rfl : front = 0 := by omega
    rfl
  · refine .join (J := fun page page' => page.take front = page'.take front ∧
      page.drop (front + here.length) = page'.drop (front + here.length)) hc hpage hpage'
      (fun hfull => ⟨hfront, ?_⟩) (fun page page' c c' hc hpage hpage' hboth => ?_) fun _ hy => ?_
    · rw [List.drop_eq_nil_of_le (by omega), List.drop_eq_nil_of_le (by omega)]
    · refine .bind_get (.bind_alike (.overwrite front here (hpage'.trans hpage.symm)) ?_)
      rintro _ _ ⟨hfits, rfl, rfl⟩
      rw [← hboth.1, ← hboth.2]
      have hmerged := (Bytes.length_overwritten hfits).trans hpage
      refine .bind_set (.bind (.drive (lockstep_eraseUnit hc _ _) hmerged hmerged) ?_)
      rintro _ _ _ c c' hc hpage - ⟨rfl, rfl⟩
      refine .bind_get (.bind (.drive (lockstep_bulkWrite hc _ _) hpage hpage) ?_)
      rintro _ _ _ c c' hc - - ⟨rfl, rfl⟩
      exact .pure hc hpage hpage fun _ => rfl
    · refine .bind_alike (.refl _) ?_
      rintro position _ rfl
      refine .bind (lockstep_readInto hc hpage hpage' _ (by omega) (Nat.le_refl _)) ?_
      rintro _ _ _ c c' hc hd hd' ⟨bytes, hbytes, rfl, rfl⟩
      have hstart : ∀ page : Bytes, page.length = pageSize → front + here.length ≤ page.length := by
        omega
      refine hy _ _ c c' hc hd hd' ⟨?_, ?_⟩
      · rw [take_overwritten (Nat.le_add_right _ _) (hstart page hpage),
          take_overwritten (Nat.le_add_right _ _) (hstart page' hpage')]
        exact hfront
      · rw [drop_overwritten (hstart page hpage) (by omega),
          drop_overwritten (hstart page' hpage') (by omega)]
  · refine .bind (lockstep_readInto hc hpage hpage' _ (Nat.zero_le _) (Nat.le_of_lt hmod)) ?_
    rintro _ _ _ c c' hc hd hd' ⟨bytes, hbytes, rfl, rfl⟩
    refine hy _ _ c c' hc hd hd' ?_
    rw [List.take_zero, List.take_zero, List.nil_append]
    exact (List.take_left' hbytes).trans (List.take_left' hbytes).symm

theorem lockstep_programPage (offset : UInt64) (data : Bytes) :
    Merge.Lockstep (programPage offset data) (programPage offset data) page page' c c'
      fun _ _ _ => True := by
  refine .bind (.drive (lockstep_rewriteUnit hc _ _) hpage hpage') ?_
  rintro written _ _ c c' hc hpage hpage' -
  cases written with
  | some n => exact .pure hc hpage hpage' trivial
  | none => exact (lockstep_mergePage hc hpage hpage' _ _).mono fun _ _ _ _ => trivial

end Pages

end Controller

/-! ## Flashes -/

namespace Flash

open Controller (Lockstep)

theorem lockstep_prepare (hc : c.Alike c') (offset : UInt64) :
    Drive.Lockstep (prepare offset) (prepare offset) c c' fun _ _ _ => True :=
  .bind (Controller.lockstep_setActiveSlave hc _) fun _ _ _ hc _ =>
    Controller.lockstep_waitUntilReady hc

theorem lockstep_readPages (hc : c.Alike c') (offset : UInt64) (fuel left done : Nat)
    (got : Bytes) :
    Lockstep (readPages offset fuel left done got) (readPages offset fuel left done got) c c'
      fun _ _ _ => True := by
  induction fuel generalizing left done got c c' with
  | zero =>
    cases left with
    | zero => exact .pure hc trivial
    | succ left => exact .trap
  | succ fuel ih =>
    cases left with
    | zero => exact .pure hc trivial
    | succ left =>
      rw [readPages_succ]
      refine .bind_lift fun position => .bind_lift fun stop => ?_
      refine .bind (Controller.lockstep_bulkRead hc _ _) fun arrival c c' hc _ => ?_
      split
      · exact .pure hc trivial
      · exact ih hc _ _ _

theorem lockstep_writePages (hc : c.Alike c') (offset : UInt64) (fuel done : Nat)
    (data : Bytes) {page page' : Bytes} (hpage : page.length = pageSize)
    (hpage' : page'.length = pageSize) :
    Lockstep (writePages offset fuel done data page) (writePages offset fuel done data page') c c'
      fun _ _ _ => True := by
  induction fuel generalizing done data page page' c c' with
  | zero =>
    cases data with
    | nil => exact .pure hc trivial
    | cons byte more => exact .trap
  | succ fuel ih =>
    cases data with
    | nil => exact .pure hc trivial
    | cons byte more =>
      refine .bind_lift fun position => ?_
      refine Proc.Alike.bind (Controller.lockstep_programPage hc hpage hpage' position _) ?_
      rintro ⟨⟨r, page⟩, c⟩ ⟨⟨_, page'⟩, c'⟩ ⟨rfl, hc, ⟨hpage, hpage'⟩, -⟩
      cases r with
      | error e => exact .note _ (.done ⟨rfl, hc, trivial⟩)
      | ok n =>
        exact Lockstep.bind_lift fun _ => Lockstep.bind_lift fun _ => ih hc _ _ hpage hpage'

/-- The flashes are the same but for what is left in the scratch buffers. -/
def Alike (f f' : Flash) : Prop :=
  f.controller.Alike f'.controller ∧ f.sessionOpen = f'.sessionOpen

theorem Alike.remaining_eq {f f' : Flash} (hf : f.Alike f') (offset : UInt64) :
    f'.remaining offset = f.remaining offset := by
  obtain ⟨⟨scratch, -, heq⟩, -⟩ := hf
  rw [remaining, capacity, heq]
  rfl

end Flash

/-- From flashes that look alike the operations do the same and give the same
answer, and leave flashes that look alike. -/
def FlashProc.Lockstep (x x' : FlashProc α) (f f' : Flash) : Prop :=
  (x f).Alike (fun r r' => r.1 = r'.1 ∧ r.2.Alike r'.2) (x' f')

namespace FlashProc.Lockstep

variable {f f' : Flash}

theorem pure {a : α} (hf : f.Alike f') : FlashProc.Lockstep (Pure.pure a) (Pure.pure a) f f' :=
  Proc.Alike.pure ⟨rfl, hf⟩

theorem bind_get {g g' : Flash → FlashProc α} (hg : FlashProc.Lockstep (g f) (g' f') f f') :
    FlashProc.Lockstep (get >>= g) (get >>= g') f f' :=
  hg

theorem bind_log {m : Message} {g g' : Unit → FlashProc α}
    (hg : FlashProc.Lockstep (g ()) (g' ()) f f') :
    FlashProc.Lockstep (liftM (Proc.log m) >>= g) (liftM (Proc.log m) >>= g') f f' :=
  .note m hg

theorem onController {x : StateT Controller Proc α} (hf : f.Alike f')
    (hx : Controller.Lockstep x x f.controller f'.controller fun _ _ _ => True) :
    FlashProc.Lockstep (Flash.onController x) (Flash.onController x) f f' := by
  refine Proc.Alike.bind hx ?_
  rintro ⟨a, d⟩ ⟨_, d'⟩ ⟨rfl, hd, -⟩
  exact .pure ⟨rfl, hd, hf.2⟩

end FlashProc.Lockstep

namespace Flash

variable {f f' : Flash} (hf : f.Alike f')
include hf

theorem lockstep_read (offset : UInt64) (len : Nat) :
    FlashProc.Lockstep (read offset len) (read offset len) f f' := by
  refine .bind_get ?_
  rw [hf.remaining_eq]
  dsimp only
  split
  · exact .pure hf
  refine .bind_log (.onController hf ?_)
  refine .bind (lockstep_prepare hf.1 offset) fun r c c' hc _ => ?_
  cases r with
  | error e => exact .pure hc trivial
  | ok _ => exact lockstep_readPages hc _ _ _ _ _

theorem lockstep_write (offset : UInt64) (data : Bytes) :
    FlashProc.Lockstep (write offset data) (write offset data) f f' := by
  refine .bind_get ?_
  rw [hf.remaining_eq]
  dsimp only
  split
  · exact .pure hf
  refine .bind_log (.onController hf ?_)
  refine .bind (lockstep_prepare hf.1 offset) fun r c c' hc _ => ?_
  cases r with
  | error e => exact .pure hc trivial
  | ok _ => exact lockstep_writePages hc _ _ _ _ List.length_replicate List.length_replicate

end Flash

/-! ## Runs -/

/-- The answers are equal, and so are the controllers but for what is left in their
scratch buffers: the active slave, the cached sector, the measured depth and all
else. -/
def SameAnswer (r r' : α × Controller) : Prop :=
  r.1 = r'.1 ∧ r.2.Alike r'.2

/-- The read brought the same bytes, so the front of both of the caller's buffers
holds the same. -/
def SameArrival (r r' : Arrival) : Prop :=
  r = r' ∧ ∀ buffer buffer' : Bytes,
    (r.into buffer).take r.bytes.length = (r'.into buffer').take r'.bytes.length

theorem SameArrival.refl (r : Arrival) : SameArrival r r := by
  refine ⟨rfl, fun buffer buffer' => ?_⟩
  rw [Arrival.into, Arrival.into, List.take_left, List.take_left]

/-- On the block, from the state, each operation runs the same from both
controllers, whatever the scratch buffers, the page buffers and the caller's read
buffers hold. -/
structure Forgetful (b : RegisterBlock σ) (s : σ) (c c' : Controller) : Prop where
  readChunk : ∀ offset len, SameRun b s SameAnswer
    ((Controller.readChunk offset len).run c) ((Controller.readChunk offset len).run c')
  writeChunk : ∀ offset data, SameRun b s SameAnswer
    ((Controller.writeChunk offset data).run c) ((Controller.writeChunk offset data).run c')
  bulkRead : ∀ offset len, SameRun b s
    (fun r r' => SameArrival r.1 r'.1 ∧ r.2.Alike r'.2)
    (Controller.bulkRead offset len c) (Controller.bulkRead offset len c')
  bulkWrite : ∀ offset data, SameRun b s SameAnswer
    ((Controller.bulkWrite offset data).run c) ((Controller.bulkWrite offset data).run c')
  eraseUnit : ∀ offset unit, SameRun b s SameAnswer
    ((Controller.eraseUnit offset unit).run c) ((Controller.eraseUnit offset unit).run c')
  erase : ∀ offset size, SameRun b s SameAnswer
    ((Controller.erase offset size).run c) ((Controller.erase offset size).run c')
  rewriteUnit : ∀ offset data, SameRun b s SameAnswer
    ((Controller.rewriteUnit offset data).run c) ((Controller.rewriteUnit offset data).run c')
  /-- A merge of some data that ends well leaves equal pages. -/
  mergePage : ∀ offset data (page page' : Bytes), page.length = pageSize →
    page'.length = pageSize → SameRun b s
      (fun r r' => r.1.1 = r'.1.1 ∧ r.2.Alike r'.2 ∧
        ∀ n, r.1.1 = .ok n → data ≠ [] → r.1.2 = r'.1.2)
      ((Controller.mergePage offset data).run page c)
      ((Controller.mergePage offset data).run page' c')
  programPage : ∀ offset data (page page' : Bytes), page.length = pageSize →
    page'.length = pageSize → SameRun b s (fun r r' => r.1.1 = r'.1.1 ∧ r.2.Alike r'.2)
      ((Controller.programPage offset data).run page c)
      ((Controller.programPage offset data).run page' c')
  read : ∀ sessionOpen offset len, SameRun b s
    (fun r r' => SameArrival r.1 r'.1 ∧ r.2.Alike r'.2)
    (Flash.read offset len ⟨c, sessionOpen⟩) (Flash.read offset len ⟨c', sessionOpen⟩)
  write : ∀ sessionOpen offset data, SameRun b s (fun r r' => r.1 = r'.1 ∧ r.2.Alike r'.2)
    (Flash.write offset data ⟨c, sessionOpen⟩) (Flash.write offset data ⟨c', sessionOpen⟩)

theorem Controller.Lockstep.sameRun {x : StateT Controller Proc α}
    {A : α → Controller → Controller → Prop} (h : Controller.Lockstep x x c c' A)
    (b : RegisterBlock σ) (s : σ) : SameRun b s SameAnswer (x c) (x c') :=
  (Proc.Alike.mono h fun _ _ hr => ⟨hr.1, hr.2.1⟩).sameRun b s

/-- **No stale byte reaches the flash or the caller.** On every block, from every
state, and from any two controllers that differ in their scratch buffers only: each
operation makes the same accesses, delays and yields in the same order, gives the
same answer and leaves the block, the active slave and the cached sector the same. -/
theorem no_stale_byte (b : RegisterBlock σ) (s : σ) (h : c.Alike c') : Forgetful b s c c' where
  readChunk offset len := (Controller.lockstep_readChunk h offset len).sameRun b s
  writeChunk offset data := (Controller.lockstep_writeChunk h offset data).sameRun b s
  bulkRead offset len :=
    (Proc.Alike.mono (Controller.lockstep_bulkRead h offset len) fun r _ hr =>
      ⟨hr.1 ▸ .refl r.1, hr.2.1⟩).sameRun b s
  bulkWrite offset data := (Controller.lockstep_bulkWrite h offset data).sameRun b s
  eraseUnit offset unit := (Controller.lockstep_eraseUnit h offset unit).sameRun b s
  erase offset size := (Controller.lockstep_erase h offset size).sameRun b s
  rewriteUnit offset data := (Controller.lockstep_rewriteUnit h offset data).sameRun b s
  mergePage offset data _ _ hpage hpage' :=
    (Proc.Alike.mono (Controller.lockstep_mergePage h hpage hpage' offset data) fun _ _ hr =>
      ⟨hr.1, hr.2.1, fun n hn hne => hr.2.2.2 n hn hne⟩).sameRun b s
  programPage offset data _ _ hpage hpage' :=
    (Proc.Alike.mono (Controller.lockstep_programPage h hpage hpage' offset data) fun _ _ hr =>
      ⟨hr.1, hr.2.1⟩).sameRun b s
  read sessionOpen offset len := by
    have hf : Flash.Alike ⟨c, sessionOpen⟩ ⟨c', sessionOpen⟩ := ⟨h, rfl⟩
    exact (Proc.Alike.mono (Flash.lockstep_read hf offset len) fun r _ hr =>
      ⟨hr.1 ▸ .refl r.1, hr.2⟩).sameRun b s
  write sessionOpen offset data := by
    have hf : Flash.Alike ⟨c, sessionOpen⟩ ⟨c', sessionOpen⟩ := ⟨h, rfl⟩
    exact Proc.Alike.sameRun (Flash.lockstep_write hf offset data) b s

/-- A scratch buffer of zeros and one of leftovers, on a default emulator. -/
theorem no_stale_byte_default :
    ∃ c c' : Controller, c.scratch = Bytes.filled 9 0 ∧ c'.scratch = Bytes.filled 9 0xaa ∧
      Forgetful Emulator.block (.ofConfig {}) c c' := by
  let c : Controller :=
    ⟨{ budget := { intervalUs := 5, timeoutUs := 50 }, fifoDepth := 9 }, Bytes.filled 9 0,
      sectorNone, .micron, sectorSize, {}⟩
  exact ⟨c, _, rfl, rfl, no_stale_byte _ _ ⟨Bytes.filled 9 0xaa, rfl, rfl⟩⟩

end NorFlash
