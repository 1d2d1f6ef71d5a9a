import NorFlash.Proofs.Orders
import NorFlash.Proofs.Sessions

/-!
# Targets — the places that bulk operations address

A bulk read or write addresses the bytes of its range, one after another. A page
operation also reads the other bytes of its 4 KiB page and erases that page, so
a call addresses the pages that its range touches, and no others.
-/

namespace NorFlash

open Emulator (block)
open Delivery (Sound Allows)

variable {e t : Emulator} {c c' : Controller} {i : Fin maxSlaves} {p : UInt64} {a n : Nat}
  {data page : Bytes} {f : Flash} {S : Fin maxSlaves → Nat → Prop} {D : Delivery → Prop}

/-! ## Bursts -/

namespace Ready

theorem sends_readChunk (h : Ready c e i) (hp : Locates p i a) (hn : 0 < n)
    (hpage : a % pageSize + n ≤ pageSize) (hfit : a + n ≤ e.config.capacity)
    (hD : Allows D Opcode.quadRead i a) : Drive.Sends (Controller.readChunk p n) c e D := by
  rw [Controller.readChunk, if_neg (by omega), hp.pageIndex_eq]
  refine Drive.Sends.step (.count _) (Proc.run_count (Nat.lt_of_le_of_lt hpage (by decide))) ?_
  rw [if_neg (by omega)]
  refine Drive.Sends.bind ((h.sends_buildHeader hp _).mono hD.plain)
    (h.ends_buildHeader hp (by omega) _) ?_
  rintro _ c₁ e₁ ⟨hran, -, hheaded⟩
  have hdepth := hran.kept.attached.overhead_lt
  have hlimit := hran.kept.attached.depth_le
  have hroom := hran.kept.attached.scratch
  generalize hstart : Opcode.headerLen + c₁.tuning.readDummyLen = start at *
  rw [← hroom] at hdepth hlimit
  refine Drive.Sends.bind_get ?_
  rw [hstart]
  have hlimit : c₁.scratch.length < wordLimit := Nat.lt_of_le_of_lt hlimit (by decide)
  refine Drive.Sends.step (.count _) (Proc.run_count (by omega)) ?_
  have hpos : 0 < min n (c₁.scratch.length - start) := by omega
  generalize hpayload : min n (c₁.scratch.length - start) = payload at *
  dsimp only
  rw [hpayload, if_neg (by omega)]
  refine Drive.Sends.step (.count _) (Proc.run_count (by omega)) ?_
  refine Drive.Sends.step (.checked _) (Proc.run_slice (by omega) (by omega)) ?_
  generalize hblank : Bytes.filled (start + payload - Opcode.headerLen) 0 = blank
  have hlen : blank.length = start + payload - Opcode.headerLen := by
    rw [← hblank, Bytes.length_filled]
  have htotal : start + payload = Opcode.headerLen + blank.length := by omega
  have hfits : Opcode.headerLen + blank.length ≤ c₁.scratch.length := by omega
  refine Drive.Sends.step (.checked _) (Proc.run_overwrite hfits) (Drive.Sends.bind_set ?_)
  obtain ⟨buffer, hbuffer, -, hready, rest, hcommand⟩ := hran.with_payload hheaded.scratch hfits
  rw [hbuffer, htotal]
  refine Drive.Sends.bind_silent (hready.ready.sends_headed hp ⟨hheaded.sector, _, hcommand⟩ hD
    (fun h => absurd h (by decide)) hcommand true) fun _ c' => ?_
  refine .bind_drive (fun _ => .pure _) (fun c₂ _ => ?_) c'
  refine .bind_drive (.drive (.checked _)) (fun _ _ => ?_) _
  refine .bind_drive (.drive (.checked _)) (fun _ _ => ?_) _
  exact .bind_drive (.drive (.checked _)) (fun _ _ =>
    .bind_drive (.drive (.checked _)) (fun _ _ => .pure _) _) _

/-- A program command with its data in the scratch buffer, from the write enable
on. -/
theorem sends_programScratch (h : Ready c e i) (hp : Locates p i a)
    (hsector : (e.chip i).sector = (Address.ofOffset p).sector) (hdata : data ≠ [])
    (hpage : a % programPageSize + data.length ≤ programPageSize)
    (hfit : a + data.length ≤ e.config.capacity) (hblank : Blank e i a (a + data.length))
    (hD : Allows D c.vendor.programOpcode i a) {rest : Bytes}
    (hscratch : c.scratch = c.vendor.programOpcode :: (Address.ofOffset p).high ::
      (Address.ofOffset p).middle :: (Address.ofOffset p).low :: data ++ rest) :
    Drive.Sends (do
        Controller.enableWrite
        Controller.runScratch (Opcode.headerLen + data.length) false
        Controller.waitUntilReady
        return data.length) c e D := by
  refine Drive.Sends.bind (h.sends_enableWrite.mono hD.plain) h.ends_enableWrite ?_
  rintro _ _ e₁ ⟨rfl, hran₁, hset⟩
  have hget : e₁.chip i = { e.chip i with writeEnabled := true } := by
    rw [Emulator.chip_of_chipsWith hset, if_pos rfl]
  have hlatch : (e₁.chip i).writeEnabled = true := by rw [hget]
  have hheaded : Headed c.vendor.programOpcode p i c e₁ :=
    ⟨by rw [hget]; exact hsector, _, hscratch⟩
  refine Drive.Sends.bind (hran₁.ready.sends_headed hp hheaded hD (fun _ => hlatch) hscratch false)
    (hran₁.ready.ends_runProgram hheaded hp hlatch hdata hpage
      (by rw [hran₁.kept.config]; exact hfit) (hblank.of_contents (.of_set hset rfl)) hscratch) ?_
  rintro _ c₂ e₂ ⟨hk₂, hbus, -, -, -, -⟩
  have hi₂ : c₂.bus.slave.toNat = i.val := by
    rw [hbus]
    exact hran₁.slave
  exact Drive.Sends.bind_silent ((hk₂.attached.sends_wait hi₂).mono hD.plain) fun _ _ => .pure _

theorem sends_writeChunk (h : Ready c e i) (hp : Locates p i a) (hdata : data ≠ [])
    (hfit : a + data.length ≤ e.config.capacity) (hblank : Blank e i a (a + data.length))
    (hD : ∀ v : Vendor, Allows D v.programOpcode i a) :
    Drive.Sends (Controller.writeChunk p data) c e D := by
  have hpos := List.length_pos_iff.mpr hdata
  rw [Controller.writeChunk_eq, if_neg (by simpa using hdata)]
  refine Drive.Sends.bind_get (Drive.Sends.bind
    ((h.sends_buildHeader hp _).mono (hD c.vendor).plain)
    (h.ends_buildHeader hp (by omega) _) ?_)
  rintro _ c₁ e₁ ⟨hran₁, hsame₁, hheaded⟩
  have hdepth := hran₁.kept.attached.overhead_lt
  have hroom := hran₁.kept.attached.scratch
  have hmod := Nat.mod_lt a programPageSize_pos
  refine Drive.Sends.bind_get ?_
  dsimp only
  rw [hp.programIndex_eq]
  -- all that matters of the payload is that it is a front of the data that fits
  generalize hlimit : min (min (c₁.scratch.length - Opcode.headerLen) c₁.tuning.writeMaxLen)
    (programPageSize - a % programPageSize) = limit
  have hlen : (data.take limit).length = min limit data.length := List.length_take
  generalize data.take limit = payload at hlen
  by_cases hne : payload = []
  · rw [if_pos (by simpa using hne)]
    exact .throw
  rw [if_neg (by simpa using hne)]
  have hfits : Opcode.headerLen + payload.length ≤ c₁.scratch.length := by omega
  refine Drive.Sends.step (.checked _) (Proc.run_overwrite hfits) (Drive.Sends.bind_set ?_)
  obtain ⟨buffer, hbuffer, -, hran, rest, hcommand⟩ := hran₁.with_payload hheaded.scratch hfits
  rw [hbuffer]
  rw [← hran₁.kept.vendor_eq h.attached] at hcommand
  exact hran.ready.sends_programScratch hp hheaded.sector hne (by omega)
    (by rw [hran.kept.config]; omega) ((hblank.mono (Nat.le_refl _) (by omega)).of_contents hsame₁)
    (hD _) hcommand

/-! ## Bursts in a row -/

/-- The bursts of a read address its bytes in turn. -/
theorem sends_readOn (h : Ready c e i) (hp : Locates p i a) {fuel left d : Nat}
    (hfit : a + d + left ≤ e.config.capacity)
    (hD : ∀ b, a + d ≤ b → b < a + d + left → Allows D Opcode.quadRead i b) (got : Bytes) :
    (Controller.readOn p fuel left d got c).Sends e D := by
  induction fuel generalizing left d got c e with
  | zero => cases left <;> exact .of_silent fun _ => rfl
  | succ fuel ih =>
    cases left with
    | zero => exact .pure
    | succ left =>
      rw [Controller.readOn_succ]
      have hlt := h.attached.lt_word32 hfit
      obtain ⟨hword, hpos⟩ := hp.advance (n := d) (by omega)
      refine Proc.Sends.step_state (.advance _ _) (Proc.run_advance hword) ?_
      have hpage := Nat.mod_lt (a + d) pageSize_pos
      rw [hpos.pageIndex_eq]
      have hcount : d + (pageSize - (a + d) % pageSize) < wordLimit := by
        simp only [pageSize, word32Limit, wordLimit] at *
        omega
      refine Proc.Sends.step_state (.count _) (Proc.run_count hcount) ?_
      refine Proc.Sends.bind_state (h.sends_readChunk hpos (by omega) (by omega) (by omega)
        (hD _ (by omega) (by omega))) (h.ends_readChunk hpos (by omega) (by omega) (by omega)) ?_
      rintro (error | bytes) c₁ e₁ hchunk
      · exact .pure
      · obtain ⟨hlo, hle, hout⟩ := hchunk
        obtain ⟨hran, -⟩ := hout.done rfl
        have hcap := hran.kept.config
        refine Proc.Sends.step_state (.count _)
          (Proc.run_count (lt_wordLimit_of_word32 (by omega))) ?_
        exact ih hran.ready (by rw [hcap]; omega) (fun b h1 h2 => hD b (by omega) (by omega)) _

theorem sends_bulkRead (h : Ready c e i) (hp : Locates p i a) (hfit : a + n ≤ e.config.capacity)
    (hD : ∀ b, a ≤ b → b < a + n → Allows D Opcode.quadRead i b) :
    (Controller.bulkRead p n c).Sends e D := by
  refine Proc.Sends.bind_silent (h.sends_readOn hp (d := 0) hfit hD []) fun r => ?_
  obtain ⟨⟨bytes, outcome⟩, c'⟩ := r
  cases outcome with
  | error _ => exact .pure _
  | ok _ => exact .bind (.bind .giveWay fun _ => .pure _) fun _ => .pure _

/-- The bursts of a write address the places of its bytes in turn. -/
theorem sends_writeOn (h : Ready c e i) (hp : Locates p i a) {fuel d : Nat}
    (hfit : a + d + data.length ≤ e.config.capacity)
    (hblank : Blank e i (a + d) (a + d + data.length))
    (hD : ∀ b, a + d ≤ b → b < a + d + data.length → ∀ v : Vendor, Allows D v.programOpcode i b) :
    Drive.Sends (Controller.writeOn p fuel d data) c e D := by
  induction fuel generalizing d data c e with
  | zero => cases data <;> exact .of_silent fun _ => rfl
  | succ fuel ih =>
    cases data with
    | nil => exact .pure
    | cons byte more =>
      have hlt := h.attached.lt_word32 hfit
      obtain ⟨hword, hpos⟩ := hp.advance (n := d) (by omega)
      have hdata : byte :: more ≠ [] := List.cons_ne_nil byte more
      rw [Controller.writeOn]
      generalize byte :: more = data at *
      have hlen := List.length_pos_iff.mpr hdata
      refine Drive.Sends.step (.advance _ _) (Proc.run_advance hword) ?_
      refine Drive.Sends.bind (h.sends_writeChunk hpos hdata hfit hblank
        (hD _ (by omega) (by omega))) (h.ends_writeChunk hpos hdata hfit hblank) ?_
      rintro n c₁ e₁ ⟨hn, hlo, -, hprogrammed, hran, -⟩
      have hcap := hran.kept.config
      have hrest : (data.drop n).length = data.length - n := List.length_drop
      refine Drive.Sends.step (.checked _) (Proc.run_split (by omega)) ?_
      refine Drive.Sends.step (.count _) (Proc.run_count (lt_wordLimit_of_word32 (by omega))) ?_
      refine ih hran.ready (by rw [hcap]; omega) ?_ fun b h1 h2 => hD b (by omega) (by omega)
      rw [← Nat.add_assoc, show a + d + n + (data.drop n).length = a + d + data.length by omega]
      exact hprogrammed.blank

theorem sends_bulkWrite (h : Ready c e i) (hp : Locates p i a)
    (hfit : a + data.length ≤ e.config.capacity) (hblank : Blank e i a (a + data.length))
    (hD : ∀ b, a ≤ b → b < a + data.length → ∀ v : Vendor, Allows D v.programOpcode i b) :
    Drive.Sends (Controller.bulkWrite p data) c e D :=
  Drive.Sends.bind_silent (h.sends_writeOn hp (d := 0) hfit hblank hD) fun _ _ =>
    .drive .giveWay _

/-! ## Page operations -/

theorem sends_readInto (h : Ready c e i) (hp : Locates p i a) {start stop : Nat}
    (hstart : start ≤ stop) (hstop : stop ≤ pageSize)
    (hfit : a + (stop - start) ≤ e.config.capacity)
    (hD : ∀ b, a ≤ b → b < a + (stop - start) → Allows D Opcode.quadRead i b) :
    Controller.Merge.Sends (Controller.readInto p start stop) page c e D := by
  rw [Controller.readInto_eq p hstart hstop]
  refine Controller.Merge.Sends.bind_silent (.state (h.sends_bulkRead hp hfit hD))
    fun arrival page' c' => ?_
  refine .bind_merge (fun _ _ => .pure _) (fun page _ _ => ?_) _ _
  refine .bind_merge (.merge (.checked _)) (fun page _ _ => ?_) _ _
  refine .bind_merge (fun _ _ => .pure _) (fun _ _ _ => ?_) _ _
  split
  · exact .pure _
  · exact .pure _

end Ready

/-- The place `b` lies in a page that the `n` bytes at `a` touch. -/
def Nearby (a n b : Nat) : Prop :=
  ∃ k < n, b / pageSize = (a + k) / pageSize

theorem Nearby.of_mem {b : Nat} (hlo : a ≤ b) (hhi : b < a + n) : Nearby a n b :=
  ⟨b - a, by omega, by rw [Nat.add_sub_cancel' hlo]⟩

/-- A place in the page of the first byte. -/
theorem Nearby.of_page {b : Nat} (hn : 0 < n) (hlo : a - a % pageSize ≤ b)
    (hhi : b < a - a % pageSize + pageSize) : Nearby a n b := by
  refine ⟨0, hn, ?_⟩
  simp only [pageSize] at *
  omega

theorem Nearby.part {d m b : Nat} (h : Nearby (a + d) m b) (hm : d + m ≤ n) : Nearby a n b := by
  obtain ⟨k, hk, hb⟩ := h
  exact ⟨d + k, by omega, by rw [hb, Nat.add_assoc]⟩

namespace Ready

/-- Merging data into its page addresses that page only. -/
theorem sends_mergePage (h : Ready c e i) (hp : Locates p i a) (hdata : data ≠ [])
    (ha : a < e.config.capacity) (hpage : page.length = pageSize)
    (hS : ∀ b, a - a % pageSize ≤ b → b < a - a % pageSize + pageSize → S i b) :
    Controller.Merge.Sends (Controller.mergePage p data) page c e (Sound S) := by
  rw [Controller.mergePage_eq, if_neg (by simpa using hdata)]
  dsimp only
  rw [hp.pageIndex_eq]
  have hmod := Nat.mod_lt a pageSize_pos
  have hle := Nat.mod_le a pageSize
  have hend := h.attached.page_le ha
  have hbase := hp.pageStart
  have hlen : (data.take (pageSize - a % pageSize)).length =
      min (pageSize - a % pageSize) data.length := List.length_take
  generalize data.take (pageSize - a % pageSize) = here at *
  refine Controller.Merge.Sends.join
    (M := fun page' c' t => ∃ left, FrontRead i a c e page left page' c' t)
    (fun hzero => ⟨[], h.frontRead (by omega)⟩) ?_ ?_
  case refine_2 =>
    intro hfront hrest
    exact Controller.Merge.Sends.bind (h.sends_readInto hbase (Nat.zero_le _) (Nat.le_of_lt hmod)
      (by omega) fun b h1 h2 => .sound (hS b h1 (by omega)))
      (h.ends_readFront hp ha hpage) fun _ => hrest
  rintro page₁ c₁ e₁ ⟨left, hfront⟩
  refine Controller.Merge.Sends.join
    (M := fun page' c' t => ∃ right, BothRead i a here.length c e page left right page' c' t)
    (fun hfull => ⟨[], hfront.bothRead hpage (by omega)⟩) ?_ ?_
  case refine_2 =>
    intro hback hrest
    obtain ⟨hword, hpos⟩ := hbase.advance (n := a % pageSize + here.length)
      (h.attached.lt_word32 (by omega))
    rw [show a - a % pageSize + (a % pageSize + here.length) = a + here.length by omega] at hpos
    refine Controller.Merge.Sends.step (.advance _ _) (Proc.run_advance hword) ?_
    have hback : a % pageSize + here.length ≤ pageSize := by omega
    have hfit : a + here.length + (pageSize - (a % pageSize + here.length)) ≤
        e₁.config.capacity := by
      rw [hfront.ran.kept.config]
      omega
    exact Controller.Merge.Sends.bind (hfront.ran.ready.sends_readInto hpos hback (Nat.le_refl _)
      hfit fun b h1 h2 => .sound (hS b (by omega) (by omega)))
      (hfront.ends_readBack hpos hback ha hpage) fun _ => hrest
  rintro page₂ c₂ e₂ ⟨right, hboth⟩
  have hran₂ := hboth.ran
  have hcap := hran₂.kept.config
  have hpage₂ := hboth.length_eq hpage
  have hpage₃ := hboth.around.length_eq
  refine Controller.Merge.Sends.bind_get (Controller.Merge.Sends.step (.checked _)
    (Proc.run_overwrite (by omega)) (Controller.Merge.Sends.bind_set ?_))
  rw [hboth.overwritten hpage]
  generalize left ++ here ++ right = page₃ at *
  -- the erase leaves the page blank, which the bulk write needs
  refine Controller.Merge.Sends.bind
    (.drive (hran₂.ready.attached.sends_eraseUnit hbase .page (by rw [hcap]; exact hend)
      (hS _ (Nat.le_refl _) (by omega))))
    (Controller.Merge.Ends.drive (E := fun _ _ _ _ => True)
      (A := fun _ page' c' t => page₃ = page' ∧ Ran Emulator.Spares i c₂ e₂ c' t ∧
        Erased i (a - a % pageSize) .page e₂ t)
      ((hran₂.ready.attached.ends_eraseUnit hbase .page (by rw [hcap]; exact hend)).mono
        (fun _ _ _ hok => ⟨rfl, hok.1, hok.2.2.1⟩) fun _ _ _ _ => trivial)) ?_
  rintro _ _ c₃ e₃ ⟨rfl, hran₃, herased⟩
  refine Controller.Merge.Sends.bind_get (Controller.Merge.Sends.bind_silent
    (.drive (hran₃.ready.sends_bulkWrite hbase ?_ ?_ ?_)) fun _ _ _ => .pure _)
  · rw [hpage₃, hran₃.kept.config, hcap]
    exact hend
  · rw [hpage₃]
    exact herased.blank
  · rw [hpage₃]
    exact fun b h1 h2 _ => .sound (hS b h1 h2)

/-- Rewriting a unit addresses places of the data only. -/
theorem sends_rewriteUnit (h : Ready c e i) (hp : Locates p i a)
    (hfit : a + data.length ≤ e.config.capacity)
    (hS : ∀ b, a ≤ b → b < a + data.length → S i b) :
    Drive.Sends (Controller.rewriteUnit p data) c e (Sound S) := by
  rw [Controller.rewriteUnit]
  cases hunit : EraseUnit.forSpan? p data.length with
  | none => exact .pure
  | some unit =>
    obtain ⟨-, hcovered⟩ := EraseUnit.of_forSpan? hunit
    have hpos := unit.bytes_pos
    refine Drive.Sends.bind (h.attached.sends_eraseUnit hp unit (by omega)
      (hS a (Nat.le_refl _) (by omega))) (h.attached.ends_eraseUnit hp unit (by omega)) ?_
    rintro _ c₁ e₁ ⟨hran, -, herased, -⟩
    have hlen : (data.take unit.bytes).length = unit.bytes := by
      rw [List.length_take, Nat.min_eq_left hcovered]
    refine Drive.Sends.step (.checked _) (Proc.run_split hcovered) ?_
    refine Drive.Sends.bind_silent (hran.ready.sends_bulkWrite hp ?_ ?_ ?_) fun _ _ => .pure _
    · rw [hlen, hran.kept.config]
      omega
    · rw [hlen]
      exact herased.blank
    · rw [hlen]
      exact fun b h1 h2 _ => .sound (hS b h1 (by omega))

/-- A page operation addresses pages that its data touches. -/
theorem sends_programPage (h : Ready c e i) (hp : Locates p i a) (hdata : data ≠ [])
    (hfit : a + data.length ≤ e.config.capacity) (hpage : page.length = pageSize)
    (hS : ∀ b, Nearby a data.length b → S i b) :
    Controller.Merge.Sends (Controller.programPage p data) page c e (Sound S) := by
  have hpos := List.length_pos_iff.mpr hdata
  refine Controller.Merge.Sends.bind (.drive (h.sends_rewriteUnit hp hfit fun b h1 h2 =>
    hS b (.of_mem h1 h2))) (Controller.Merge.Ends.drive (E := fun _ _ _ _ => True)
    (A := fun r page' c' t => page = page' ∧ (r = none → c' = c ∧ t = e))
    ((h.ends_rewriteUnit hp hfit).mono ?_ fun _ _ _ _ => trivial)) ?_
  · rintro (_ | k) c' t hr
    · exact ⟨rfl, fun _ => hr.2⟩
    · exact ⟨rfl, nofun⟩
  rintro (_ | k) _ c' t ⟨rfl, hr⟩
  · obtain ⟨rfl, rfl⟩ := hr rfl
    exact h.sends_mergePage hp hdata (by omega) hpage fun b h1 h2 => hS b (.of_page hpos h1 h2)
  · exact .of_silent (.pure _)

end Ready

/-! ## Calls -/

theorem Attached.sends_prepare (h : Attached c e) (p : UInt64) :
    Drive.Sends (Flash.prepare p) c e (Sound S) := by
  refine Drive.Sends.bind (.of_silent (Controller.silent_setActiveSlave _ c))
    (h.ends_setActiveSlave _) ?_
  rintro _ c₁ _ ⟨rfl, hk, hslave, hlt⟩
  exact hk.attached.sends_wait (i := ⟨_, hlt⟩) (by rw [hslave])

namespace Ready

theorem sends_readPages (h : Ready c e i) (hp : Locates p i a) {fuel left d : Nat}
    (hfit : a + d + left ≤ e.config.capacity) (hS : ∀ b, a + d ≤ b → b < a + d + left → S i b)
    (got : Bytes) : (Flash.readPages p fuel left d got c).Sends e (Sound S) := by
  induction fuel generalizing left d got c e with
  | zero => cases left <;> exact .of_silent fun _ => rfl
  | succ fuel ih =>
    cases left with
    | zero => exact .pure
    | succ left =>
      rw [Flash.readPages_succ]
      have hlt := h.attached.lt_word32 hfit
      obtain ⟨hword, hpos⟩ := hp.advance (n := d) (by omega)
      refine Proc.Sends.step_state (.advance _ _) (Proc.run_advance hword) ?_
      have hmod := Nat.mod_lt (a + d) pageSize_pos
      rw [hpos.pageIndex_eq]
      generalize hhere : min (left + 1) (pageSize - (a + d) % pageSize) = here
      refine Proc.Sends.step_state (.count _)
        (Proc.run_count (lt_wordLimit_of_word32 (by omega))) ?_
      refine Proc.Sends.bind_state (h.sends_bulkRead hpos (n := here) (by omega)
        fun b h1 h2 => .sound (hS b h1 (by omega))) (h.ends_bulkRead hpos (by omega)) ?_
      rintro ⟨bytes, error | _⟩ c₁ e₁ hread
      · exact .pure
      · obtain ⟨hran, -⟩ := hread.done rfl
        have hcap := hran.kept.config
        exact ih hran.ready (by rw [hcap]; omega) (fun b h1 h2 => hS b (by omega) (by omega)) _

theorem sends_writePages (h : Ready c e i) (hp : Locates p i a) {fuel d : Nat}
    (hfit : a + d + data.length ≤ e.config.capacity) (hpage : page.length = pageSize)
    (hS : ∀ b, Nearby (a + d) data.length b → S i b) :
    (Flash.writePages p fuel d data page c).Sends e (Sound S) := by
  induction fuel generalizing d data page c e with
  | zero => cases data <;> exact .of_silent fun _ => rfl
  | succ fuel ih =>
    cases data with
    | nil => exact .pure
    | cons byte more =>
      rw [Flash.writePages]
      have hlt := h.attached.lt_word32 hfit
      obtain ⟨hword, hpos⟩ := hp.advance (n := d) (by omega)
      have hdata : byte :: more ≠ [] := List.cons_ne_nil byte more
      generalize byte :: more = data at *
      refine Proc.Sends.step_state (.advance _ _) (Proc.run_advance hword) ?_
      refine Proc.Sends.bind_state (h.sends_programPage hpos hdata hfit hpage hS)
        (h.ends_programPage hpos hdata hfit hpage) ?_
      rintro ⟨error | n, page'⟩ c₁ e₁ hpageop
      · exact .of_silent (.bind (.bind (.log _) fun _ => .pure _) fun _ => .pure _)
      · obtain ⟨hpage', hstored⟩ := hpageop
        have hle := hstored.le
        have hcap := hstored.ran.kept.config
        have hlen : (data.drop n).length = data.length - n := List.length_drop
        refine Proc.Sends.step_state (.checked _) (Proc.run_split hle) ?_
        refine Proc.Sends.step_state (.count _)
          (Proc.run_count (lt_wordLimit_of_word32 (by omega))) ?_
        refine ih hstored.ran.ready (by rw [hcap]; omega) hpage' fun b hb => hS b ?_
        rw [← Nat.add_assoc] at hb
        exact hb.part (by omega)

end Ready

/-- The place `b` of chip `i` lies in a page that the `n` bytes from an offset on
touch, as far as the chip goes. -/
def Touched (p : UInt64) (n : Nat) (f : Flash) (i : Fin maxSlaves) (b : Nat) : Prop :=
  (Address.ofOffset p).slave.toNat = i.val ∧
    Nearby (chipOffset p).toNat (min n (f.remaining p)) b

theorem Proc.Sends.onController {α : Type} {x : StateT Controller Proc α} {D : Delivery → Prop}
    (hx : (x f.controller).Sends e D) : (Flash.onController x f).Sends e D :=
  Proc.Sends.bind_silent hx fun _ => .pure _

namespace Attached

/-- A read addresses pages that its range touches. -/
theorem sends_read (h : Attached f.controller e) (p : UInt64) (len : Nat) :
    (Flash.read p len f).Sends e (Sound (Touched p len f)) := by
  have hremaining := h.remaining_eq p
  refine Proc.Sends.bind_get_state ?_
  by_cases hzero : min len (f.remaining p) = 0
  · rw [if_pos hzero]
    exact .pure
  rw [if_neg hzero]
  refine Proc.Sends.step_state (.log _) Emulator.run_log (Proc.Sends.onController ?_)
  refine Proc.Sends.bind_state (h.sends_prepare p) (h.ends_prepare p) ?_
  rintro (error | _) c₁ e₁ hprepared
  · exact .pure
  · obtain ⟨i, hp, hran, -, -⟩ := hprepared
    have hcap := hran.kept.config
    refine hran.ready.sends_readPages hp (d := 0) ?_ ?_ []
    · rw [hcap]
      omega
    · intro b hlo hhi
      rw [Nat.add_zero] at hlo hhi
      exact ⟨hp.slave, .of_mem hlo hhi⟩

theorem sends_readAt (h : Attached f.controller e) (p : UInt64) (len : Nat) :
    (Flash.readAt p len f).Sends e (Sound (Touched p len f)) := by
  refine Proc.Sends.bind_get_state ?_
  split
  · exact .pure
  · exact h.sends_read p len

/-- A write addresses pages that its data touches. -/
theorem sends_write (h : Attached f.controller e) (p : UInt64) (data : Bytes) :
    (Flash.write p data f).Sends e (Sound (Touched p data.length f)) := by
  have hremaining := h.remaining_eq p
  have hlen : (data.take (f.remaining p)).length = min (f.remaining p) data.length :=
    List.length_take
  refine Proc.Sends.bind_get_state ?_
  generalize data.take (f.remaining p) = taken at *
  by_cases hempty : taken = []
  · rw [if_pos (by simpa using hempty)]
    exact .pure
  have hpos := List.length_pos_iff.mpr hempty
  rw [if_neg (by simpa using hempty)]
  refine Proc.Sends.step_state (.log _) Emulator.run_log (Proc.Sends.onController ?_)
  refine Proc.Sends.bind_state (h.sends_prepare p) (h.ends_prepare p) ?_
  rintro (error | _) c₁ e₁ hprepared
  · exact .pure
  · obtain ⟨i, hp, hran, -, -⟩ := hprepared
    have hcap := hran.kept.config
    refine hran.ready.sends_writePages hp (d := 0) ?_ (Bytes.length_filled _ _) ?_
    · rw [hcap]
      omega
    · intro b hb
      rw [Nat.add_zero, hlen, Nat.min_comm] at hb
      exact ⟨hp.slave, hb⟩

/-- An erase addresses the first page of its unit. -/
theorem sends_erase (h : Attached f.controller e) (p : UInt64) (size : Nat) :
    (Flash.erase p size f).Sends e (Sound (Touched p size f)) := by
  have hremaining := h.remaining_eq p
  refine Proc.Sends.bind_get_state ?_
  split
  · exact .pure
  rename_i hsize
  refine Proc.Sends.onController ?_
  rw [Controller.erase]
  cases hunit : EraseUnit.ofBytes? size with
  | none => exact Drive.Sends.step (c := f.controller) (.log _) Emulator.run_log .throw
  | some unit =>
    obtain rfl := EraseUnit.ofBytes?_eq_some_iff.mp hunit
    have hpos := unit.bytes_pos
    by_cases hslave : (Address.ofOffset p).slave.toNat < maxSlaves
    · have hp := Locates.of_slave hslave
      refine h.sends_eraseUnit hp unit (by omega) ⟨rfl, .of_mem (Nat.le_refl _) ?_⟩
      omega
    · exact h.sends_eraseUnit_beyond unit hslave

end Attached

/-! ## Session calls -/

theorem Session.silent_advance (n : Nat) (s : Session) (f : Flash) :
    (Session.advance n s f).Silent :=
  .bind (.pure _) fun _ =>
    .bind (.bind (.bind (.advance _ _) fun _ => .pure _) fun _ => .pure _) fun _ => .pure _

theorem Proc.Sends.bind_get_call {β : Type} {g : Session → Session.Call β} {s : Session}
    {D : Delivery → Prop} (hg : (g s s f).Sends e D) : ((get >>= g) s f).Sends e D :=
  hg

/-- A call that makes one operation of the flash. -/
theorem Proc.Sends.bind_flash {α β : Type} {x : FlashProc α} {g : α → Session.Call β} {s : Session}
    {D : Delivery → Prop} (hx : (x f).Sends e D) (hg : ∀ v s f, (g v s f).Silent) :
    ((liftM x >>= g) s f).Sends e D :=
  Proc.Sends.bind_silent (Proc.Sends.bind_silent hx fun _ => .pure _) fun r =>
    hg r.1.1 r.1.2 r.2

namespace Attached

theorem sends_sessionRead (h : Attached f.controller e) (s : Session) (len : Nat) :
    (Session.read len s f).Sends e (Sound (Touched s.position len f)) := by
  refine Proc.Sends.bind_get_call (Proc.Sends.bind_flash (h.sends_read s.position len) ?_)
  intro arrival s f
  obtain ⟨bytes, outcome⟩ := arrival
  cases outcome with
  | error _ => exact .pure _
  | ok _ => exact .bind (Session.silent_advance _ s f) fun _ => .pure _

theorem sends_sessionWrite (h : Attached f.controller e) (s : Session) (data : Bytes) :
    (Session.write data s f).Sends e (Sound (Touched s.position data.length f)) := by
  refine Proc.Sends.bind_get_call (Proc.Sends.bind_flash (h.sends_write s.position data) ?_)
  intro w s f
  rcases w with stopped | n
  · dsimp only
    split
    · exact .pure _
    · exact .bind (Session.silent_advance _ s f) fun _ => .pure _
  · exact .bind (Session.silent_advance _ s f) fun _ => .pure _

end Attached

end NorFlash
