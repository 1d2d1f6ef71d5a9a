import NorFlash.Proofs.Erasing

/-!
# Reading — bursts of a bulk read

A read changes no byte of the flash. What arrives before it ends is the front
of the range, if the driver skips as many dummy bytes as the chips send.
-/

namespace NorFlash

open Emulator (Answered Refused Fired Carried Untouched Passed Stopped Spares)

variable {c c' c'' : Controller} {e m t : Emulator} {i : Fin maxSlaves} {p : UInt64} {a n : Nat}

/-- An address of the flash fits the 32 bits that commands and offsets have. -/
theorem Attached.lt_word32 (h : Attached c e) (ha : a ≤ e.config.capacity) : a < word32Limit := by
  have := h.capacity_bounds.2.2
  simp only [sectorSize, word32Limit] at *
  omega

/-- A read command leaves the chip as it is. -/
theorem react_read (config : EmulatorConfig) (chip : Chip) (hidle : chip.busy = 0)
    (high middle low : UInt8) (blank : Bytes) :
    (chip.react config (Opcode.quadRead :: high :: middle :: low :: blank)).chip = chip ∧
      (chip.react config (Opcode.quadRead :: high :: middle :: low :: blank)).effect ≠
        .whileBusy ∧
      (chip.react config (Opcode.quadRead :: high :: middle :: low :: blank)).effect ≠
        .rejected := by
  by_cases hlen : Chip.readDummyLen < blank.length
  · rw [Chip.react_quadRead config hidle hlen]
    exact ⟨rfl, nofun, nofun⟩
  · rw [Chip.react_quadRead_short config hidle hlen]
    exact ⟨rfl, nofun, nofun⟩

/-- A chip that is not busy clocks out its dummy bytes behind the header of a read,
then its contents. -/
theorem Chip.getElem?_response_quadRead (config : EmulatorConfig) {chip : Chip}
    (hidle : chip.busy = 0) (high middle low : UInt8) {blank : Bytes} {k : Nat}
    (hk : k < blank.length) :
    (chip.react config (Opcode.quadRead :: high :: middle :: low :: blank)).response[
        Opcode.headerLen + k]? =
      some (if k < readDummyLen then 0
        else chip.contents.read (chip.address high middle low + (k - readDummyLen))) := by
  by_cases hlen : readDummyLen < blank.length
  · rw [react_quadRead config hidle hlen]
    by_cases hdummy : k < readDummyLen
    · rw [if_pos hdummy, List.getElem?_append_left (by simp; omega)]
      simp [Bytes.filled, hdummy]
    · have hbehind : Opcode.headerLen + k - (Opcode.headerLen + readDummyLen) =
          k - readDummyLen := by omega
      have hin : k - readDummyLen < blank.length - readDummyLen := by omega
      rw [if_neg hdummy, List.getElem?_append_right (by simp; omega), Bytes.length_filled,
        hbehind]
      simp [PageStore.readRange, List.getElem?_range hin]
  · rw [react_quadRead_short config hidle hlen, if_pos (by omega)]
    exact List.getElem?_replicate_of_lt (by rw [Opcode.headerLen]; omega)

/-- The bytes are what chip `i` holds from `b` on; of the dummy bytes ahead of them
`skip` are left out. -/
def Brings (e : Emulator) (i : Fin maxSlaves) (b skip : Nat) (bytes : Bytes) : Prop :=
  ∀ k < bytes.length, bytes[k]? = some (if skip + k < Chip.readDummyLen then 0
    else (e.chip i).contents.read (b + (skip + k - Chip.readDummyLen)))

/-- With as many dummy bytes skipped as chips send, the range itself arrives. -/
theorem Brings.holds {b : Nat} {bytes : Bytes} (h : Brings e i b Chip.readDummyLen bytes) :
    Holds e i b bytes := by
  intro k hk
  have hbyte := h k hk
  rw [List.getElem?_eq_getElem hk, if_neg (by omega), Nat.add_sub_cancel_left] at hbyte
  exact (Option.some.inj hbyte).symm

/-- Bytes of the range of `n` at `a` arrived, all of them if all went well. -/
structure ReadOut (i : Fin maxSlaves) (a n : Nat) (c : Controller) (e : Emulator)
    (bytes : Bytes) (outcome : Except Error Unit) (c' : Controller) (t : Emulator) : Prop where
  contents : SameContents e t
  le : bytes.length ≤ n
  holds : c.tuning.readDummyLen = Chip.readDummyLen → Holds e i a bytes
  done : outcome = .ok () → Ran Spares i c e c' t ∧ bytes.length = n
  failed : outcome ≠ .ok () → Failed Spares True c e c' t

theorem Ready.readOut_nil (h : Ready c e i) : ReadOut i a 0 c e [] (.ok ()) c e :=
  ⟨.refl e, Nat.le_refl 0, fun _ => .nil e i a, fun _ => ⟨h.ran, rfl⟩, fun hn => absurd rfl hn⟩

/-- Reading on after a part that went through. -/
theorem ReadOut.append {front back : Bytes} {outcome : Except Error Unit} {k : Nat}
    (h : ReadOut i a k c e front (.ok ()) c' m)
    (h' : ReadOut i (a + k) (n - k) c' m back outcome c'' t) (hk : k ≤ n) :
    ReadOut i a n c e (front ++ back) outcome c'' t := by
  obtain ⟨hran, hlen⟩ := h.done rfl
  have hle := h'.le
  refine ⟨h.contents.trans h'.contents, ?_, ?_, ?_, ?_⟩
  · rw [List.length_append]
    omega
  · intro hdummy
    have hback : Holds m i (a + k) back := h'.holds (hran.kept.tuning ▸ hdummy)
    refine (h.holds hdummy).append ?_
    rw [hlen]
    exact fun j hj => (h.contents.cell i _).symm.trans (hback j hj)
  · intro hok
    obtain ⟨hran', hlen'⟩ := h'.done hok
    refine ⟨hran.trans hran', ?_⟩
    rw [List.length_append]
    omega
  · exact fun hne => hran.failed (h'.failed hne)

namespace Ready

/-- The read command itself, with its header and the bytes after it in the
scratch buffer. It changes no chip. -/
theorem ends_runRead (h : Ready c e i) {high middle low : UInt8} {blank rest : Bytes}
    (hscratch : c.scratch = Opcode.quadRead :: high :: middle :: low :: blank ++ rest) :
    Drive.Ends Emulator.block (Controller.runScratch (Opcode.headerLen + blank.length) true) c e
      (fun _ c' t => Ran Spares i c e c' t ∧ t.chips = e.chips ∧ c'.scratch =
        ((e.chip i).react e.config (Opcode.quadRead :: high :: middle :: low :: blank)).response ++
          rest)
      (fun _ c' t => Failed Spares True c e c' t ∧ t.chips = e.chips) := by
  have hop : Opcode.quadRead ∈ Emulator.plainOpcodes := by decide
  obtain ⟨hchip, hbusy, hlatch⟩ := react_read e.config (e.chip i) h.idle high middle low blank
  have hlength := Chip.length_react_response e.config (e.chip i)
    (Opcode.quadRead :: high :: middle :: low :: blank)
  generalize hcommand : Opcode.quadRead :: high :: middle :: low :: blank = command at *
  have hlen : Opcode.headerLen + blank.length = command.length := by
    simp [← hcommand, Opcode.headerLen]
    omega
  have hne : command ≠ [] := by simp [← hcommand]
  have hfirst : command.headD 0 = Opcode.quadRead := by simp [← hcommand]
  -- the chip is as before, whether or not the command reached it
  have hcarried : ∀ t, Fired (command.headD 0) e t → Carried i command e t →
      Kept c e c t ∧ t.chips = e.chips := by
    intro t hf hc
    refine ⟨h.attached.kept_of_carried h.slave hf hc rfl ?_ ?_ hbusy hlatch, ?_⟩
    · rw [hchip]
    · rw [hchip]
    · rw [hc.chips, hchip]
      exact Vector.set_getElem_self i.isLt
  rw [hlen]
  refine (h.attached.ends_runScratch h.slave hscratch hne true).mono ?_ ?_
  · intro _ _ t hpost
    obtain ⟨bytes, ha, rfl⟩ := hpost
    obtain ⟨hkept, hchips⟩ := hcarried t ha.toFired ha.toCarried
    have hbytes : bytes = ((e.chip i).react e.config command).response := ha.bytes_eq
    have hdrop : command.drop bytes.length = [] := by
      rw [hbytes, hlength, List.drop_length]
    rw [hdrop, List.append_nil, hbytes]
    refine ⟨⟨hkept.with_scratch ?_, ?_, h.slave, ?_⟩, hchips, rfl⟩
    · rw [hscratch, List.length_append, List.length_append, hlength]
    · exact ha.toFired.passed (hfirst ▸ hop)
    · rw [Emulator.chip_of_chips hchips]
      exact h.idle
  · intro _ _ t hpost
    obtain ⟨bytes, hf, rfl⟩ := hpost
    have hboth : Kept c e c t ∧ t.chips = e.chips := by
      rcases hf.effect with hu | ⟨-, hc⟩
      · exact ⟨h.attached.kept_of_untouched hf.toFired hu, hu.chips⟩
      · exact hcarried t hf.toFired hc
    have hle := hf.length_le
    refine ⟨⟨hboth.1.with_scratch ?_, hf.stopped_of_plain (hfirst ▸ hop)⟩, hboth.2⟩
    simp only [hscratch, List.length_append, List.length_drop]
    omega

end Ready

/-- A read burst brings what the chip holds from the place on where it lands, and changes
nothing. -/
theorem Attached.lands_readChunk (h : Attached c e)
    (hi : (Address.ofOffset p).slave.toNat = i.val) (hidle : (e.chip i).busy = 0) (hn : 0 < n)
    (hpage : pageIndex p + n ≤ pageSize) :
    Drive.Ends Emulator.block (Controller.readChunk p n) c e
      (fun bytes c' t => Ran Spares i c e c' t ∧ Leaves i (e.chip i).contents 0 e t ∧
        0 < bytes.length ∧ bytes.length ≤ n ∧
        Brings e i (c.landing e i p) c.tuning.readDummyLen bytes)
      (fun _ c' t => Failed Spares True c e c' t ∧ Leaves i (e.chip i).contents 0 e t) := by
  rw [Controller.readChunk, if_neg (by omega)]
  refine Drive.Ends.step (Proc.run_count ?_) ?_
  · simp only [pageSize, wordLimit] at *
    omega
  rw [if_neg (by omega)]
  refine Drive.Ends.bind (h.lands_buildHeader hi hidle _) (fun _ _ _ hf => hf) ?_
  intro _ c₁ e₁ haimed
  have hran := haimed.ran
  have hdepth := hran.kept.attached.overhead_lt
  have hlimit := hran.kept.attached.depth_le
  have hroom := hran.kept.attached.scratch
  generalize hstart : Opcode.headerLen + c₁.tuning.readDummyLen = start at *
  rw [← hroom] at hdepth hlimit
  apply Drive.Ends.bind_get
  rw [hstart]
  refine Drive.Ends.step (Proc.run_count ?_) ?_
  · simp only [Bus.probeLimit, wordLimit] at *
    omega
  generalize hpayload : min n (c₁.scratch.length - start) = payload at *
  dsimp only
  rw [hpayload, if_neg (by omega)]
  refine Drive.Ends.step (Proc.run_count ?_) ?_
  · simp only [Bus.probeLimit, wordLimit] at *
    omega
  apply Drive.Ends.step (Proc.run_slice (by omega) (by omega))
  generalize hblank : Bytes.filled (start + payload - Opcode.headerLen) 0 = blank
  have hlen : blank.length = start + payload - Opcode.headerLen := by
    rw [← hblank, Bytes.length_filled]
  have htotal : start + payload = Opcode.headerLen + blank.length := by omega
  have hfits : Opcode.headerLen + blank.length ≤ c₁.scratch.length := by omega
  apply Drive.Ends.step (Proc.run_overwrite hfits)
  apply Drive.Ends.bind_set
  -- the header is still there, with blank bytes behind it
  obtain ⟨buffer, hbuffer, -, hready, rest, hcommand⟩ := hran.with_payload haimed.scratch hfits
  rw [hbuffer, htotal]
  refine Drive.Ends.bind (hready.ready.ends_runRead hcommand) ?_ ?_
  · intro _ c' t hpost
    obtain ⟨hf, hchips⟩ := hpost
    exact ⟨hready.failed hf, haimed.leaves.trans_chips hchips⟩
  intro _ c₂ e₂ hpost
  obtain ⟨hran₂, hchips₂, hscratch₂⟩ := hpost
  have hcell := fun k (hk : k < blank.length) => Chip.getElem?_response_quadRead e₁.config
    hran.idle (Address.ofOffset p).high (Address.ofOffset p).middle (Address.ofOffset p).low hk
  rw [haimed.address, haimed.leaves.chip_eq.1] at hcell
  have hresponse := Chip.length_react_response e₁.config (e₁.chip i) (Opcode.quadRead ::
    (Address.ofOffset p).high :: (Address.ofOffset p).middle :: (Address.ofOffset p).low :: blank)
  generalize ((e₁.chip i).react e₁.config (Opcode.quadRead :: (Address.ofOffset p).high ::
    (Address.ofOffset p).middle :: (Address.ofOffset p).low :: blank)).response = response at *
  replace hresponse : response.length = Opcode.headerLen + blank.length := by
    rw [hresponse]
    simp [Opcode.headerLen]
    omega
  apply Drive.Ends.bind_get
  apply Drive.Ends.step (Proc.run_split (by rw [hscratch₂, List.length_append]; omega))
  have htake : c₂.scratch.take (Opcode.headerLen + blank.length) = response := by
    rw [hscratch₂, ← hresponse, List.take_left]
  rw [htake]
  apply Drive.Ends.step (Proc.run_split (by dsimp only; omega))
  dsimp only
  have hdatalen : (response.drop start).length = payload := by
    rw [List.length_drop]
    omega
  apply Drive.Ends.step (Proc.run_slice (Nat.zero_le payload) (by omega))
  apply Drive.Ends.step (Proc.run_equal (by rw [Nat.sub_zero, hdatalen]))
  refine Drive.Ends.pure ⟨hready.trans hran₂, haimed.leaves.trans_chips hchips₂, by omega,
    by omega, ?_⟩
  intro k hk
  rw [hran.kept.tuning] at hstart
  rw [List.getElem?_drop, ← hstart, Nat.add_assoc]
  exact hcell _ (by omega)

namespace Ready

/-- One burst of a read brings the front of the range. -/
theorem ends_readChunk (h : Ready c e i) (hp : Locates p i a) (hn : 0 < n)
    (hpage : a % pageSize + n ≤ pageSize) (hfit : a + n ≤ e.config.capacity) :
    Drive.Ends Emulator.block (Controller.readChunk p n) c e
      (fun bytes c' t => 0 < bytes.length ∧ bytes.length ≤ n ∧
        ReadOut i a bytes.length c e bytes (.ok ()) c' t)
      (fun _ c' t => Failed Spares True c e c' t ∧ SameContents e t) := by
  rw [← hp.pageIndex_eq] at hpage
  have hlands := h.attached.lands_readChunk hp.slave h.idle hn hpage
  rw [h.attached.landing_eq hp (by omega)] at hlands
  refine hlands.mono ?_ ?_
  · intro bytes _ _ hpost
    obtain ⟨hran, hleaves, hpos, hle, hbrings⟩ := hpost
    refine ⟨hpos, hle, hleaves.sameContents, Nat.le_refl _, fun hdummy => ?_,
      fun _ => ⟨hran, rfl⟩, fun hne => absurd rfl hne⟩
    rw [hdummy] at hbrings
    exact hbrings.holds
  · exact fun _ _ _ hf => ⟨hf.1, hf.2.sameContents⟩

/-! ## Bursts in a row -/

/-- Bursts bring a range from its front on, until one fails. -/
theorem ends_readOn (h : Ready c e i) (hp : Locates p i a) {fuel left d : Nat}
    (hfuel : left ≤ fuel) (hfit : a + d + left ≤ e.config.capacity) (got : Bytes) :
    (Controller.readOn p fuel left d got c).Ends Emulator.block e fun r t =>
      ∃ bytes, r.1.bytes = got.reverse ++ bytes ∧
        ReadOut i (a + d) left c e bytes r.1.outcome r.2 t := by
  induction fuel generalizing left d got c e with
  | zero =>
    obtain rfl : left = 0 := by omega
    exact Proc.Ends.pure ⟨[], (List.append_nil _).symm, h.readOut_nil⟩
  | succ fuel ih =>
    cases left with
    | zero => exact Proc.Ends.pure ⟨[], (List.append_nil _).symm, h.readOut_nil⟩
    | succ left =>
      rw [Controller.readOn_succ]
      have hlt := h.attached.lt_word32 (Nat.le_trans (Nat.le_add_right (a + d) _) hfit)
      obtain ⟨hword, hpos⟩ := hp.advance hlt
      apply Proc.Ends.step_state (Proc.run_advance hword)
      have hpage := Nat.mod_lt (a + d) pageSize_pos
      rw [hpos.pageIndex_eq]
      have hcapacity := h.attached.lt_word32 hfit
      refine Proc.Ends.step_state (Proc.run_count ?_) ?_
      · simp only [word32Limit, wordLimit, pageSize] at *
        omega
      refine Proc.Ends.bind_state (h.ends_readChunk hpos (by omega) (by omega) (by omega)) ?_
      intro r c₁ e₁ hchunk
      -- a burst that fails brings nothing, so the bytes before it are all there is
      rcases r with error | bytes
      · obtain ⟨hf, hsame⟩ := hchunk
        refine Proc.Ends.pure ⟨[], (List.append_nil _).symm, hsame, Nat.zero_le _,
          fun _ => .nil e i _, fun hdone => ?_, fun _ => hf⟩
        cases hdone
      · obtain ⟨hpos, hle, hout⟩ := hchunk
        obtain ⟨hran, -⟩ := hout.done rfl
        dsimp only
        have hcap := hran.kept.config
        refine Proc.Ends.step_state (Proc.run_count (lt_wordLimit_of_word32 (by omega))) ?_
        refine (ih hran.ready (by omega) (by rw [hcap]; omega) _).mono ?_
        intro r t hpost
        obtain ⟨arrival, c'⟩ := r
        obtain ⟨rest, hrest, hread⟩ := hpost
        refine ⟨bytes ++ rest, ?_, hout.append ?_ (by omega)⟩
        · rw [hrest, List.reverseAux_eq, List.reverse_append, List.reverse_reverse,
            List.append_assoc]
        · rw [Nat.add_assoc]
          exact hread

/-- A bulk read. -/
theorem ends_bulkRead (h : Ready c e i) (hp : Locates p i a) (hfit : a + n ≤ e.config.capacity) :
    (Controller.bulkRead p n c).Ends Emulator.block e fun r t =>
      ReadOut i a n c e r.1.bytes r.1.outcome r.2 t := by
  refine Proc.Ends.bind_state (h.ends_readOn hp (d := 0) (Nat.le_refl n) hfit []) ?_
  intro r c' t hpost
  obtain ⟨bytes, outcome⟩ := r
  obtain ⟨_, rfl, hread⟩ := hpost
  cases outcome with
  | error error => exact Proc.Ends.pure hread
  | ok => exact Proc.Ends.step_state Emulator.run_giveWay (Proc.Ends.pure hread)

end Ready

end NorFlash
