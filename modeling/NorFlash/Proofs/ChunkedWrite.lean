import NorFlash.Proofs.Readback
import NorFlash.Proofs.WriteAll

/-!
# Chunked writes — a command that writes piece by piece

A command writes its data in pieces of 64 KiB, and each piece goes through the
loop that writes all of it. Pieces end inside pages, so a page at a seam is
merged twice, the second time around what the first piece put there. Where
nothing hinders the calls, the pieces leave what one write of all the data
leaves, and reading them back finds no difference.
-/

namespace NorFlash

open Emulator (Unarmed Spares)

variable {α β σ : Type} {b : RegisterBlock σ} {st : σ} {c c₁ c' : Controller}
  {e m t u : Emulator} {i : Fin maxSlaves} {f f' : Flash} {config : EmulatorConfig}
  {tuning : Tuning} {p offset : UInt64} {a n : Nat} {data front back : Bytes} {s : Session}
  {desk : Desk}

/-! ## Calls that nothing hinders, now or later -/

/-- No fault was ever planned: the states that attaching to a prepared emulator, calls and
interference without faults lead to. -/
inductive Faultless (config : EmulatorConfig) (tuning : Tuning) : Flash → Emulator → Prop where
  | attach {f : Flash} {e t : Emulator} (h : Emulator.Prepared config e)
    (hunarmed : e.armed = none)
    (hrun : (Flash.attach tuning).run.run Emulator.block e = (some (.ok f), t)) :
    Faultless config tuning f t
  | handled {f : Flash} {e t : Emulator} (h : Faultless config tuning f e)
    (hh : Emulator.Handled e t) (hunarmed : t.armed = none) : Faultless config tuning f t
  | called {f f' : Flash} {e t : Emulator} (h : Faultless config tuning f e) (call : FlashCall)
    (hrun : (call.perform f).run Emulator.block e = (some ((), f'), t)) :
    Faultless config tuning f' t

theorem Faultless.reachable (h : Faultless config tuning f e) : Reachable config tuning f e := by
  induction h with
  | attach h _ hrun => exact .attach h hrun
  | handled _ hh _ ih => exact .handled ih hh
  | called _ call hrun ih => exact .called ih call hrun

/-- Without faults the FIFOs can always be emptied. -/
theorem Faultless.clear (h : Faultless config tuning f e)
    (hcount : Opcode.headerLen + tuning.readDummyLen < wordLimit) :
    e.armed = none ∧ ¬ e.Blocked := by
  induction h with
  | attach h hunarmed hrun =>
    have hengaged := Proc.Ends.of_run (h.ends_attach tuning hcount) hrun
    exact (hengaged.clear hunarmed).symm
  | handled _ hh hunarmed ih =>
    refine ⟨hunarmed, ?_⟩
    obtain ⟨_, _, _, -, -, -, rfl⟩ := hh.eq
    exact ih.2
  | called h call hrun ih =>
    have hkept := Proc.Ends.of_run (call.ends_perform (h.reachable.invariant hcount).1) hrun
    exact hkept.clear ih.1 ih.2

/-- **On an emulator without faults nothing hinders a call** for a chip that gets ready within
the budget. -/
theorem Faultless.unhindered (h : Faultless config tuning f e)
    (hcount : Opcode.headerLen + tuning.readDummyLen < wordLimit)
    (hresponsive : ∃ i : Fin maxSlaves, (Address.ofOffset p).slave.toNat = i.val ∧
      (e.chip i).busy.toNat ≤ tuning.pollBudget.maxPolls) : Unhindered p tuning e :=
  ⟨(h.clear hcount).1, (h.clear hcount).2, hresponsive⟩

/-- Nothing hinders the calls on chip `i`, and they store and read back exactly. -/
structure Calm (i : Fin maxSlaves) (c : Controller) (e : Emulator) : Prop where
  attached : Attached c e
  dummy : c.tuning.readDummyLen = Chip.readDummyLen
  able : Able c e
  unarmed : e.armed = none
  free : ¬ e.Blocked
  timely : (e.chip i).busy.toNat ≤ c.tuning.pollBudget.maxPolls

/-- No call puts an end to that. -/
theorem Calm.kept (h : Calm i c e) (hk : Kept c e c' t) : Calm i c' t where
  attached := hk.attached
  dummy := hk.tuning ▸ h.dummy
  able := hk.able_iff.mpr h.able
  unarmed := hk.unarmed h.unarmed
  free := (hk.clear h.unarmed h.free).2
  timely := hk.tuning ▸ hk.timely i _ h.able.1 h.timely

theorem Calm.unhindered (h : Calm i c e) (hp : Locates p i a) : Unhindered p c.tuning e :=
  ⟨h.unarmed, h.free, i, hp.slave, h.timely⟩

theorem Calm.legible (h : Calm i c e) : Legible i c e :=
  ⟨h.attached, h.dummy, h.unarmed, h.free, h.timely⟩

/-! ## What a write put on the flash -/

/-- The data stands at `a`, and no other byte is touched. -/
structure Put (i : Fin maxSlaves) (a : Nat) (data : Bytes) (c : Controller) (e : Emulator)
    (c' : Controller) (t : Emulator) : Prop where
  kept : Kept c e c' t
  holds : Holds t i a data
  same : SameOutside i a (a + data.length) e t

/-- All chips hold the same bytes. -/
def SameBytes (e t : Emulator) : Prop :=
  ∀ (i : Fin maxSlaves) (b : Nat), b < e.config.capacity → t.cell i b = e.cell i b

namespace Put

theorem nil (hk : Kept c e c' t) (hs : SameContents e t) : Put i a [] c e c' t :=
  ⟨hk, .nil t i a, hs.sameOutside⟩

/-- Two writes one behind the other are one write. -/
theorem append (h : Put i a front c e c₁ m) (h' : Put i (a + front.length) back c₁ m c' t)
    (hfit : a + (front ++ back).length ≤ e.config.capacity) :
    Put i a (front ++ back) c e c' t := by
  have hconfig := h.kept.config
  have hsame := h.same
  have hsame' := h'.same
  rw [List.length_append] at hfit
  refine ⟨h.kept.trans h'.kept, ?_, ?_⟩
  · exact (h.holds.of_same hsame' (.inl (Nat.le_refl _)) (by rw [hconfig]; omega)).append h'.holds
  · rw [List.length_append]
    exact (hsame.mono (Nat.le_refl a) (by omega)).trans (hsame'.mono (by omega) (by omega)) hconfig

/-- A read back changes nothing. -/
theorem of_contents (h : Put i a data c e c₁ m) (hk : Kept c₁ m c' t) (hs : SameContents m t) :
    Put i a data c e c' t :=
  ⟨h.kept.trans hk, h.holds.of_contents hs,
    fun j k hk hout => (hs.cell j k).trans (h.same j k hk hout)⟩

/-- The data, and where it went, say what every byte is. -/
theorem agree (h : Put i a data c e c₁ t) (h' : Put i a data c e c' u) : SameBytes t u := by
  intro j k hk
  have hk : k < e.config.capacity := h.kept.config ▸ hk
  by_cases hin : j = i ∧ a ≤ k ∧ k < a + data.length
  · obtain ⟨rfl, hlo, hhi⟩ := hin
    have hold := h.holds (k - a) (by omega)
    have hnew := h'.holds (k - a) (by omega)
    rw [Nat.add_sub_cancel' hlo] at hold hnew
    rw [hold, hnew]
  · have hout : j = i → k < a ∨ a + data.length ≤ k := fun hj => by omega
    rw [h.same j k hk hout, h'.same j k hk hout]

theorem of_nil (h : Put i a [] c e c' t) : SameBytes e t :=
  fun j k hk => h.same j k hk fun _ => Nat.lt_or_ge k a

end Put

theorem Complete.put (h : Complete i a data c e c' t)
    (hdummy : c.tuning.readDummyLen = Chip.readDummyLen) : Put i a data c e c' t :=
  ⟨h.ran.kept, h.holds hdummy, h.same hdummy⟩

/-- A write that nothing hinders is one that stores its data. -/
theorem Wrote.put {w : Except PartialWrite Nat} (h : Wrote p data c e w c' t) (hc : Calm i c e)
    (hp : Locates p i a) :
    Put i a data c e c' t ∧ (data ≠ [] → w = .ok data.length) := by
  have hclear := hc.unhindered hp
  cases h with
  | stored _ hbegun hdone =>
    obtain ⟨rfl, rfl⟩ := hbegun.located.unique hp
    exact ⟨hdone.put hc.dummy, fun _ => rfl⟩
  | refused hsame hfailed =>
    by_cases hdata : data = []
    · subst hdata
      exact ⟨.nil hfailed.kept hsame, fun hne => absurd rfl hne⟩
    · exact absurd (hfailed.mono (fun _ => Unarmed.spares) fun h => h)
        (hclear.not_failed ⟨hdata, hclear.responsive⟩)
  | stopped _ hstopped => exact absurd hstopped.failed (hclear.not_failed hc.able)

/-! ## One write -/

namespace Calm

/-- A single write puts the data there, as far as the chip goes. -/
theorem ends_write (h : Calm i f.controller e) (hp : Locates p i a) (data : Bytes) :
    (Flash.write p data f).Ends Emulator.block e fun r t =>
      Put i a (data.take (f.remaining p)) f.controller e r.2.controller t :=
  (h.attached.ends_write p data).mono fun _ _ hw => (hw.2.put h hp).1

/-! ## Pieces -/

/-- A session takes data that fits as a whole. -/
theorem ends_sessionWrite (h : Calm i f.controller e) (hp : Locates s.position i a)
    (hdata : data ≠ []) (hfit : a + data.length ≤ e.config.capacity) :
    (Session.write data s f).Ends Emulator.block e fun r t =>
      r.1 = (.ok data.length, s.moved data.length) ∧
        Put i a data f.controller e r.2.controller t := by
  obtain ⟨w, f', m, hrun, hwrote⟩ := h.attached.run_sessionWrite s data
    (hp.chipOffset_eq ▸ hfit)
  obtain ⟨hput, hok⟩ := hwrote.put h hp
  refine ⟨_, m, hrun, ?_, hput⟩
  rw [hok hdata]
  rfl

/-- So the loop that writes all of it makes one call. -/
theorem ends_writeAll (h : Calm i f.controller e) (hp : Locates s.position i a)
    (hdata : data ≠ []) (hfit : a + data.length ≤ e.config.capacity) :
    (Session.writeAll data s f).Ends Emulator.block e fun r t =>
      r.1 = (.ok (), s.moved data.length) ∧ Put i a data f.controller e r.2.controller t := by
  refine Proc.Ends.writeAll_step hdata (h.ends_sessionWrite hp hdata hfit) ?_ ?_
  · rintro _ _ _ _ ⟨⟨⟩, -⟩
  · rintro n s' f' m ⟨⟨⟩, hput⟩
    refine ⟨List.length_pos_iff.mpr hdata, Nat.le_refl _, ?_⟩
    rw [List.drop_length, Session.writeAllOn_nil]
    exact Proc.Ends.pure ⟨rfl, hput⟩

/-- Pieces, one behind the other, put all of the data there. -/
theorem ends_writePieces (h : Calm i f.controller e) (hp : Locates s.position i a) {fuel : Nat}
    (hfuel : data.length ≤ fuel) (hfit : a + data.length ≤ e.config.capacity) :
    (Command.writePieces fuel data s f).Ends Emulator.block e fun r t =>
      r.1.1 = .ok () ∧ Put i a data f.controller e r.2.controller t := by
  induction fuel generalizing data a s f e with
  | zero =>
    obtain rfl : data = [] := List.eq_nil_of_length_eq_zero (by omega)
    exact Proc.Ends.pure ⟨rfl, .nil h.attached.kept (.refl e)⟩
  | succ fuel ih =>
    cases data with
    | nil => exact Proc.Ends.pure ⟨rfl, .nil h.attached.kept (.refl e)⟩
    | cons byte more =>
      rw [Command.writePieces]
      have hpiece : (byte :: more).take Command.pieceSize ≠ [] := List.cons_ne_nil _ _
      have hsplit := List.take_append_drop Command.pieceSize (byte :: more)
      have hlen := congrArg List.length hsplit
      rw [List.length_append] at hlen
      generalize (byte :: more).take Command.pieceSize = piece at *
      generalize (byte :: more).drop Command.pieceSize = rest at *
      have hpos := List.length_pos_iff.mpr hpiece
      refine Proc.Ends.bind_call (h.ends_writeAll hp hpiece (by omega)) ?_
      rintro r s' f' m ⟨⟨⟩, hput⟩
      have hcap := hput.kept.config
      have hnext : Locates (s.moved piece.length).position i (a + piece.length) :=
        (hp.advance (h.attached.lt_word32 (by omega))).2
      refine (ih (h.kept hput.kept) hnext (by omega) (by rw [hcap]; omega)).mono ?_
      rintro r t ⟨hok, hrest⟩
      refine ⟨hok, ?_⟩
      rw [← hsplit] at hfit ⊢
      exact hput.append hrest hfit

end Calm

/-! ## Commands that go well -/

namespace Command

/-- The command goes well, and leaves this. -/
def Succeeds (b : RegisterBlock σ) (x : Command α) (desk : Desk) (st : σ)
    (A : α → Desk → σ → Prop) : Prop :=
  (x.run desk).Ends b st fun r t => ∃ v, r.1 = .ok v ∧ A v r.2 t

/-- A command that fails in no way succeeds. -/
theorem Ends.succeeds {x : Command α} {A : α → Desk → σ → Prop} {E : ToolError → Desk → σ → Prop}
    (h : Ends b x desk st A E) (hno : ∀ error d t, ¬ E error d t) : Succeeds b x desk st A := by
  refine Proc.Ends.mono h fun r t hpost => ?_
  obtain ⟨error | v, d⟩ := r
  · exact absurd hpost (hno error d t)
  · exact ⟨v, rfl, hpost⟩

namespace Succeeds

variable {x : Command α} {g : α → Command β} {M A : α → Desk → σ → Prop} {B : β → Desk → σ → Prop}

theorem mono (h : Succeeds b x desk st M) (hm : ∀ v d t, M v d t → A v d t) :
    Succeeds b x desk st A :=
  Proc.Ends.mono h fun _ _ ⟨v, hv, h⟩ => ⟨v, hv, hm v _ _ h⟩

theorem pure {v : α} (h : A v desk st) : Succeeds b (Pure.pure v) desk st A :=
  Proc.Ends.pure ⟨v, rfl, h⟩

theorem bind (hx : Succeeds b x desk st M)
    (hg : ∀ v d t, M v d t → Succeeds b (g v) d t B) : Succeeds b (x >>= g) desk st B := by
  refine Proc.Ends.bind hx fun r t hr => ?_
  obtain ⟨r, d⟩ := r
  obtain ⟨v, rfl, hv⟩ := hr
  exact hg v d t hv

/-- A step that reads and writes no register. -/
theorem step {v : α} {d : Desk} (hx : x.run desk = Pure.pure (.ok v, d))
    (hg : Succeeds b (g v) d st B) : Succeeds b (x >>= g) desk st B := by
  rw [Succeeds, run_bind_ok hx]
  exact hg

theorem ends (h : Succeeds b x desk st A) : Ends b x desk st A fun _ _ _ => False := by
  refine Proc.Ends.mono h fun r t hpost => ?_
  obtain ⟨_, d⟩ := r
  obtain ⟨v, rfl, hv⟩ := hpost
  exact hv

/-- A step that does not use the desk and whose run is known. -/
theorem step_lift {q : Proc α} {v : α} {st' : σ} (hq : q.run b st = (some v, st'))
    (hg : Succeeds b (g v) desk st' B) : Succeeds b (liftM q >>= g) desk st B :=
  (Ends.step_lift hq hg.ends).succeeds fun _ _ _ => id

end Succeeds

/-! ## The command -/

/-- Pieces are written up to the end of the chip, and no session stays open. -/
theorem succeeds_writeRange (hdesk : desk.flash = f) (h : Calm i f.controller e)
    (hp : Locates offset i a) (hin : a < f.capacity) (hclosed : ¬ f.sessionOpen = true)
    (data : Bytes) :
    Succeeds Emulator.block (writeRange offset data) desk e fun n d t =>
      n = min data.length (f.remaining offset) ∧
        Put i a (data.take (f.remaining offset)) f.controller e d.flash.controller t := by
  subst hdesk
  have hremaining : desk.flash.remaining offset = e.config.capacity - a := by
    rw [h.attached.remaining_eq, hp.chipOffset_eq]
  have hcapacity : desk.flash.capacity = e.config.capacity := h.attached.capacity_eq
  refine .step (run_remainingFrom_ok (by omega)) ?_
  have hlen : (data.take (desk.flash.remaining offset)).length =
      min data.length (desk.flash.remaining offset) := by
    rw [List.length_take, Nat.min_comm]
  dsimp only
  generalize data.take (desk.flash.remaining offset) = taken at *
  have hfit : a + taken.length ≤ e.config.capacity := by omega
  refine .bind (M := fun _ d t => Put i a taken desk.flash.controller e d.flash.controller t)
    ?_ fun _ _ _ hput => .pure ⟨hlen, hput⟩
  have hbody := Calm.ends_writePieces (f := { desk.flash with sessionOpen := true })
    (s := { position := offset }) h hp (Nat.le_refl _) hfit
  refine ((ends_withSession hclosed (A := fun r f t => r = .ok () ∧
    Put i a taken desk.flash.controller e f.controller t) (fun _ => hbody)
    fun hfar => absurd hp.le_maxPosition hfar).succeeds ?_).mono ?_
  · intro error d t hpost
    obtain ⟨f, ⟨hok, -⟩, -⟩ := hpost
    cases hok
  · intro v d t hpost
    obtain ⟨f, ⟨-, hput⟩, rfl⟩ := hpost
    exact hput

/-- Data that stands on the chip passes the comparison. -/
theorem succeeds_verify (h : Calm i desk.flash.controller e) (hp : Locates offset i a)
    (hfit : a + data.length ≤ e.config.capacity) (hholds : Holds e i a data) :
    Succeeds Emulator.block (verify offset data) desk e fun _ d t =>
      Kept desk.flash.controller e d.flash.controller t ∧ SameContents e t := by
  refine ((ends_verify h.legible hp hfit).succeeds fun _ _ _ hrefuted => ?_).mono
    fun _ _ _ hpassed => ⟨hpassed.kept, hpassed.contents⟩
  obtain ⟨-, j, q, hdiffers, -⟩ := hrefuted
  exact hdiffers.not_holds hholds

/-- **The command stores its data as far as the chip goes**, whether it compares or not. -/
theorem succeeds_write (hdesk : desk.flash = f) (h : Calm i f.controller e)
    (hp : Locates offset i a) (hin : a < f.capacity) (hclosed : ¬ f.sessionOpen = true)
    {input : String} (hfile : desk.workspace.read input = .ok data) (verified : Bool) :
    Succeeds Emulator.block (write input offset verified) desk e fun _ d t =>
      Put i a (data.take (f.remaining offset)) f.controller e d.flash.controller t := by
  have hremaining : f.remaining offset = e.config.capacity - a := by
    rw [h.attached.remaining_eq, hp.chipOffset_eq]
  have hcapacity : f.capacity = e.config.capacity := h.attached.capacity_eq
  refine .step (run_readFile hfile) (.step (run_print _) ?_)
  refine .bind (succeeds_writeRange ?_ h hp hin hclosed data) ?_
  · exact hdesk
  rintro n d m ⟨rfl, hput⟩
  have hlen : (data.take (f.remaining offset)).length = min (f.remaining offset) data.length :=
    List.length_take
  have hverify : Succeeds Emulator.block (do
      if verified then
        verify offset (data.take (min data.length (f.remaining offset)))
        print "Verification passed\n") d m fun _ d t =>
      Put i a (data.take (f.remaining offset)) f.controller e d.flash.controller t := by
    split
    · rw [Nat.min_comm, ← List.take_eq_take_min]
      have hfit : a + (data.take (f.remaining offset)).length ≤ m.config.capacity := by
        rw [hput.kept.config]
        omega
      refine .bind (succeeds_verify (h.kept hput.kept) hp hfit hput.holds) fun _ d' t hpost => ?_
      obtain ⟨hkept, hsame⟩ := hpost
      exact .step (run_print _) (.pure (hput.of_contents hkept hsame))
    · exact .pure hput
  dsimp only
  split
  · exact .step_lift Emulator.run_log hverify
  · exact hverify

end Command

/-! ## Pieces and one write -/

/-- **Writing piece by piece agrees with one write.** Where nothing hinders calls, a command
that writes a file goes well, with or without comparing what it wrote; so does its writing of
the range, which answers how many bytes fit the chip. Both leave every chip as a single write
of the data does from the same state, and an empty file changes nothing. -/
theorem Reachable.write_agrees (h : Reachable config tuning f e)
    (hdummy : tuning.readDummyLen = Chip.readDummyLen) (hlimit : 0 < tuning.writeMaxLen)
    (hbusy : config.busyPolls.toNat ≤ tuning.pollBudget.maxPolls)
    (hclear : Unhindered p tuning e) (hin : (chipOffset p).toNat < f.capacity)
    (hclosed : f.sessionOpen = false) {input : String} (hdesk : desk.flash = f)
    (hfile : desk.workspace.read input = .ok data) (verified : Bool) :
    (Flash.write p data f).Ends Emulator.block e fun _ once =>
      (Command.write input p verified).Succeeds Emulator.block desk e
        (fun _ _ t => SameBytes once t ∧ (data = [] → SameBytes e t)) ∧
      (Command.writeRange p data).Succeeds Emulator.block desk e
        (fun n _ t => n = min data.length (f.capacity - (chipOffset p).toNat) ∧
          SameBytes once t ∧ (data = [] → SameBytes e t)) := by
  obtain ⟨hattached, htuning, hconfig⟩ := h.invariant (by rw [hdummy]; decide)
  obtain ⟨i, hslave, htimely⟩ := hclear.responsive
  have hp : Locates p i (chipOffset p).toNat := ⟨hslave, (chipOffset_toNat p).symm⟩
  have hcalm : Calm i f.controller e := by
    refine ⟨hattached, htuning ▸ hdummy, ?_, hclear.unarmed, hclear.free, htuning ▸ htimely⟩
    rw [Able, Patient, hconfig, htuning]
    exact ⟨hbusy, hlimit⟩
  have hopen : ¬ f.sessionOpen = true := by rw [hclosed]; decide
  have hempty : ∀ {c' t}, Put i (chipOffset p).toNat (data.take (f.remaining p)) f.controller e
      c' t → data = [] → SameBytes e t := by
    rintro c' t hput rfl
    rw [List.take_nil] at hput
    exact hput.of_nil
  refine (hcalm.ends_write hp data).mono fun r once honce => ⟨?_, ?_⟩
  · exact (Command.succeeds_write hdesk hcalm hp hin hopen hfile verified).mono
      fun _ _ _ hput => ⟨honce.agree hput, hempty hput⟩
  · exact (Command.succeeds_writeRange hdesk hcalm hp hin hopen data).mono
      fun _ _ _ hn => ⟨hn.1, honce.agree hn.2, hempty hn.2⟩

/-- Four bytes across a page boundary, compared afterwards, on a default emulator that was
never planned a fault. -/
theorem write_agrees_default :
    ∃ f e, Faultless {} {} f e ∧
      (Flash.write 0xffe [1, 2, 3, 4] f).Ends Emulator.block e fun _ once =>
        (Command.write "in" 0xffe true).Succeeds Emulator.block
          { flash := f, workspace := .ofFiles [("in", [1, 2, 3, 4])] } e
          fun _ _ t => SameBytes once t := by
  obtain ⟨r, e, hrun, hr⟩ := Emulator.Prepared.fresh.ends_attach {} (by decide)
  cases r with
  | error error => exact absurd attachable_default hr
  | ok f =>
    have hengaged : Engaged {} (.ofConfig {}) f.controller e := hr
    have hfaultless : Faultless {} {} f e := .attach .fresh rfl hrun
    have hclosed : f.sessionOpen = false := (Flash.closed_of_attach hrun).2
    have hcapacity : f.capacity = sectorSize := hengaged.capacity_eq
    have hfile : (Workspace.ofFiles [("in", [1, 2, 3, 4])]).read "in" = .ok [1, 2, 3, 4] :=
      rfl
    refine ⟨f, e, hfaultless, (hfaultless.reachable.write_agrees rfl (by decide) (by decide)
      (hfaultless.unhindered (by decide) ⟨firstChip, by decide, ?_⟩) ?_ hclosed rfl hfile
      true).mono fun _ _ h => h.1.mono fun _ _ _ h => h.1⟩
    · rw [hengaged.ready.idle]
      exact Nat.zero_le _
    · rw [hcapacity]
      decide

end NorFlash
