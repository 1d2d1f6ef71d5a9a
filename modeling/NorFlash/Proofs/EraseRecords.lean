import Mathlib.Data.List.Chain
import NorFlash.Proofs.Bounds
import NorFlash.Proofs.ChipSteps
import NorFlash.Proofs.Coherence

/-!
# Erase records — what a write erases

An emulator records the erases that its chips carry out. A write that goes
through adds records that tile the 4 KiB pages its range touches: from page to
page, each of them the largest unit that starts at its place and that the rest of
the data covers, or one page where there is no such unit.
-/

namespace NorFlash

open Emulator (block)

variable {α : Type} {e t : Emulator} {c c' : Controller} {i : Fin maxSlaves} {p : UInt64}
  {a n : Nat} {data page : Bytes} {f : Flash} {r : EraseRecord}
  {records rest : List EraseRecord}

/-! ## Tilings -/

/-- With `n` more bytes to write at `a`, this is what is erased next. -/
def Chosen (a n : Nat) (r : EraseRecord) : Prop :=
  (∃ unit : EraseUnit, r.base = a ∧ r.size = unit.bytes ∧ a % unit.bytes = 0 ∧ unit.bytes ≤ n ∧
      ∀ u : EraseUnit, a % u.bytes = 0 → u.bytes ≤ n → u.bytes ≤ unit.bytes) ∨
    r.base = a - a % pageSize ∧ r.size = pageSize ∧ ∀ u : EraseUnit, a % u.bytes = 0 → n < u.bytes

/-- What is erased on chip `i` for `n` bytes at `a`, record by record. -/
inductive Cover (i : Fin maxSlaves) : Nat → Nat → List EraseRecord → Prop where
  | done {a : Nat} : Cover i a 0 []
  | next {a n : Nat} {r : EraseRecord} {rest : List EraseRecord} (hn : 0 < n)
    (hslave : r.slave = i) (hr : Chosen a n r)
    (hrest : Cover i (r.base + r.size) (a + n - (r.base + r.size)) rest) : Cover i a n (r :: rest)

namespace Chosen

variable (h : Chosen a n r)

include h

theorem aligned : ∃ unit : EraseUnit, r.size = unit.bytes ∧ r.base % unit.bytes = 0 := by
  obtain ⟨unit, hbase, hsize, halign, -⟩ | ⟨hbase, hsize, -⟩ := h
  · exact ⟨unit, hsize, hbase ▸ halign⟩
  · refine ⟨.page, hsize, ?_⟩
    rw [hbase]
    simp only [EraseUnit.bytes, pageSize]
    omega

/-- The record starts with the page of its place. -/
theorem base_eq : r.base = a - a % pageSize := by
  obtain ⟨unit, hbase, -, halign, -⟩ | ⟨hbase, -⟩ := h
  · have hpage : a % pageSize = 0 :=
      Nat.mod_eq_zero_of_dvd (Nat.dvd_trans unit.pageSize_dvd_bytes (Nat.dvd_of_mod_eq_zero halign))
    rw [hbase, hpage, Nat.sub_zero]
  · exact hbase

theorem end_mod : (r.base + r.size) % pageSize = 0 := by
  obtain ⟨unit, hsize, halign⟩ := h.aligned
  rw [hsize]
  refine Nat.mod_eq_zero_of_dvd (Nat.dvd_add ?_ unit.pageSize_dvd_bytes)
  exact Nat.dvd_trans unit.pageSize_dvd_bytes (Nat.dvd_of_mod_eq_zero halign)

theorem lt_end : a < r.base + r.size := by
  obtain ⟨unit, hsize, -⟩ := h.aligned
  have hmod := Nat.mod_lt a pageSize_pos
  have hle := unit.pageSize_le_bytes
  rw [h.base_eq, hsize]
  omega

/-- The record lies in the pages of its bytes, and a larger one than a page in the
bytes themselves. -/
theorem size_le : r.size = pageSize ∨ r.base = a ∧ r.size ≤ n := by
  obtain ⟨unit, hbase, hsize, -, hle, -⟩ | ⟨-, hsize, -⟩ := h
  · exact .inr ⟨hbase, hsize ▸ hle⟩
  · exact .inl hsize

/-- The pages of all the bytes are the record and the pages of the rest. -/
theorem nearby_iff (hn : 0 < n) (b : Nat) :
    Nearby a n b ↔ r.base ≤ b ∧ b < r.base + r.size ∨
      Nearby (r.base + r.size) (a + n - (r.base + r.size)) b := by
  have hbase := h.base_eq
  have hend := h.end_mod
  have hlt := h.lt_end
  have hsize := h.size_le
  simp only [Nearby, pageSize] at *
  constructor
  · rintro ⟨k, hk, hb⟩
    by_cases hin : a + k < r.base + r.size
    · exact .inl (by omega)
    · exact .inr ⟨a + k - (r.base + r.size), by omega, by rw [hb]; congr 1; omega⟩
  · rintro (⟨hlo, hhi⟩ | ⟨k, hk, hb⟩)
    · by_cases hbefore : b < a
      · exact ⟨0, hn, by omega⟩
      · by_cases hafter : b < a + n
        · exact ⟨b - a, by omega, by congr 1; omega⟩
        · exact ⟨n - 1, by omega, by omega⟩
    · exact ⟨r.base + r.size + k - a, by omega, by rw [hb]; congr 1; omega⟩

end Chosen

namespace Cover

/-- A page operation takes bytes up to the end of its unit, if there are as many. -/
theorem next_of_taken {k : Nat} (hrest : Cover i (a + k) (n - k) rest) (hn : 0 < n)
    (hslave : r.slave = i) (hr : Chosen a n r) (hk : k = min (r.base + r.size - a) n) :
    Cover i a n (r :: rest) := by
  have hlt := hr.lt_end
  refine .next hn hslave hr ?_
  by_cases hall : k < n
  · rwa [show r.base + r.size = a + k by omega, show a + n - (a + k) = n - k by omega]
  · rw [show n - k = 0 by omega] at hrest
    rw [show a + n - (r.base + r.size) = 0 by omega]
    cases hrest with
    | done => exact .done
    | next hpos => exact absurd hpos (Nat.lt_irrefl 0)

theorem slave_eq (h : Cover i a n records) : ∀ r ∈ records, r.slave = i := by
  induction h with
  | done => nofun
  | next _ hslave _ _ ih => exact List.forall_mem_cons.mpr ⟨hslave, ih⟩

/-- No record starts ahead of the page of the first byte. -/
theorem le_base (h : Cover i a n records) : ∀ r ∈ records, a - a % pageSize ≤ r.base := by
  induction h with
  | done => nofun
  | next _ _ hr _ ih =>
    refine List.forall_mem_cons.mpr ⟨Nat.le_of_eq hr.base_eq.symm, fun r' hr' => ?_⟩
    have hle := ih r' hr'
    have hend := hr.end_mod
    have hlt := hr.lt_end
    omega

theorem head_base (h : Cover i a n (r :: rest)) : r.base = a - a % pageSize := by
  cases h with
  | next _ _ hr _ => exact hr.base_eq

theorem chain (h : Cover i a n records) :
    records.IsChain fun r r' => r.base + r.size = r'.base := by
  induction h with
  | done => exact .nil
  | @next _ _ _ rest _ _ hr hrest ih =>
    cases rest with
    | nil => exact .singleton _
    | cons r' rest =>
      refine .cons_cons ?_ ih
      rw [hrest.head_base, hr.end_mod, Nat.sub_zero]

theorem pairwise (h : Cover i a n records) :
    records.Pairwise fun r r' => r.base + r.size ≤ r'.base := by
  induction h with
  | done => exact .nil
  | next _ _ hr hrest ih =>
    refine .cons (fun r' hr' => ?_) ih
    have hle := hrest.le_base r' hr'
    rwa [hr.end_mod, Nat.sub_zero] at hle

/-- The records are the pages of the bytes. -/
theorem exists_mem_iff (h : Cover i a n records) (b : Nat) :
    (∃ r ∈ records, r.base ≤ b ∧ b < r.base + r.size) ↔ Nearby a n b := by
  induction h with
  | done => exact ⟨fun ⟨_, hmem, _⟩ => (List.not_mem_nil hmem).elim, fun ⟨_, hk, _⟩ => by omega⟩
  | next hn _ hr _ ih => rw [hr.nearby_iff hn, ← ih, List.exists_mem_cons_iff]

/-- Each record is what is chosen at its place, with the bytes that are left there. -/
theorem chosen (h : Cover i a n records) :
    ∀ r ∈ records, max a r.base < a + n ∧ Chosen (max a r.base) (a + n - max a r.base) r := by
  induction h with
  | done => nofun
  | @next a n r rest hn _ hr hrest ih =>
    have hbase := hr.base_eq
    have hlt := hr.lt_end
    refine List.forall_mem_cons.mpr ⟨?_, fun r' hr' => ?_⟩
    · rw [Nat.max_eq_left (hbase ▸ Nat.sub_le _ _), Nat.add_sub_cancel_left]
      exact ⟨by omega, hr⟩
    · have hle := hrest.le_base r' hr'
      obtain ⟨hbound, hchosen⟩ := ih r' hr'
      rw [hr.end_mod, Nat.sub_zero] at hle
      rw [Nat.max_eq_right hle] at hbound hchosen
      rw [Nat.max_eq_right (by omega)]
      refine ⟨by omega, ?_⟩
      rwa [show a + n - r'.base =
        r.base + r.size + (a + n - (r.base + r.size)) - r'.base by omega]

end Cover

/-- The records are units of chip `i`, one right behind the other, that tile the pages
which the `n` bytes at `a` touch. What is more than a page lies in the bytes, and each
unit is what is chosen at its place. -/
structure Tiled (i : Fin maxSlaves) (a n : Nat) (records : List EraseRecord) : Prop where
  slave : ∀ r ∈ records, r.slave = i
  aligned : ∀ r ∈ records, ∃ unit : EraseUnit, r.size = unit.bytes ∧ r.base % unit.bytes = 0
  contiguous : records.IsChain fun r r' => r.base + r.size = r'.base
  disjoint : records.Pairwise fun r r' => r.base + r.size ≤ r'.base
  pages : ∀ b, (∃ r ∈ records, r.base ≤ b ∧ b < r.base + r.size) ↔ Nearby a n b
  inside : ∀ r ∈ records, r.size ≠ pageSize → a ≤ r.base ∧ r.base + r.size ≤ a + n
  chosen : ∀ r ∈ records, Chosen (max a r.base) (a + n - max a r.base) r

theorem Cover.tiled (h : Cover i a n records) : Tiled i a n records where
  slave := h.slave_eq
  aligned r hr := (h.chosen r hr).2.aligned
  contiguous := h.chain
  disjoint := h.pairwise
  pages := h.exists_mem_iff
  inside r hr hsize := by
    obtain ⟨hlt, hchosen⟩ := h.chosen r hr
    obtain ⟨hbase, hle⟩ := hchosen.size_le.resolve_left hsize
    omega
  chosen r hr := (h.chosen r hr).2

/-! ## The unit of a page operation -/

/-- The unit is the largest that starts at the offset and that the bytes cover. -/
theorem EraseUnit.le_of_forSpan? {unit u : EraseUnit} (h : forSpan? p n = some unit)
    (haligned : u.isAligned p = true) (hle : u.bytes ≤ n) : u.bytes ≤ unit.bytes := by
  obtain ⟨-, before, after, hsplit, hskipped⟩ := List.find?_eq_some_iff_append.mp h
  have hsorted : largestFirst.Pairwise fun u v => v.bytes ≤ u.bytes := by decide
  have hmem : u ∈ largestFirst := by cases u <;> decide
  rw [hsplit] at hsorted hmem
  rcases List.mem_append.mp hmem with hu | hu
  · have hskip := hskipped u hu
    simp [haligned, hle] at hskip
  · rcases List.mem_cons.mp hu with rfl | hu
    · exact Nat.le_refl _
    · exact List.rel_of_pairwise_cons (List.pairwise_append.mp hsorted).2.1 hu

/-- What a page operation on `n` bytes at `a` erases. -/
def pageRecord (i : Fin maxSlaves) (a n : Nat) : EraseRecord :=
  ⟨i, pageUnitStart a n, (pageUnit a n).bytes⟩

theorem Locates.chosen (hp : Locates p i a) (n : Nat) : Chosen a n (pageRecord i a n) := by
  rw [pageRecord, pageUnitStart, hp.pageUnit_eq]
  cases hunit : EraseUnit.forSpan? p n with
  | some unit =>
    obtain ⟨haligned, hcovered⟩ := EraseUnit.of_forSpan? hunit
    have halign := (hp.isAligned_iff unit).mp haligned
    refine .inl ⟨unit, ?_, rfl, halign, hcovered, fun u hu hle => ?_⟩
    · rw [Option.getD_some, halign, Nat.sub_zero]
    · exact EraseUnit.le_of_forSpan? hunit ((hp.isAligned_iff u).mpr hu) hle
  | none =>
    refine .inr ⟨rfl, rfl, fun u hu => Nat.lt_of_not_le fun hle => ?_⟩
    have hnone := List.find?_eq_none.mp hunit u (by cases u <;> decide)
    rw [(hp.isAligned_iff u).mpr hu, Bool.true_and, decide_eq_true_eq] at hnone
    exact hnone hle

/-! ## Runs that erase nothing -/

/-- The command erases nothing, whatever chip it reaches. -/
def Delivery.ErasesNothing (d : Delivery) : Prop :=
  ∀ config base size, (d.reaction config).effect ≠ .erased base size

namespace Delivery

/-- Only an erase command erases. -/
theorem of_erased {d : Delivery} {config : EmulatorConfig} {base size : Nat}
    (h : (d.reaction config).effect = .erased base size) :
    ∃ (unit : EraseUnit) (high middle low : UInt8) (operands : Bytes),
      d.command = unit.opcode :: high :: middle :: low :: operands := by
  obtain ⟨slave, chip, command⟩ := d
  have hstep := Chip.step_react config chip command
  rw [show (chip.react config command).effect = .erased base size from h] at hstep
  generalize (chip.react config command).chip = after at hstep
  cases hstep with
  | kept _ heffect => exact absurd trivial heffect
  | erased unit high middle low operands => exact ⟨unit, high, middle, low, operands, rfl⟩

theorem erasesNothing_of_plain {d : Delivery} (h : d.Sound fun _ _ => False) :
    d.ErasesNothing := by
  intro config base size heffect
  obtain ⟨unit, high, middle, low, operands, hcommand⟩ := of_erased heffect
  refine h.inside (d.chip.address high middle low) ?_
  rw [address?, hcommand]
  exact if_pos (by cases unit <;> decide)

theorem allows_erasesNothing {opcode : UInt8} (h : ∀ unit : EraseUnit, unit.opcode ≠ opcode) :
    Allows ErasesNothing opcode i a where
  plain _ hd := erasesNothing_of_plain hd
  headed _ _ _ config base size heffect := by
    obtain ⟨unit, _, _, _, _, hcommand⟩ := of_erased heffect
    exact h unit (List.cons.inj hcommand).1.symm

theorem allows_read : Allows ErasesNothing Opcode.quadRead i a :=
  allows_erasesNothing fun unit => by cases unit <;> decide

theorem allows_program (v : Vendor) : Allows ErasesNothing v.programOpcode i a :=
  allows_erasesNothing fun unit => by cases unit <;> cases v <;> decide

end Delivery

namespace Emulator

theorem erases_observe {stats : EmulatorStats} {effect : Chip.Effect}
    (h : ∀ base size, effect ≠ .erased base size) :
    (observe stats i effect).erases = stats.erases := by
  cases effect with
  | erased base size => exact absurd rfl (h base size)
  | _ => rfl

theorem erases_runBurst (h : ∀ d ∈ e.burst?, d.ErasesNothing) :
    e.runBurst.stats.erases = e.stats.erases := by
  cases hselected : e.selected? with
  | none =>
    have hselected' : ∀ (bits : UInt32) (armed : Option ArmedFault) (tx : Fifo)
        (stats : EmulatorStats), { e with errors := bits, armed, tx, stats }.selected? = none :=
      fun _ _ _ _ => hselected
    rw [runBurst]
    generalize strike e.armed (e.tx.toList.headD 0) = struck
    obtain ⟨fault, armed⟩ := struck
    rcases fault with _ | (_ | _ | _ | _ | _) <;> simp only [execute, hselected']
  | some i =>
    obtain ⟨fault, armed, hs⟩ : ∃ fault armed, strike e.armed (e.tx.toList.headD 0) =
        (fault, armed) := ⟨_, _, rfl⟩
    rw [burst?, hselected, hs] at h
    rw [runBurst_eq rfl hselected hs]
    rcases fault with _ | (_ | _ | _ | _ | _)
    case some.stall => rfl
    case some.error => rfl
    all_goals exact erases_observe (h _ rfl e.config)

theorem erases_write {word : UInt32} {r : Register}
    (h : ∀ d ∈ e.delivery? word r, d.ErasesNothing) :
    (e.write word r).stats.erases = e.stats.erases := by
  cases r with
  | control =>
    rw [delivery?] at h
    rw [write, writeControl]
    split
    · rename_i hstarts
      rw [if_pos hstarts] at h
      exact erases_runBurst (e := { e.resetFifos word with
        control := word &&& ~~~Control.fifoResets }) h
    · rfl
  | reset =>
    rw [write]
    split <;> rfl
  | tx =>
    rw [write]
    split <;> rfl
  | status | rx | slaveSelect => rfl

end Emulator

/-- A run whose commands erase nothing records no erase. -/
theorem Proc.erases_run {p : Proc α} (h : p.Sends e Delivery.ErasesNothing) :
    (p.run block e).2.stats.erases = e.stats.erases := by
  induction p generalizing e with
  | done | trap => rfl
  | read r next ih =>
    obtain ⟨-, -, hstats⟩ := run_block_read e r
    have hrest := ih (block.read r.offset e).1 (e := (block.read r.offset e).2) h
    rw [hstats] at hrest
    exact hrest
  | write r v next ih =>
    rw [Sends, deliveries, run_block_write] at h
    have hrest := ih () (e := e.write v r) fun d hd => h d (List.mem_append_right _ hd)
    rw [run_write, hrest]
    exact Emulator.erases_write fun d hd =>
      h d (List.mem_append_left _ (Option.mem_toList.mpr hd))
  | delay us next ih => exact ih () (e := block.delay us e) h
  | yield next ih => exact ih () h
  | note m next ih => exact ih () h

/-! ## What operations record -/

section Quiet

open Delivery (ErasesNothing)

/-- How a run ends that records no erase. -/
theorem Proc.Ends.quiet {p : Proc α} {A : α → Emulator → Prop} (h : p.Ends block e A)
    (hs : p.Sends e ErasesNothing) :
    p.Ends block e fun a t => A a t ∧ t.stats.erases = e.stats.erases := by
  obtain ⟨a, t, hrun, ha⟩ := h
  have herases := Proc.erases_run hs
  rw [hrun] at herases
  exact ⟨a, t, hrun, ha, herases⟩

theorem Drive.Ends.quiet {x : Drive α} {A : α → Controller → Emulator → Prop}
    {E : Error → Controller → Emulator → Prop} (h : Drive.Ends block x c e A E)
    (hs : Drive.Sends x c e ErasesNothing) :
    Drive.Ends block x c e (fun a c' t => A a c' t ∧ t.stats.erases = e.stats.erases)
      fun _ _ _ => True := by
  refine (Proc.Ends.quiet h hs).mono ?_
  rintro ⟨error | a, c'⟩ t ⟨hr, herases⟩
  · trivial
  · exact ⟨hr, herases⟩

theorem Controller.Merge.Ends.quiet {x : Controller.Merge α}
    {A : α → Bytes → Controller → Emulator → Prop}
    {E : Error → Bytes → Controller → Emulator → Prop}
    (h : Controller.Merge.Ends block x page c e A E)
    (hs : Controller.Merge.Sends x page c e ErasesNothing) :
    Controller.Merge.Ends block x page c e
      (fun a page' c' t => A a page' c' t ∧ t.stats.erases = e.stats.erases)
      fun _ _ _ _ => True := by
  refine (Proc.Ends.quiet h hs).mono ?_
  rintro ⟨⟨error | a, page'⟩, c'⟩ t ⟨hr, herases⟩
  · trivial
  · exact ⟨hr, herases⟩

end Quiet

open Delivery (erasesNothing_of_plain allows_read allows_program)
open Emulator (Spares)

/-- The erase command itself. -/
theorem Ready.records_runErase (h : Ready c e i) {unit : EraseUnit}
    (hh : Headed unit.opcode p i c e) (hp : Locates p i a)
    (hlatch : (e.chip i).writeEnabled = true) (halign : a % unit.bytes = 0) :
    Drive.Ends block (Controller.runScratch Opcode.headerLen false) c e
      (fun _ _ t => t.stats.erases = e.stats.erases.push ⟨i, a, unit.bytes⟩)
      fun _ _ _ => True := by
  obtain ⟨rest, hscratch⟩ := hh.scratch
  have hr := Chip.react_erase e.config h.idle hlatch unit
    (Address.ofOffset p).high (Address.ofOffset p).middle (Address.ofOffset p).low
  rw [hh.address hp, halign, Nat.sub_zero] at hr
  have hcommand : c.scratch = [unit.opcode, (Address.ofOffset p).high, (Address.ofOffset p).middle,
      (Address.ofOffset p).low] ++ rest := hscratch
  refine (h.attached.ends_runScratch h.slave hcommand (by simp) false).mono ?_
    fun _ _ _ _ => trivial
  rintro _ _ t ⟨bytes, hanswered, -⟩
  have herases := hanswered.record.erases
  rw [hr] at herases
  exact herases

/-- An erase that goes through is recorded. -/
theorem Attached.records_eraseUnit (h : Attached c e) (hp : Locates p i a) (unit : EraseUnit)
    (hfit : a + unit.bytes ≤ e.config.capacity) :
    Drive.Ends block (Controller.eraseUnit p unit) c e
      (fun _ _ t => t.stats.erases = e.stats.erases.push ⟨i, a, unit.bytes⟩)
      fun _ _ _ => True := by
  rw [Controller.eraseUnit]
  by_cases halign : a % unit.bytes = 0
  case neg =>
    rw [if_neg (mt (hp.isAligned_iff unit).mp halign)]
    exact Drive.Ends.step Emulator.run_log (Drive.Ends.throw trivial)
  have hlt : a < e.config.capacity := by
    have := unit.bytes_pos
    omega
  rw [if_pos ((hp.isAligned_iff unit).mpr halign)]
  refine Drive.Ends.bind (h.ends_setActiveSlave _) (fun _ _ _ _ => trivial) ?_
  rintro _ c₁ _ ⟨rfl, hk₁, hslave, -⟩
  have hi₁ : c₁.bus.slave.toNat = i.val := by rw [hslave, hp.slave]
  refine Drive.Ends.bind ((hk₁.attached.ends_wait hi₁).quiet
    ((hk₁.attached.sends_wait hi₁).mono fun _ => erasesNothing_of_plain))
    (fun _ _ _ _ => trivial) ?_
  rintro _ _ e₂ ⟨⟨rfl, hw⟩, hsame₂⟩
  have hran₂ := (hw.ran hi₁).of_kept hk₁
  refine Drive.Ends.bind ((hran₂.ready.ends_buildHeader hp (hran₂.kept.config ▸ hlt) _).quiet
    ((hran₂.ready.sends_buildHeader hp _).mono fun _ => erasesNothing_of_plain))
    (fun _ _ _ _ => trivial) ?_
  rintro _ c₃ e₃ ⟨⟨hran₃, -, hheaded⟩, hsame₃⟩
  refine Drive.Ends.bind (hran₃.ready.ends_enableWrite.quiet
    (hran₃.ready.sends_enableWrite.mono fun _ => erasesNothing_of_plain))
    (fun _ _ _ _ => trivial) ?_
  rintro _ _ e₄ ⟨⟨rfl, hran₄, hset₄⟩, hsame₄⟩
  have hget₄ : (e₄.chip i) = { e₃.chip i with writeEnabled := true } := by
    rw [Emulator.chip_of_chipsWith hset₄, if_pos rfl]
  have hheaded₄ : Headed unit.opcode p i c₃ e₄ := by
    refine ⟨?_, hheaded.scratch⟩
    rw [hget₄]
    exact hheaded.sector
  have hlatch₄ : (e₄.chip i).writeEnabled = true := by rw [hget₄]
  have hcap₄ : e₄.config = e.config :=
    hran₄.kept.config.trans (hran₃.kept.config.trans hran₂.kept.config)
  refine Drive.Ends.bind ((hran₄.ready.ends_runErase hheaded₄ hp hlatch₄ halign
    (hcap₄ ▸ hfit)).and (hran₄.ready.records_runErase hheaded₄ hp hlatch₄ halign))
    (fun _ _ _ _ => trivial) ?_
  rintro _ c₅ e₅ ⟨⟨hk₅, -, hbus, -, -⟩, hpush⟩
  have hi₅ : c₅.bus.slave.toNat = i.val := by rw [hbus, hran₄.slave]
  refine Drive.Ends.step Emulator.run_log (((hk₅.attached.ends_wait hi₅).quiet
    ((hk₅.attached.sends_wait hi₅).mono fun _ => erasesNothing_of_plain)).mono ?_
      fun _ _ _ _ => trivial)
  rintro _ _ t ⟨-, hsame⟩
  rw [hsame, hpush, hsame₄, hsame₃, hsame₂]

namespace Ready

/-- Reading into the page buffer erases nothing, and the buffer keeps its length. -/
theorem records_readInto (h : Ready c e i) (hp : Locates p i a) {start stop : Nat}
    (hstart : start ≤ stop) (hstop : stop ≤ pageSize)
    (hfit : a + (stop - start) ≤ e.config.capacity)
    (hpage : page.length = pageSize) :
    Controller.Merge.Ends block (Controller.readInto p start stop) page c e
      (fun _ page' c' t => Ran Spares i c e c' t ∧ page'.length = pageSize ∧
        t.stats.erases = e.stats.erases) fun _ _ _ _ => True := by
  refine ((h.ends_readInto hp hstart hstop hfit hpage).quiet
    (h.sends_readInto hp hstart hstop hfit fun _ _ _ => allows_read)).mono ?_
      fun _ _ _ _ _ => trivial
  rintro _ page' c' t ⟨⟨hran, -, bytes, rfl, hbytes, -⟩, hsame⟩
  refine ⟨hran, ?_, hsame⟩
  simp only [List.length_append, List.length_take, List.length_drop]
  omega

/-- Erasing the page of an address and programming the buffer there erases the page. -/
theorem records_rewritePage (h : Ready c e i) (hp : Locates p i a) (ha : a < e.config.capacity)
    (hpage : page.length = pageSize) {n : Nat} :
    Controller.Merge.Ends block (do
        Controller.eraseUnit (pageStart p) .page
        Controller.bulkWrite (pageStart p) (← get)
        return n) page c e
      (fun k _ _ t => k = n ∧
        t.stats.erases = e.stats.erases.push ⟨i, a - a % pageSize, pageSize⟩)
      fun _ _ _ _ => True := by
  have hbase := hp.pageStart
  have hend := h.attached.page_le ha
  refine Controller.Merge.Ends.bind (Controller.Merge.Ends.drive (E := fun _ _ _ _ => True)
    (A := fun _ page' c' t => page = page' ∧ Ran Spares i c e c' t ∧
      Erased i (a - a % pageSize) .page e t ∧
      t.stats.erases = e.stats.erases.push ⟨i, a - a % pageSize, pageSize⟩)
    (((h.attached.ends_eraseUnit hbase .page hend).and
      (h.attached.records_eraseUnit hbase .page hend)).mono
        (fun _ _ _ hok => ⟨rfl, hok.1.1, hok.1.2.2.1, hok.2⟩) fun _ _ _ _ => trivial))
    (fun _ _ _ _ _ => trivial) ?_
  rintro _ _ c₁ e₁ ⟨rfl, hran, herased, hpush⟩
  have hfits : a - a % pageSize + page.length ≤ e₁.config.capacity := by
    rw [hpage, hran.kept.config]
    exact hend
  have hblank : Blank e₁ i (a - a % pageSize) (a - a % pageSize + page.length) := by
    rw [hpage]
    exact herased.blank
  refine Controller.Merge.Ends.bind_get (Controller.Merge.Ends.bind
    (Controller.Merge.Ends.drive (E := fun _ _ _ _ => True)
      (A := fun _ _ _ t => t.stats.erases = e₁.stats.erases)
      (((hran.ready.ends_bulkWrite hbase hfits hblank).quiet
        (hran.ready.sends_bulkWrite hbase hfits hblank fun _ _ _ => allows_program)).mono
          (fun _ _ _ hok => hok.2) fun _ _ _ _ => trivial))
    (fun _ _ _ _ _ => trivial) ?_)
  intro _ _ _ t hsame
  exact Controller.Merge.Ends.pure ⟨rfl, by rw [hsame, hpush]⟩

/-- Merging data into its page erases the page. -/
theorem records_mergePage (h : Ready c e i) (hp : Locates p i a) (hdata : data ≠ [])
    (ha : a < e.config.capacity) (hpage : page.length = pageSize) :
    Controller.Merge.Ends block (Controller.mergePage p data) page c e
      (fun n _ _ t => n = min (pageSize - a % pageSize) data.length ∧
        t.stats.erases = e.stats.erases.push ⟨i, a - a % pageSize, pageSize⟩)
      fun _ _ _ _ => True := by
  rw [Controller.mergePage_eq, if_neg (by simpa using hdata)]
  dsimp only
  rw [hp.pageIndex_eq]
  have hmod := Nat.mod_lt a pageSize_pos
  have hle := Nat.mod_le a pageSize
  have hend := h.attached.page_le ha
  have hbase := hp.pageStart
  have hlen : (data.take (pageSize - a % pageSize)).length =
      min (pageSize - a % pageSize) data.length := List.length_take
  generalize data.take (pageSize - a % pageSize) = here at *
  refine Controller.Merge.Ends.join
    (M := fun page' c' t => Ran Spares i c e c' t ∧ page'.length = pageSize ∧
      t.stats.erases = e.stats.erases) (fun _ => ⟨h.ran, hpage, rfl⟩) ?_ ?_
  case refine_2 =>
    intro hfront hrest
    exact Controller.Merge.Ends.bind (h.records_readInto hbase (Nat.zero_le _) (Nat.le_of_lt hmod)
      (by omega) hpage) (fun _ _ _ _ _ => trivial) fun _ => hrest
  rintro page₁ c₁ e₁ ⟨hran₁, hpage₁, hsame₁⟩
  have hcap₁ := hran₁.kept.config
  refine Controller.Merge.Ends.join
    (M := fun page' c' t => Ran Spares i c e c' t ∧ page'.length = pageSize ∧
      t.stats.erases = e.stats.erases) (fun _ => ⟨hran₁, hpage₁, hsame₁⟩) ?_ ?_
  case refine_2 =>
    intro hback hrest
    obtain ⟨hword, hpos⟩ := hbase.advance (n := a % pageSize + here.length)
      (h.attached.lt_word32 (by omega))
    rw [show a - a % pageSize + (a % pageSize + here.length) = a + here.length by omega] at hpos
    refine Controller.Merge.Ends.step (Proc.run_advance hword) ?_
    refine Controller.Merge.Ends.bind (hran₁.ready.records_readInto hpos (by omega)
      (Nat.le_refl _) (by rw [hcap₁]; omega) hpage₁) (fun _ _ _ _ _ => trivial) ?_
    rintro _ page' c' t ⟨hran, hpage', hsame⟩
    exact hrest page' c' t ⟨hran₁.trans hran, hpage', hsame.trans hsame₁⟩
  rintro page₂ c₂ e₂ ⟨hran₂, hpage₂, hsame₂⟩
  have hroom : a % pageSize + here.length ≤ page₂.length := by omega
  refine Controller.Merge.Ends.bind_get (Controller.Merge.Ends.step (Proc.run_overwrite hroom)
    (Controller.Merge.Ends.bind_set ?_))
  refine (hran₂.ready.records_rewritePage hp (by rw [hran₂.kept.config]; exact ha)
    ((Bytes.length_overwritten hroom).trans hpage₂)).mono ?_ fun _ _ _ _ _ => trivial
  rintro _ _ _ t ⟨rfl, hpush⟩
  exact ⟨hlen, by rw [hpush, hsame₂]⟩

/-- Rewriting a unit erases it. -/
theorem records_rewriteUnit (h : Ready c e i) (hp : Locates p i a)
    (hfit : a + data.length ≤ e.config.capacity) :
    Drive.Ends block (Controller.rewriteUnit p data) c e
      (fun r _ t => ∀ n, r = some n → n = (pageRecord i a data.length).size ∧
        a = (pageRecord i a data.length).base ∧ n ≤ data.length ∧
        t.stats.erases = e.stats.erases.push (pageRecord i a data.length))
      fun _ _ _ => True := by
  rw [Controller.rewriteUnit, pageRecord, pageUnitStart, hp.pageUnit_eq]
  cases hunit : EraseUnit.forSpan? p data.length with
  | none =>
    refine Drive.Ends.pure ?_
    rintro _ ⟨⟩
  | some unit =>
    obtain ⟨haligned, hcovered⟩ := EraseUnit.of_forSpan? hunit
    have halign := (hp.isAligned_iff unit).mp haligned
    rw [Option.getD_some, halign, Nat.sub_zero]
    refine Drive.Ends.bind ((h.attached.ends_eraseUnit hp unit (by omega)).and
      (h.attached.records_eraseUnit hp unit (by omega))) (fun _ _ _ _ => trivial) ?_
    rintro _ c₁ e₁ ⟨⟨hran, -, herased, -⟩, hpush⟩
    have hlen : (data.take unit.bytes).length = unit.bytes := by
      rw [List.length_take, Nat.min_eq_left hcovered]
    have hfits : a + (data.take unit.bytes).length ≤ e₁.config.capacity := by
      rw [hlen, hran.kept.config]
      omega
    have hblank : Blank e₁ i a (a + (data.take unit.bytes).length) := by
      rw [hlen]
      exact herased.blank
    refine Drive.Ends.step (Proc.run_split hcovered) (Drive.Ends.bind
      ((hran.ready.ends_bulkWrite hp hfits hblank).quiet
        (hran.ready.sends_bulkWrite hp hfits hblank fun _ _ _ => allows_program))
      (fun _ _ _ _ => trivial) ?_)
    rintro _ c₂ e₂ ⟨-, hsame⟩
    refine Drive.Ends.pure ?_
    rintro _ ⟨⟩
    exact ⟨rfl, rfl, hcovered, by rw [hsame, hpush]⟩

/-- **One page operation erases the unit that is chosen at its place.** -/
theorem records_programPage (h : Ready c e i) (hp : Locates p i a) (hdata : data ≠ [])
    (hfit : a + data.length ≤ e.config.capacity) (hpage : page.length = pageSize) :
    Controller.Merge.Ends block (Controller.programPage p data) page c e
      (fun n _ _ t => n = min ((pageRecord i a data.length).base +
          (pageRecord i a data.length).size - a) data.length ∧
        t.stats.erases = e.stats.erases.push (pageRecord i a data.length))
      fun _ _ _ _ => True := by
  have hpos := List.length_pos_iff.mpr hdata
  refine Controller.Merge.Ends.bind (Controller.Merge.Ends.drive (E := fun _ _ _ _ => True)
    (A := fun r page' c' t => page = page' ∧
      (r = none → EraseUnit.forSpan? p data.length = none ∧ c' = c ∧ t = e) ∧ ∀ n, r = some n →
        n = (pageRecord i a data.length).size ∧ a = (pageRecord i a data.length).base ∧
        n ≤ data.length ∧ t.stats.erases = e.stats.erases.push (pageRecord i a data.length))
    (((h.ends_rewriteUnit hp hfit).and (h.records_rewriteUnit hp hfit)).mono
      (fun r _ _ hr => ⟨rfl, fun hnone => ?_, hr.2⟩) fun _ _ _ _ => trivial))
    (fun _ _ _ _ _ => trivial) ?_
  · subst hnone
    exact hr.1
  rintro (_ | n) _ c' t ⟨rfl, hnone, hsome⟩
  · obtain ⟨hunit, rfl, rfl⟩ := hnone rfl
    refine (h.records_mergePage hp hdata (by omega) hpage).mono ?_ fun _ _ _ _ _ => trivial
    rintro n _ _ t ⟨rfl, hpush⟩
    have hmod := Nat.mod_lt a pageSize_pos
    have hle := Nat.mod_le a pageSize
    have hrecord : pageRecord i a data.length = ⟨i, a - a % pageSize, pageSize⟩ := by
      rw [pageRecord, pageUnitStart, hp.pageUnit_eq, hunit]
      rfl
    rw [hrecord]
    exact ⟨by dsimp only; omega, hpush⟩
  · obtain ⟨hn, ha, hle, hpush⟩ := hsome n rfl
    exact Controller.Merge.Ends.pure ⟨by omega, hpush⟩

/-- A page operation that answers a count stored that many bytes and erased one unit. -/
theorem stores_and_records_programPage (h : Ready c e i) (hp : Locates p i a) (hdata : data ≠ [])
    (hfit : a + data.length ≤ e.config.capacity) (hpage : page.length = pageSize) :
    ((Controller.programPage p data).run.run page c).Ends block e fun r t => ∀ n, r.1.1 = .ok n →
      r.1.2.length = pageSize ∧ Stored i a data n c e r.2 t ∧
      n = min ((pageRecord i a data.length).base + (pageRecord i a data.length).size - a)
        data.length ∧
      t.stats.erases = e.stats.erases.push (pageRecord i a data.length) := by
  refine Proc.Ends.mono ((h.ends_programPage hp hdata hfit hpage).and
    (h.records_programPage hp hdata hfit hpage)) ?_
  rintro ⟨⟨error | n, page'⟩, c'⟩ t hr
  · rintro _ ⟨⟩
  · rintro _ ⟨⟩
    exact ⟨hr.1.1, hr.1.2, hr.2⟩

/-- **Page operations erase what covers the data**, one unit after the other. -/
theorem records_writePages (h : Ready c e i) (hp : Locates p i a) {fuel d : Nat}
    (hfuel : data.length ≤ fuel) (hfit : a + d + data.length ≤ e.config.capacity)
    (hpage : page.length = pageSize) :
    (Flash.writePages p fuel d data page c).Ends block e fun r t => ∀ n, r.1 = .ok n →
      n = d + data.length ∧ ∃ records, Cover i (a + d) data.length records ∧
        t.stats.erases.toList = e.stats.erases.toList ++ records := by
  induction fuel generalizing d data page c e with
  | zero =>
    obtain rfl : data = [] := List.eq_nil_of_length_eq_zero (by omega)
    refine Proc.Ends.pure ?_
    rintro _ ⟨⟩
    exact ⟨rfl, [], .done, (List.append_nil _).symm⟩
  | succ fuel ih =>
    cases data with
    | nil =>
      refine Proc.Ends.pure ?_
      rintro _ ⟨⟩
      exact ⟨rfl, [], .done, (List.append_nil _).symm⟩
    | cons byte more =>
      rw [Flash.writePages]
      have hlt := h.attached.lt_word32 hfit
      obtain ⟨hword, hpos⟩ := hp.advance (n := d) (by omega)
      apply Proc.Ends.step_state (Proc.run_advance hword)
      have hdata : byte :: more ≠ [] := List.cons_ne_nil byte more
      generalize byte :: more = data at *
      have hlen := List.length_pos_iff.mpr hdata
      refine Proc.Ends.bind_state (h.stores_and_records_programPage hpos hdata hfit hpage) ?_
      rintro ⟨error | n, page'⟩ c₁ e₁ hr
      · apply Proc.Ends.step_state Emulator.run_log
        refine Proc.Ends.pure ?_
        rintro _ ⟨⟩
      · obtain ⟨hpage', hstored, hn, hpush⟩ := hr n rfl
        have hle := hstored.le
        have hcap := hstored.ran.kept.config
        have hchosen := hpos.chosen data.length
        have hend := hchosen.lt_end
        have hrest : (data.drop n).length = data.length - n := List.length_drop
        apply Proc.Ends.step_state (Proc.run_split hle)
        apply Proc.Ends.step_state (Proc.run_count (lt_wordLimit_of_word32 (by omega)))
        refine (ih hstored.ran.ready (by omega) (by rw [hcap]; omega) hpage').mono ?_
        rintro ⟨r, c'⟩ t hr m hm
        obtain ⟨rfl, records, hcover, hrecords⟩ := hr m hm
        rw [hrest, ← Nat.add_assoc] at hcover
        refine ⟨by omega, _, hcover.next_of_taken hlen rfl hchosen hn, ?_⟩
        rw [hrecords, hpush, Array.toList_push, List.append_assoc]
        rfl

end Ready

theorem Attached.records_write (h : Attached f.controller e) (p : UInt64) (data : Bytes) :
    (Flash.write p data f).Ends block e fun r t => ∀ n, r.1 = .ok n →
      ∃ i records, Locates p i (chipOffset p).toNat ∧ Cover i (chipOffset p).toNat n records ∧
        t.stats.erases.toList = e.stats.erases.toList ++ records := by
  have hremaining := h.remaining_eq p
  have hlen : (data.take (f.remaining p)).length = min (f.remaining p) data.length :=
    List.length_take
  apply Proc.Ends.bind_get_state
  generalize data.take (f.remaining p) = taken at *
  by_cases hempty : taken = []
  · rw [if_pos (by simpa using hempty)]
    exact Proc.Ends.pure nofun
  have hpos := List.length_pos_iff.mpr hempty
  rw [if_neg (by simpa using hempty)]
  apply Proc.Ends.step_state Emulator.run_log
  apply Proc.Ends.onController
  refine Proc.Ends.bind_state ((h.ends_prepare p).quiet
    ((h.sends_prepare p).mono fun _ => erasesNothing_of_plain)) ?_
  rintro (error | _) c₁ e₁ hprepared
  · exact Proc.Ends.pure nofun
  · obtain ⟨⟨i, hp, hran, -, -⟩, hsame⟩ := hprepared
    have hcap := hran.kept.config
    refine (hran.ready.records_writePages hp (d := 0) (Nat.le_refl _) (by rw [hcap]; omega)
      (Bytes.length_filled _ _)).mono ?_
    rintro ⟨r, c'⟩ t hr n hn
    obtain ⟨rfl, records, hcover, hrecords⟩ := hr n hn
    rw [Nat.add_zero] at hcover
    rw [Nat.zero_add]
    exact ⟨i, records, hp, hcover, by rw [hrecords, hsame]⟩

/-- **A write erases each page that it touches once.** What a write that goes through
adds to the record are erases of the addressed chip, in ascending order and each right
behind the one before it. Together they are the 4 KiB pages that the bytes touch. Each is
the largest unit that starts at its place and that the bytes from there on cover, or
the 4 KiB page of the place where there is none; so what is larger than a page lies in
the bytes that were written. -/
theorem Reachable.write_erases {config : EmulatorConfig} {tuning : Tuning}
    (h : Reachable config tuning f e) (p : UInt64) (data : Bytes) :
    (Flash.write p data f).Ends block e fun r t => ∀ n, r.1 = .ok n →
      ∃ i records, (Address.ofOffset p).slave.toNat = i.val ∧
        t.stats.erases.toList = e.stats.erases.toList ++ records ∧
        Tiled i (chipOffset p).toNat n records := by
  refine (h.attached.records_write p data).mono fun r t hr n hn => ?_
  obtain ⟨i, records, hp, hcover, hrecords⟩ := hr n hn
  exact ⟨i, records, hp.slave, hrecords, hcover.tiled⟩

/-- Four bytes across a page boundary of a default emulator. -/
theorem write_erases_default :
    ∃ f e, Reachable {} {} f e ∧
      (Flash.write 0xffe [1, 2, 3, 4] f).Ends block e fun r t => r.1 = .ok 4 ∧
        ∃ i records, (Address.ofOffset 0xffe).slave.toNat = i.val ∧
          t.stats.erases.toList = e.stats.erases.toList ++ records ∧ Tiled i 0xffe 4 records := by
  obtain ⟨f, e, hr, hengaged⟩ := Emulator.Prepared.fresh.exists_reachable attachable_default
  have hcapacity : f.capacity = sectorSize := hengaged.capacity_eq
  have hp : Locates 0xffe firstChip 0xffe := ⟨by decide, by decide⟩
  have hable : Able f.controller e := by
    rw [Able, Patient, hengaged.config, hengaged.tuning]
    decide
  have hdone : (Flash.write 0xffe [1, 2, 3, 4] f).Ends block e fun r t => r.1 = .ok 4 ∧
      Holds t firstChip 0xffe [1, 2, 3, 4] :=
    hengaged.ready.attached.ends_write_unhindered
      (hengaged.tuning ▸ hengaged.unhindered rfl (by decide)) hable (hengaged.tuning ▸ rfl) hp
      (by decide) (by rw [hcapacity]; decide)
  refine ⟨f, e, hr, (hdone.and (hr.write_erases 0xffe [1, 2, 3, 4])).mono ?_⟩
  rintro r t ⟨⟨hok, -⟩, hrecords⟩
  exact ⟨hok, hrecords 4 hok⟩

end NorFlash
