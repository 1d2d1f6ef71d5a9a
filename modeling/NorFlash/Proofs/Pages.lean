import NorFlash.Proofs.Programming

/-!
# Pages — programming whole pages

A page operation rewrites the largest unit that its data covers, or merges its
data into one 4 KiB page. If it fails, only that unit is affected, and beside
the data a cell of the unit is as before or blank.
-/

namespace NorFlash

open Emulator (Passed Stopped Spares Unarmed)

variable {c c' : Controller} {e m t : Emulator} {i : Fin maxSlaves} {p : UInt64} {a n : Nat}
  {data page : Bytes}

/-! ## Reading into the page buffer -/

/-- Bytes of the flash take their place in the page buffer. -/
theorem Ready.ends_readInto (h : Ready c e i) (hp : Locates p i a) {start stop : Nat}
    (hstart : start ≤ stop) (hstop : stop ≤ pageSize)
    (hfit : a + (stop - start) ≤ e.config.capacity)
    (hpage : page.length = pageSize) :
    Controller.Merge.Ends Emulator.block (Controller.readInto p start stop) page c e
      (fun _ page' c' t => Ran Spares i c e c' t ∧ SameContents e t ∧
        ∃ bytes, page' = page.take start ++ bytes ++ page.drop stop ∧
          bytes.length = stop - start ∧
          (c.tuning.readDummyLen = Chip.readDummyLen → Holds e i a bytes))
      (fun _ _ c' t => Failed Spares True c e c' t ∧ SameContents e t) := by
  rw [Controller.readInto_eq p hstart hstop]
  refine Controller.Merge.Ends.bind_state (h.ends_bulkRead hp hfit) ?_
  intro r c' t hread
  obtain ⟨bytes, outcome⟩ := r
  have hle := hread.le
  apply Controller.Merge.Ends.bind_get
  apply Controller.Merge.Ends.step (Proc.run_overwrite (by dsimp only at *; omega))
  apply Controller.Merge.Ends.bind_set
  cases outcome with
  | ok =>
    obtain ⟨hran, hlen⟩ := hread.done rfl
    refine Controller.Merge.Ends.pure ⟨hran, hread.contents, bytes, ?_, hlen, hread.holds⟩
    rw [hlen, Nat.add_sub_cancel' hstart]
  | error error =>
    exact Controller.Merge.Ends.throw ⟨hread.failed nofun, hread.contents⟩

/-- `left` and `right` are the bytes around `k` bytes at `a` in their page. -/
structure Around (i : Fin maxSlaves) (a k : Nat) (c : Controller) (e : Emulator)
    (left right : Bytes) : Prop where
  left_length : left.length = a % pageSize
  right_length : a % pageSize + k + right.length = pageSize
  before : c.tuning.readDummyLen = Chip.readDummyLen → Holds e i (a - a % pageSize) left
  after : c.tuning.readDummyLen = Chip.readDummyLen → Holds e i (a + k) right

theorem Around.length_eq {left right here : Bytes} (h : Around i a here.length c e left right) :
    (left ++ here ++ right).length = pageSize := by
  have hleft := h.left_length
  have hright := h.right_length
  simp only [List.length_append]
  omega

/-- The page of an address lies in the chip if the address does. -/
theorem Attached.page_le (h : Attached c e) (ha : a < e.config.capacity) :
    a - a % pageSize + pageSize ≤ e.config.capacity := by
  have := h.capacity_bounds.1
  simp only [pageSize, sectorSize] at *
  omega

/-- Data takes the place of the bytes between two others. -/
theorem overwrite_between {left tail here right : Bytes} (hle : here.length ≤ tail.length) :
    (left ++ tail.take here.length ++ right).take left.length ++ here ++
      (left ++ tail.take here.length ++ right).drop (left.length + here.length) =
      left ++ here ++ right := by
  have hlen : (left ++ tail.take here.length).length = left.length + here.length := by
    rw [List.length_append, List.length_take, Nat.min_eq_left hle]
  rw [← hlen, List.drop_left, List.append_assoc left, List.take_left]

/-- The page of an address is erased, and the buffer programmed in its place. -/
theorem Ready.ends_rewritePage (h : Ready c e i) (hp : Locates p i a) (ha : a < e.config.capacity)
    {A E : Controller → Emulator → Prop}
    (hearly : ∀ c' t, Failed Spares (Patient c e) c e c' t →
      SameContents e t ∨ Erased i (a - a % pageSize) .page e t → E c' t)
    (hwrite : ∀ c₁ e₁, Ran Spares i c e c₁ e₁ → Erased i (a - a % pageSize) .page e e₁ →
      Patient c e → Drive.Ends Emulator.block (Controller.bulkWrite (pageStart p) page) c₁ e₁
        (fun _ => A) (fun _ => E)) :
    Controller.Merge.Ends Emulator.block (do
        Controller.eraseUnit (pageStart p) .page
        Controller.bulkWrite (pageStart p) (← get)
        return n) page c e
      (fun k page' c' t => k = n ∧ page' = page ∧ A c' t) (fun _ _ c' t => E c' t) := by
  have hend := h.attached.page_le ha
  refine Controller.Merge.Ends.bind (Controller.Merge.Ends.drive
    (A := fun _ page' c' t => page = page' ∧ Ran Spares i c e c' t ∧
      Erased i (a - a % pageSize) .page e t ∧ Patient c e)
    (E := fun _ _ c' t => E c' t)
    ((h.attached.ends_eraseUnit hp.pageStart .page hend).mono ?_ ?_)) (fun _ _ _ _ hf => hf) ?_
  · intro _ c' t hpost
    obtain ⟨hran, -, herased, hpatient⟩ := hpost
    exact ⟨rfl, hran, herased, hpatient⟩
  · intro _ c' t hpost
    obtain ⟨hf, heffect⟩ := hpost
    refine hearly c' t (hf.mono (fun _ hk => hk) fun hpatient => ⟨?_, hpatient, ?_⟩)
      (heffect.imp_right And.right)
    · simp only [EraseUnit.bytes, pageSize]
      omega
    · rw [h.idle]
      exact Nat.zero_le _
  intro _ _ c₁ e₁ hpost
  obtain ⟨rfl, hran, herased, hpatient⟩ := hpost
  apply Controller.Merge.Ends.bind_get
  refine Controller.Merge.Ends.bind (Controller.Merge.Ends.drive
    (A := fun _ page' c' t => page' = page ∧ A c' t) (E := fun _ _ c' t => E c' t)
    ((hwrite c₁ e₁ hran herased hpatient).mono (fun _ _ _ hok => ⟨rfl, hok⟩)
      fun _ _ _ hf => hf)) (fun _ _ _ _ hf => hf) ?_
  intro _ _ c₂ e₂ hpost
  obtain ⟨rfl, hok⟩ := hpost
  exact Controller.Merge.Ends.pure ⟨rfl, rfl, hok⟩

/-- The page buffer has the bytes `left` of the page before `a` in front, and is as it
was behind them. -/
structure FrontRead (i : Fin maxSlaves) (a : Nat) (c : Controller) (e : Emulator)
    (page left page' : Bytes) (c' : Controller) (t : Emulator) : Prop where
  ran : Ran Spares i c e c' t
  contents : SameContents e t
  buffer : page' = left ++ page.drop (a % pageSize)
  length : left.length = a % pageSize
  before : c.tuning.readDummyLen = Chip.readDummyLen → Holds e i (a - a % pageSize) left

/-- The page buffer has the bytes of the page around `k` bytes at `a`, and is as it was
between them. -/
structure BothRead (i : Fin maxSlaves) (a k : Nat) (c : Controller) (e : Emulator)
    (page left right page' : Bytes) (c' : Controller) (t : Emulator) : Prop where
  ran : Ran Spares i c e c' t
  contents : SameContents e t
  buffer : page' = left ++ (page.drop (a % pageSize)).take k ++ right
  around : Around i a k c e left right

/-- At the start of a page nothing stands before the data. -/
theorem Ready.frontRead (h : Ready c e i) (hzero : a % pageSize = 0) :
    FrontRead i a c e page [] page c e := by
  refine ⟨h.ran, .refl e, ?_, hzero.symm, fun _ => .nil e i _⟩
  rw [hzero]
  rfl

theorem Ready.ends_readFront (h : Ready c e i) (hp : Locates p i a) (ha : a < e.config.capacity)
    (hpage : page.length = pageSize) :
    Controller.Merge.Ends Emulator.block (Controller.readInto (pageStart p) 0 (a % pageSize))
      page c e (fun _ page' c' t => ∃ left, FrontRead i a c e page left page' c' t)
      (fun _ _ c' t => Failed Spares True c e c' t ∧ SameContents e t) := by
  have hmod := Nat.mod_lt a pageSize_pos
  have hend := h.attached.page_le ha
  refine (h.ends_readInto hp.pageStart (Nat.zero_le _) (Nat.le_of_lt hmod) (by omega) hpage).mono
    ?_ fun _ _ _ _ hf => hf
  intro _ page' c' t hpost
  obtain ⟨hran, hsame, left, hpage', hleft, hholds⟩ := hpost
  refine ⟨left, hran, hsame, ?_, hleft, hholds⟩
  rw [hpage', List.take_zero, List.nil_append]

section Back

variable {left : Bytes} {c₁ : Controller} {e₁ : Emulator} {k : Nat}

/-- At the end of a page nothing stands behind the data. -/
theorem FrontRead.bothRead {page₁ : Bytes} (h : FrontRead i a c e page left page₁ c₁ e₁)
    (hpage : page.length = pageSize) (hfull : a % pageSize + k = pageSize) :
    BothRead i a k c e page left [] page₁ c₁ e₁ := by
  refine ⟨h.ran, h.contents, ?_, h.length, hfull, h.before, fun _ => .nil e i _⟩
  rw [List.append_nil, List.take_of_length_le, h.buffer]
  rw [List.length_drop]
  omega

theorem FrontRead.ends_readBack {page₁ : Bytes} (h : FrontRead i a c e page left page₁ c₁ e₁)
    {q : UInt64} (hq : Locates q i (a + k)) (hk : a % pageSize + k ≤ pageSize)
    (ha : a < e.config.capacity) (hpage : page.length = pageSize) :
    Controller.Merge.Ends Emulator.block (Controller.readInto q (a % pageSize + k) pageSize)
      page₁ c₁ e₁ (fun _ page' c' t => ∃ right, BothRead i a k c e page left right page' c' t)
      (fun _ _ c' t => Failed Spares True c e c' t ∧ SameContents e t) := by
  obtain ⟨hran₁, hsame₁, rfl, hleft, hbefore⟩ := h
  have hle := Nat.mod_le a pageSize
  have hcap := hran₁.kept.config
  have hend := hran₁.kept.attached.page_le (hcap ▸ ha)
  have htail : (page.drop (a % pageSize)).length = pageSize - a % pageSize := by
    rw [List.length_drop, hpage]
  refine (hran₁.ready.ends_readInto hq hk (Nat.le_refl _) (by omega)
    (by rw [List.length_append]; omega)).mono ?_ ?_
  · intro _ page' c' t hpost
    obtain ⟨hran, hsame, right, hpage', hright, hholds⟩ := hpost
    refine ⟨right, hran₁.trans hran, hsame₁.trans hsame, ?_, hleft, by omega, hbefore, ?_⟩
    · generalize page.drop (a % pageSize) = tail at *
      rw [hpage', ← hleft, List.take_length_add_append, List.drop_of_length_le, List.append_nil]
      rw [List.length_append]
      omega
    · intro hdummy b hb
      rw [← hsame₁.cell]
      exact hholds (hran₁.kept.tuning ▸ hdummy) b hb
  · intro _ _ c' t hpost
    obtain ⟨hf, hsame⟩ := hpost
    exact ⟨hran₁.failed hf, hsame₁.trans hsame⟩

/-- The buffer is a whole page again. -/
theorem BothRead.length_eq {right page' : Bytes} (h : BothRead i a k c e page left right page' c' t)
    (hpage : page.length = pageSize) : page'.length = pageSize := by
  have hleft := h.around.left_length
  have hright := h.around.right_length
  rw [h.buffer]
  simp only [List.length_append, List.length_take, List.length_drop]
  omega

/-- The data takes the place of what the buffer held between them. -/
theorem BothRead.overwritten {here right page' : Bytes}
    (h : BothRead i a here.length c e page left right page' c' t) (hpage : page.length = pageSize) :
    page'.take (a % pageSize) ++ here ++ page'.drop (a % pageSize + here.length) =
      left ++ here ++ right := by
  have hright := h.around.right_length
  have htail : here.length ≤ (page.drop (a % pageSize)).length := by
    rw [List.length_drop]
    omega
  rw [h.buffer, ← h.around.left_length]
  rw [← h.around.left_length] at htail
  exact overwrite_between htail

end Back

/-- A merge reads what stands around its data, erases the page, and programs
all of it. -/
theorem Ready.ends_mergePage_of (h : Ready c e i) (hp : Locates p i a) (hdata : data ≠ [])
    (ha : a < e.config.capacity) (hpage : page.length = pageSize)
    {A E : Controller → Emulator → Prop}
    (hearly : ∀ c' t, Failed Spares (Patient c e) c e c' t →
      SameContents e t ∨ Erased i (a - a % pageSize) .page e t → E c' t)
    (hwrite : ∀ left right c₁ e₁,
      Around i a (data.take (pageSize - a % pageSize)).length c e left right →
      Ran Spares i c e c₁ e₁ → Erased i (a - a % pageSize) .page e e₁ → Patient c e →
      Drive.Ends Emulator.block (Controller.bulkWrite (pageStart p)
        (left ++ data.take (pageSize - a % pageSize) ++ right)) c₁ e₁ (fun _ => A)
        (fun _ => E)) :
    Controller.Merge.Ends Emulator.block (Controller.mergePage p data) page c e
      (fun n page' c' t => n = min (pageSize - a % pageSize) data.length ∧
        page'.length = pageSize ∧ A c' t)
      (fun _ _ c' t => E c' t) := by
  rw [Controller.mergePage_eq, if_neg (by simpa using hdata)]
  dsimp only
  rw [hp.pageIndex_eq]
  have hmod := Nat.mod_lt a pageSize_pos
  have hle := Nat.mod_le a pageSize
  have hend := h.attached.page_le ha
  have hlen : (data.take (pageSize - a % pageSize)).length =
      min (pageSize - a % pageSize) data.length := List.length_take
  generalize data.take (pageSize - a % pageSize) = here at *
  -- the bytes before the data
  refine Controller.Merge.Ends.join
    (M := fun page' c' t => ∃ left, FrontRead i a c e page left page' c' t)
    (fun hzero => ⟨[], h.frontRead (by omega)⟩) ?_ ?_
  case refine_2 =>
    intro hfront hrest
    refine Controller.Merge.Ends.bind (h.ends_readFront hp ha hpage) ?_ fun _ => hrest
    intro _ _ c' t hpost
    exact hearly c' t hpost.1.any (.inl hpost.2)
  intro page₁ c₁ e₁ hpost
  obtain ⟨left, hfront⟩ := hpost
  -- the bytes after the data
  refine Controller.Merge.Ends.join
    (M := fun page' c' t => ∃ right, BothRead i a here.length c e page left right page' c' t)
    (fun hfull => ⟨[], hfront.bothRead hpage (by omega)⟩) ?_ ?_
  case refine_2 =>
    intro hback hrest
    obtain ⟨hword, hpos⟩ := hp.pageStart.advance (n := a % pageSize + here.length)
      (h.attached.lt_word32 (by omega))
    rw [show a - a % pageSize + (a % pageSize + here.length) = a + here.length by omega] at hpos
    apply Controller.Merge.Ends.step (Proc.run_advance hword)
    refine Controller.Merge.Ends.bind (hfront.ends_readBack hpos (by omega) ha hpage) ?_
      fun _ => hrest
    intro _ _ c' t hpost
    exact hearly c' t hpost.1.any (.inl hpost.2)
  intro page₂ c₂ e₂ hpost
  obtain ⟨right, hboth⟩ := hpost
  have hpage₂ := hboth.length_eq hpage
  have hbuffer := hboth.overwritten hpage
  obtain ⟨hran₂, hsame₂, -, haround⟩ := hboth
  -- the data itself
  apply Controller.Merge.Ends.bind_get
  apply Controller.Merge.Ends.step (Proc.run_overwrite (by omega))
  apply Controller.Merge.Ends.bind_set
  rw [hbuffer]
  have hcap := hran₂.kept.config
  refine (hran₂.ready.ends_rewritePage hp (by rw [hcap]; exact ha) (A := A) (E := E) ?_ ?_).mono
    ?_ ?_
  · intro c' t hf heffect
    refine hearly c' t ((hran₂.failed hf).mono (fun _ hk => hk) hran₂.kept.patient_iff.mpr) ?_
    exact heffect.imp hsame₂.trans fun herased => herased.of_start hsame₂ hcap
  · intro c₃ e₃ hran₃ herased hpatient
    exact hwrite left right c₃ e₃ haround (hran₂.trans hran₃) (herased.of_start hsame₂ hcap)
      (hran₂.kept.patient_iff.mp hpatient)
  · intro _ _ c' t hpost
    obtain ⟨rfl, rfl, hok⟩ := hpost
    exact ⟨hlen, haround.length_eq, hok⟩
  · exact fun _ _ _ _ hf => hf

/-! ## What a page operation does to the flash -/

/-- Outside of the range the cells are as before, save for a stretch of chip `i`
that is blank. -/
def Gapped (i : Fin maxSlaves) (lo hi : Nat) (e t : Emulator) : Prop :=
  ∃ q r, ∀ j b, b < e.config.capacity → (j = i → b < lo ∨ hi ≤ b) →
    t.cell j b = if j = i ∧ q ≤ b ∧ b < r then 0xff else e.cell j b

theorem Gapped.mono {lo hi hi' : Nat} (h : Gapped i lo hi e t) (hhi : hi ≤ hi') :
    Gapped i lo hi' e t := by
  obtain ⟨q, r, hcell⟩ := h
  exact ⟨q, r, fun j b hb hne => hcell j b hb fun hj => (hne hj).imp_right (Nat.le_trans hhi)⟩

theorem SameOutside.gapped {lo hi : Nat} (h : SameOutside i lo hi e t) : Gapped i lo hi e t := by
  refine ⟨0, 0, fun j b hb hne => ?_⟩
  rw [if_neg (by omega)]
  exact h j b hb hne

theorem Erased.gapped {unit : EraseUnit} {lo hi : Nat} (h : Erased i a unit e t) :
    Gapped i lo hi e t := by
  refine ⟨a, a + unit.bytes, fun j b hb _ => ?_⟩
  split
  · rename_i hin
    obtain ⟨rfl, hlo, hhi⟩ := hin
    exact h.blank b hlo hhi
  · exact h.same j b hb fun hj => by omega

/-- The unit that a page operation on `len` bytes at `a` erases; the address
lies in it. -/
def pageUnit (a len : Nat) : EraseUnit :=
  (EraseUnit.forSpan? (UInt64.ofNat a) len).getD .page

/-- Where that unit starts. -/
def pageUnitStart (a len : Nat) : Nat :=
  a - a % (pageUnit a len).bytes

/-- The unit depends on the place in the chip only. -/
theorem Locates.pageUnit_eq (h : Locates p i a) (len : Nat) :
    pageUnit a len = (EraseUnit.forSpan? p len).getD .page := by
  have ha := h.lt
  have haligned : ∀ u : EraseUnit, u.isAligned (UInt64.ofNat a) = u.isAligned p := by
    intro u
    have hiff : u.isAligned (UInt64.ofNat a) = true ↔ u.isAligned p = true := by
      rw [h.isAligned_iff, EraseUnit.isAligned, beq_iff_eq, UInt64.toNat_ofNat_of_lt' (by
        simp only [word32Limit] at ha
        simp only [UInt64.size]
        omega)]
    rwa [Bool.eq_iff_iff]
  simp only [pageUnit, EraseUnit.forSpan?, haligned]

/-- What starts with a page starts with the unit. -/
theorem mod_pageUnit (hpage : a % pageSize = 0) (ha : a < word32Limit) (len : Nat) :
    a % (pageUnit a len).bytes = 0 := by
  rw [pageUnit]
  cases hunit : EraseUnit.forSpan? (UInt64.ofNat a) len with
  | none => exact hpage
  | some unit =>
    have haligned := (EraseUnit.of_forSpan? hunit).1
    rwa [EraseUnit.isAligned, beq_iff_eq, UInt64.toNat_ofNat_of_lt' (by
      simp only [word32Limit] at ha
      simp only [UInt64.size]
      omega)] at haligned

/-- A page operation took the first `n` bytes of the data. -/
structure Stored (i : Fin maxSlaves) (a : Nat) (data : Bytes) (n : Nat) (c : Controller)
    (e : Emulator) (c' : Controller) (t : Emulator) : Prop where
  pos : 0 < n
  le : n ≤ data.length
  aligned : n < data.length → (a + n) % pageSize = 0
  ran : Ran Unarmed i c e c' t
  able : Able c e
  holds : c.tuning.readDummyLen = Chip.readDummyLen → Holds t i a (data.take n)
  same : c.tuning.readDummyLen = Chip.readDummyLen → SameOutside i a (a + n) e t

/-- A page operation on the unit stopped. -/
structure Broken (i : Fin maxSlaves) (a : Nat) (data : Bytes) (unit : EraseUnit) (c : Controller)
    (e : Emulator) (c' : Controller) (t : Emulator) : Prop where
  failed : Failed Unarmed (Able c e) c e c' t
  same : SameOutside i (a - a % unit.bytes) (a - a % unit.bytes + unit.bytes) e t
  gapped : c.tuning.readDummyLen = Chip.readDummyLen → Gapped i a (a + data.length) e t

/-- Around the data, the merged page is what the cells of the page held. -/
theorem Around.cell_eq {left right here : Bytes} (h : Around i a here.length c e left right)
    (hdummy : c.tuning.readDummyLen = Chip.readDummyLen) {j : Nat}
    (hj : j < (left ++ here ++ right).length)
    (hout : a - a % pageSize + j < a ∨ a + here.length ≤ a - a % pageSize + j) :
    (left ++ here ++ right)[j] = e.cell i (a - a % pageSize + j) := by
  have hle := Nat.mod_le a pageSize
  have hleft := h.left_length
  rcases hout with hbefore | hafter
  · rw [List.getElem_append_left (by rw [List.length_append]; omega),
      List.getElem_append_left (by omega)]
    exact (h.before hdummy j (by omega)).symm
  · rw [List.getElem_append_right (by rw [List.length_append]; omega)]
    have hright := h.after hdummy (j - (left ++ here).length) (by
      simp only [List.length_append] at *
      omega)
    rw [← hright, List.length_append]
    congr 1
    omega

/-- Programming the page as a whole brings back what stood around the data. -/
theorem Around.all {left right here : Bytes} (h : Around i a here.length c e left right)
    (hdummy : c.tuning.readDummyLen = Chip.readDummyLen)
    (hall : Holds t i (a - a % pageSize) (left ++ here ++ right))
    (hsame : SameOutside i (a - a % pageSize) (a - a % pageSize + pageSize) e t) :
    Holds t i a here ∧ SameOutside i a (a + here.length) e t := by
  have hle := Nat.mod_le a pageSize
  have hleft := h.left_length
  have hright := h.right_length
  have hlen := h.length_eq
  constructor
  · have hhere := (hall.take (a % pageSize + here.length)).drop (a % pageSize)
    rw [← hleft, ← List.length_append, List.take_left, List.drop_left, hleft,
      Nat.sub_add_cancel hle] at hhere
    exact hhere
  · intro j b hb hne
    by_cases hin : j = i ∧ a - a % pageSize ≤ b ∧ b < a - a % pageSize + pageSize
    · obtain ⟨rfl, hlo, hhi⟩ := hin
      have hk := hall (b - (a - a % pageSize)) (by omega)
      have hout := hne rfl
      rw [h.cell_eq hdummy (by omega) (by omega), Nat.add_sub_cancel' hlo] at hk
      exact hk
    · exact hsame j b hb fun hj => by omega

/-- A page that is programmed in part holds its old bytes around the data up to
there, and none from there on. -/
theorem Around.gapped {left right here : Bytes} {k : Nat}
    (h : Around i a here.length c e left right)
    (hdummy : c.tuning.readDummyLen = Chip.readDummyLen)
    (hpart : Programmed i (a - a % pageSize) (left ++ here ++ right) k m t)
    (hsame : SameOutside i (a - a % pageSize) (a - a % pageSize + pageSize) e t) :
    Gapped i a (a + here.length) e t := by
  have hle := Nat.mod_le a pageSize
  have hlen := h.length_eq
  -- the gap runs from the first byte that was not programmed to the end of the page
  refine ⟨a - a % pageSize + k, a - a % pageSize + pageSize, fun j b hb hne => ?_⟩
  by_cases hin : j = i ∧ a - a % pageSize ≤ b ∧ b < a - a % pageSize + pageSize
  · obtain ⟨rfl, hlo, hhi⟩ := hin
    by_cases hk : b - (a - a % pageSize) < k
    · have hcell := hpart.holds (b - (a - a % pageSize)) (by rw [List.length_take]; omega)
      have hout := hne rfl
      rw [List.getElem_take, h.cell_eq hdummy (by omega) (by omega),
        Nat.add_sub_cancel' hlo] at hcell
      rw [if_neg (by omega)]
      exact hcell
    · rw [if_pos ⟨rfl, by omega, hhi⟩]
      exact hpart.blank b (by omega) (by omega)
  · rw [if_neg (by omega)]
    exact hsame j b hb fun hj => by omega

/-! ## Page operations -/

namespace Ready

/-- Merging data into its page. -/
theorem ends_mergePage (h : Ready c e i) (hp : Locates p i a) (hdata : data ≠ [])
    (ha : a < e.config.capacity) (hpage : page.length = pageSize) :
    Controller.Merge.Ends Emulator.block (Controller.mergePage p data) page c e
      (fun n page' c' t => page'.length = pageSize ∧ Stored i a data n c e c' t)
      (fun _ _ c' t => Broken i a data .page c e c' t) := by
  have hmod := Nat.mod_lt a pageSize_pos
  have hle := Nat.mod_le a pageSize
  have hpos := List.length_pos_iff.mpr hdata
  have hend := h.attached.page_le ha
  have hlen : (data.take (pageSize - a % pageSize)).length =
      min (pageSize - a % pageSize) data.length := List.length_take
  refine (h.ends_mergePage_of hp hdata ha hpage
    (A := fun c' t => Stored i a data (min (pageSize - a % pageSize) data.length) c e c' t)
    (E := fun c' t => Broken i a data .page c e c' t) ?_ ?_).mono ?_ ?_
  · intro c' t hf heffect
    refine ⟨hf.mono (fun _ => Unarmed.spares) And.left, ?_, fun _ => ?_⟩
    · exact heffect.elim SameContents.sameOutside Erased.same
    · exact heffect.elim (fun hsame => hsame.sameOutside.gapped) Erased.gapped
  · intro left right c₁ e₁ haround hran herased hpatient
    have hran₁ : Ran Unarmed i c e c₁ e₁ := hran.mono fun _ => Unarmed.spares
    have hcap := hran.kept.config
    have hbuffer := haround.length_eq
    have hpage : ∀ {t}, SameOutside i (a - a % pageSize) (a - a % pageSize +
        (left ++ data.take (pageSize - a % pageSize) ++ right).length) e₁ t →
        SameOutside i (a - a % pageSize) (a - a % pageSize + pageSize) e t := by
      intro t hsame
      rw [hbuffer] at hsame
      exact herased.same.trans hsame hcap
    refine (hran.ready.ends_bulkWrite hp.pageStart (by rw [hbuffer, hcap]; exact hend)
      (by rw [hbuffer]; exact herased.blank)).mono ?_ ?_
    · intro _ c' t hpost
      obtain ⟨hran', hprogrammed, hable⟩ := hpost
      have hable := hran.kept.able_iff.mp (hable (List.length_pos_iff.mp (by omega)))
      refine ⟨by omega, Nat.min_le_right _ _, ?_, hran₁.trans hran', hable, ?_, ?_⟩
      · intro hn
        rw [show a + min (pageSize - a % pageSize) data.length = a - a % pageSize + pageSize by
          omega]
        simp only [pageSize]
        omega
      · intro hdummy
        rw [← List.take_eq_take_min]
        exact (haround.all hdummy hprogrammed.all.1 (hpage hprogrammed.same)).1
      · intro hdummy
        rw [← hlen]
        exact (haround.all hdummy hprogrammed.all.1 (hpage hprogrammed.same)).2
    · intro _ c' t hpost
      obtain ⟨hf, k, hprogrammed⟩ := hpost
      refine ⟨(hran₁.failed hf).mono (fun _ h => h) hran.kept.able_iff.mpr,
        hpage hprogrammed.same, fun hdummy => ?_⟩
      exact (haround.gapped hdummy hprogrammed (hpage hprogrammed.same)).mono (by omega)
  · intro _ page' c' t hpost
    obtain ⟨rfl, hpage', hstored⟩ := hpost
    exact ⟨hpage', hstored⟩
  · exact fun _ _ _ _ hf => hf

/-- Rewriting the unit that the data covers, if there is one. -/
theorem ends_rewriteUnit (h : Ready c e i) (hp : Locates p i a)
    (hfit : a + data.length ≤ e.config.capacity) :
    Drive.Ends Emulator.block (Controller.rewriteUnit p data) c e
      (fun r c' t => match r with
        | none => EraseUnit.forSpan? p data.length = none ∧ c' = c ∧ t = e
        | some n => Stored i a data n c e c' t)
      (fun _ c' t => Broken i a data (pageUnit a data.length) c e c' t) := by
  rw [Controller.rewriteUnit, hp.pageUnit_eq]
  cases hunit : EraseUnit.forSpan? p data.length with
  | none => exact Drive.Ends.pure ⟨rfl, rfl, rfl⟩
  | some unit =>
    obtain ⟨haligned, hcovered⟩ := EraseUnit.of_forSpan? hunit
    have halign := (hp.isAligned_iff unit).mp haligned
    have hunitpos := unit.bytes_pos
    rw [Option.getD_some]
    refine Drive.Ends.bind (h.attached.ends_eraseUnit hp unit (by omega)) ?_ ?_
    · intro _ c' t hpost
      obtain ⟨hf, heffect⟩ := hpost
      refine ⟨hf.mono (fun _ => Unarmed.spares) fun hable => ⟨halign, hable.1, ?_⟩, ?_, fun _ => ?_⟩
      · rw [h.idle]
        exact Nat.zero_le _
      · rw [halign, Nat.sub_zero]
        exact heffect.elim SameContents.sameOutside fun herased => herased.2.same
      · exact heffect.elim (fun hsame => hsame.sameOutside.gapped) fun herased => herased.2.gapped
    intro _ c₁ e₁ hpost
    obtain ⟨hran, -, herased, hpatient⟩ := hpost
    have hran₁ : Ran Unarmed i c e c₁ e₁ := hran.mono fun _ => Unarmed.spares
    have hcap := hran.kept.config
    apply Drive.Ends.step (Proc.run_split hcovered)
    dsimp only
    have hlen : (data.take unit.bytes).length = unit.bytes := by
      rw [List.length_take, Nat.min_eq_left hcovered]
    -- the erase and the bulk write both stay inside the unit
    have hunitsame : ∀ {t}, SameOutside i a (a + (data.take unit.bytes).length) e₁ t →
        SameOutside i a (a + unit.bytes) e t := by
      intro t hsame
      rw [hlen] at hsame
      exact herased.same.trans hsame hcap
    refine Drive.Ends.bind (hran.ready.ends_bulkWrite hp
      (by rw [hlen, hcap]; omega) (by rw [hlen]; exact herased.blank)) ?_ ?_
    · intro _ c' t hpost
      obtain ⟨hf, k, hprogrammed⟩ := hpost
      have hsame := hunitsame hprogrammed.same
      refine ⟨(hran₁.failed hf).mono (fun _ h => h) hran.kept.able_iff.mpr, ?_, fun _ => ?_⟩
      · rw [halign, Nat.sub_zero]
        exact hsame
      · exact (hsame.mono (Nat.le_refl a) (by omega)).gapped
    · intro _ c' t hpost
      obtain ⟨hran', hprogrammed, hable⟩ := hpost
      have hable := hran.kept.able_iff.mp (hable (List.length_pos_iff.mp (by omega)))
      refine Drive.Ends.pure ⟨hunitpos, hcovered, fun _ => ?_, hran₁.trans hran', hable,
        fun _ => hprogrammed.all.1, fun _ => hunitsame hprogrammed.same⟩
      refine Nat.mod_eq_zero_of_dvd (Nat.dvd_add ?_ unit.pageSize_dvd_bytes)
      exact Nat.dvd_trans unit.pageSize_dvd_bytes (Nat.dvd_of_mod_eq_zero halign)

/-- **One page operation** stores the front of the data, or fails in its unit. -/
theorem ends_programPage (h : Ready c e i) (hp : Locates p i a) (hdata : data ≠ [])
    (hfit : a + data.length ≤ e.config.capacity) (hpage : page.length = pageSize) :
    Controller.Merge.Ends Emulator.block (Controller.programPage p data) page c e
      (fun n page' c' t => page'.length = pageSize ∧ Stored i a data n c e c' t)
      (fun _ _ c' t => Broken i a data (pageUnit a data.length) c e c' t) := by
  have hpos := List.length_pos_iff.mpr hdata
  refine Controller.Merge.Ends.bind (Controller.Merge.Ends.drive
    (A := fun r page' c' t => page' = page ∧ match r with
      | none => EraseUnit.forSpan? p data.length = none ∧ c' = c ∧ t = e
      | some n => Stored i a data n c e c' t)
    (E := fun _ _ c' t => Broken i a data (pageUnit a data.length) c e c' t)
    ((h.ends_rewriteUnit hp hfit).mono (fun _ _ _ hr => ⟨rfl, hr⟩) fun _ _ _ hf => hf))
    (fun _ _ _ _ hf => hf) ?_
  rintro (_ | n) _ c' t ⟨rfl, hr⟩
  · obtain ⟨hnone, rfl, rfl⟩ := hr
    rw [hp.pageUnit_eq, hnone]
    exact h.ends_mergePage hp hdata (by omega) hpage
  · exact Controller.Merge.Ends.pure ⟨hpage, hr⟩

end Ready

end NorFlash
