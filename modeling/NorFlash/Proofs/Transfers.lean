import NorFlash.Proofs.Payloads

/-!
# Transfers — bulk transfers and page operations within the terms

The loops of a controller and its page operations repeat bursts. Each is followed
with the invariant that a controller within the terms stays within them, and with
a count of the bytes that went through: every burst brings or takes one, no slice
leaves its buffer, and an offset that is advanced past bytes that went through
belongs to a slave that exists.
-/

namespace NorFlash

variable {α β : Type} {T : Terms} {v : Vendor} {c : Controller} {offset : UInt64}

/-! ## Moving data -/

theorem Ahead.start (offset : UInt64) : Ahead offset 0 :=
  ⟨Nat.zero_le _, .inl rfl⟩

namespace Controller

/-- Bytes that a read still has to bring; a completed one brought them all. -/
structure Brought (offset : UInt64) (left : Nat) (got : Bytes) (arrival : Arrival) : Prop where
  le : arrival.bytes.length ≤ left + got.length
  eq : arrival.outcome = .ok () → arrival.bytes.length = left + got.length
  addressed : arrival.outcome = .ok () → 0 < left → Addressed offset

/-- What a failed read owes is bounded only. -/
theorem Brought.failed {left : Nat} {got bytes : Bytes} {e : Error}
    (h : bytes.length ≤ left + got.length) : Brought offset left got ⟨bytes, .error e⟩ :=
  ⟨h, nofun, nofun⟩

theorem abides_readOn (hc : c.Within T v) {fuel left done : Nat} (got : Bytes)
    (hfuel : left ≤ fuel) (hahead : T.overrun ∨ Ahead offset done ∧ done + left ≤ signedLimit) :
    Abides T v (readOn offset fuel left done got) c fun arrival _ =>
      Brought offset left got arrival := by
  have hdone : ∀ {c : Controller} {got : Bytes}, c.Within T v →
      Abides T v (Pure.pure ⟨got.reverse, .ok ()⟩) c fun arrival _ =>
        Brought offset 0 got arrival :=
    fun hc => .pure hc ⟨by simp, by simp, fun _ h => absurd h (Nat.lt_irrefl 0)⟩
  induction fuel generalizing left done got c with
  | zero =>
    obtain rfl : left = 0 := by omega
    exact hdone hc
  | succ fuel ih =>
    cases left with
    | zero => exact hdone hc
    | succ left =>
      rw [readOn_succ]
      refine .bind_lift (.advance (hahead.imp_right fun h => h.1.lt)) fun position hposition => ?_
      have hindex := pageIndex_lt position
      generalize hhere : min (left + 1) (pageSize - pageIndex position) = here
      have hpos : 0 < here := by omega
      have hhere_le : here ≤ signedLimit :=
        Nat.le_trans (by omega) (by decide : pageSize ≤ signedLimit)
      refine .bind_lift (.count (hahead.imp_right fun h => ?_)) fun _ _ => ?_
      · have hsum := h.2
        simp only [pageSize, signedLimit, wordLimit] at *
        omega
      refine .bind (abides_readChunk hc position (.inr hhere_le)) fun r c hc hr => ?_
      cases r with
      | error e => exact .pure hc (.failed (by simp))
      | ok bytes =>
        obtain ⟨hle, hsome⟩ := hr bytes rfl
        obtain ⟨hbytes, hslave⟩ := hsome hpos
        have hslave : Addressed offset := hslave.of_le (by omega)
        refine .bind_lift (.count (hahead.imp_right fun h => ?_)) fun filled hfilled => ?_
        · exact lt_wordLimit_of_signed (by omega)
        refine (ih hc (bytes.reverseAux got) (by omega) (hahead.imp_right fun h => ?_)).mono
          fun arrival c h => ?_
        · exact ⟨⟨by omega, .inr hslave⟩, by omega⟩
        have hlen : (bytes.reverseAux got).length = bytes.length + got.length := by
          rw [List.reverseAux_eq, List.length_append, List.length_reverse]
        refine ⟨?_, fun hok => ?_, fun _ _ => hslave⟩
        · have := h.le
          omega
        · have := h.eq hok
          omega

theorem abides_bulkRead (hc : c.Within T v) {len : Nat} (hlen : T.overrun ∨ len ≤ signedLimit) :
    Abides T v (bulkRead offset len) c fun arrival _ => Brought offset len [] arrival := by
  refine .bind (abides_readOn hc [] (Nat.le_refl len) (hlen.imp_right fun h => ?_))
    fun arrival c hc h => ?_
  · exact ⟨.start offset, by omega⟩
  · split
    · exact .pure hc h
    · exact .bind_lift (.passive .giveWay) fun _ _ => .pure hc h

theorem abides_writeOn (hc : c.Within T v) {fuel done : Nat} {data : Bytes}
    (hfuel : data.length ≤ fuel)
    (hahead : T.overrun ∨ Ahead offset done ∧ done + data.length ≤ signedLimit) :
    Drive.Abides T v (writeOn offset fuel done data) c fun _ _ => data ≠ [] → Addressed offset := by
  induction fuel generalizing done data c with
  | zero =>
    obtain rfl : data = [] := List.length_eq_zero_iff.mp (by omega)
    exact .pure hc fun h => absurd rfl h
  | succ fuel ih =>
    cases data with
    | nil => exact .pure hc fun h => absurd rfl h
    | cons byte more =>
      refine .bind_lift (.advance (hahead.imp_right fun h => h.1.lt)) fun position hposition => ?_
      refine .bind (abides_writeChunk hc position (byte :: more)) fun n c hc hn => ?_
      obtain ⟨hle, hsome⟩ := hn
      obtain ⟨hpos, hslave⟩ := hsome (List.cons_ne_nil _ _)
      have hslave : Addressed offset := hslave.of_le (by omega)
      refine .bind_lift (.split (.inr hle)) fun r hr => ?_
      have hlen := congrArg List.length hr.1
      rw [List.length_append, hr.2] at hlen
      refine .bind_lift (.count (hahead.imp_right fun h => ?_)) fun filled hfilled => ?_
      · exact lt_wordLimit_of_signed (by omega)
      refine (ih hc (by omega) (hahead.imp_right fun h => ?_)).mono fun _ _ _ _ => hslave
      exact ⟨⟨by omega, .inr hslave⟩, by omega⟩

theorem abides_bulkWrite (hc : c.Within T v) {data : Bytes}
    (hlen : T.overrun ∨ data.length ≤ signedLimit) :
    Drive.Abides T v (bulkWrite offset data) c fun _ _ => data ≠ [] → Addressed offset := by
  refine .bind (abides_writeOn hc (Nat.le_refl _) (hlen.imp_right fun h => ?_))
    fun _ c hc h => ?_
  · exact ⟨.start offset, by omega⟩
  · exact fun past => ⟨trivial, hc, fun _ _ => h⟩

/-! ## Pages -/

theorem abides_eraseUnit (hc : c.Within T v) (unit : EraseUnit) :
    Drive.Abides T v (eraseUnit offset unit) c fun _ c' =>
      Addressed offset ∧ c'.sector = (Address.ofOffset offset).sector := by
  rw [eraseUnit]
  split
  · refine .bind (abides_setActiveSlave hc _) fun _ c hc hslave => ?_
    refine .bind (abides_waitUntilReady hc) fun _ c hc _ => ?_
    refine .bind (abides_buildHeader hc unit.opcode (Address.ofOffset offset))
      fun _ c hc hheader => ?_
    obtain ⟨-, hsector, rest, hscratch⟩ := hheader
    refine .bind (abides_enableWrite hc) fun _ c' hc' heq => ?_
    subst heq
    have hfour : Opcode.headerLen ≤ c'.scratch.length := hc'.scratch ▸ Nat.le_of_lt hc'.lt_depth
    have hburst : T.burst (c'.scratch.take Opcode.headerLen) := by
      rw [hscratch]
      refine hc'.burst_of_head (by cases unit <;> cases v <;> decide) ?_
      exact Nat.le_of_lt hc'.lt_depth
    refine .bind (abides_runScratch hc' hfour hburst false) fun _ c hc hkept => ?_
    refine .bind (.log hc) fun _ _ hc heq => ?_
    subst heq
    refine (abides_waitUntilReady hc).mono fun _ c' heq => ?_
    subst heq
    exact ⟨hslave, hkept.2.trans hsector⟩
  · exact .bind (.log hc) fun _ c hc _ => .throw hc

theorem abides_erase (hc : c.Within T v) (size : Nat) :
    Drive.Abides T v (erase offset size) c fun _ c' =>
      Addressed offset ∧ c'.sector = (Address.ofOffset offset).sector := by
  rw [erase]
  split
  · exact abides_eraseUnit hc _
  · exact .bind (.log hc) fun _ c hc _ => .throw hc

/-- How many bytes a page operation took: some, if there were any. -/
structure Took (offset : UInt64) (data : Bytes) (n : Nat) : Prop where
  le : n ≤ data.length
  some : data ≠ [] → 0 < n ∧ Addressed offset

theorem abides_rewriteUnit (hc : c.Within T v) {data : Bytes}
    (hlen : T.overrun ∨ data.length ≤ signedLimit) :
    Drive.Abides T v (rewriteUnit offset data) c
      fun r _ => ∀ n, r = some n → Took offset data n := by
  rw [rewriteUnit]
  split
  · exact .pure hc nofun
  rename_i unit hunit
  have hfits := (EraseUnit.of_forSpan? hunit).2
  refine .bind (abides_eraseUnit hc unit) fun _ c hc hslave => ?_
  refine .bind_lift (.split (.inr hfits)) fun r hr => ?_
  refine .bind (abides_bulkWrite hc (hlen.imp_right fun h => ?_)) fun _ c hc _ => ?_
  · rw [hr.2]
    exact Nat.le_trans hfits h
  · refine .pure hc fun n hn => ?_
    cases hn
    exact ⟨hfits, fun _ => ⟨unit.bytes_pos, hslave.1⟩⟩

/-- The same of an operation with a page buffer, which stays as long as a page. -/
def Merge.Abides (T : Terms) (v : Vendor) (x : Merge α) (page : Bytes) (c : Controller)
    (A : α → Prop) : Prop :=
  (x.run page c).Abides T fun r => r.2.Within T v ∧
    (T.overrun ∨ r.1.2.length = pageSize) ∧ ∀ a, r.1.1 = .ok a → A a

namespace Merge.Abides

variable {x : Merge α} {f : α → Merge β} {page : Bytes} {A M : α → Prop} {B : β → Prop}

theorem pure {a : α} (hc : c.Within T v) (hpage : T.overrun ∨ page.length = pageSize) (h : A a) :
    Merge.Abides T v (Pure.pure a) page c A := by
  refine Proc.Abides.pure ⟨hc, hpage, ?_⟩
  rintro _ ⟨⟩
  exact h

theorem throw {error : Error} (hc : c.Within T v) (hpage : T.overrun ∨ page.length = pageSize) :
    Merge.Abides T v (MonadExcept.throw error : Merge α) page c A :=
  Proc.Abides.pure ⟨hc, hpage, nofun⟩

theorem bind (hx : Merge.Abides T v x page c M)
    (hf : ∀ a page c, c.Within T v → (T.overrun ∨ page.length = pageSize) → M a →
      Merge.Abides T v (f a) page c B) : Merge.Abides T v (x >>= f) page c B := by
  refine Proc.Abides.bind hx fun r hr => ?_
  obtain ⟨⟨r, page'⟩, c'⟩ := r
  obtain ⟨hc', hpage', hr⟩ := hr
  cases r with
  | ok a => exact hf a page' c' hc' hpage' (hr a rfl)
  | error error => exact throw hc' hpage'

/-- An operation of the controller as a step. -/
theorem drive {y : Drive α} {M : α → Controller → Prop} (hy : Drive.Abides T v y c M)
    (hpage : T.overrun ∨ page.length = pageSize) (hm : ∀ a c', M a c' → A a) :
    Merge.Abides T v (liftM y) page c A := by
  refine Proc.Abides.bind hy fun r hr => ?_
  obtain ⟨r, c'⟩ := r
  cases r with
  | ok a => exact pure hr.1 hpage (hm a c' (hr.2 a rfl))
  | error error => exact throw hr.1 hpage

/-- A step of the controller that cannot fail. -/
theorem bind_state {y : StateT Controller Proc α} {M : α → Controller → Prop}
    (hy : Controller.Abides T v y c M)
    (hf : ∀ a c', c'.Within T v → M a c' → Merge.Abides T v (f a) page c' B) :
    Merge.Abides T v (liftM y >>= f) page c B := by
  refine Proc.Abides.bind (M := fun r => ∃ a, r.1 = (.ok a, page) ∧ r.2.Within T v ∧ M a r.2) ?_ ?_
  · refine Proc.Abides.bind (M := fun r => r.1.2 = page ∧ r.2.Within T v ∧ M r.1.1 r.2) ?_ ?_
    · exact Proc.Abides.bind hy fun _ h => Proc.Abides.pure ⟨rfl, h⟩
    · rintro ⟨⟨a, _⟩, c'⟩ ⟨rfl, h⟩
      exact Proc.Abides.pure ⟨a, rfl, h⟩
  · rintro ⟨_, c'⟩ ⟨a, rfl, hc', h⟩
    exact hf a c' hc' h

/-- A step that does not use the controller. -/
theorem bind_lift {p : Proc α} (hc : c.Within T v) (hp : p.Abides T M)
    (hf : ∀ a, M a → Merge.Abides T v (f a) page c B) :
    Merge.Abides T v (liftM p >>= f) page c B := by
  refine bind_state (y := liftM p) (M := fun a c' => M a ∧ c' = c) ?_ ?_
  · exact Proc.Abides.bind hp fun _ h => Proc.Abides.pure ⟨hc, h, rfl⟩
  · rintro a _ - ⟨h, rfl⟩
    exact hf a h

theorem bind_get {f : Bytes → Merge β} (hf : Merge.Abides T v (f page) page c B) :
    Merge.Abides T v (get >>= f) page c B :=
  hf

theorem bind_set {page' : Bytes} {f : PUnit → Merge β}
    (hf : Merge.Abides T v (f ⟨⟩) page' c B) : Merge.Abides T v (set page' >>= f) page c B :=
  hf

/-- A branch whose two sides come together in `y`. -/
theorem join {P : Prop} [Decidable P] {x y : Merge β} (hc : c.Within T v)
    (hpage : T.overrun ∨ page.length = pageSize)
    (hy : ∀ page c, c.Within T v → (T.overrun ∨ page.length = pageSize) →
      Merge.Abides T v y page c B)
    (hx : P → (∀ page c, c.Within T v → (T.overrun ∨ page.length = pageSize) →
      Merge.Abides T v y page c B) → Merge.Abides T v x page c B) :
    Merge.Abides T v (if P then x else y) page c B := by
  by_cases h : P
  · rw [if_pos h]
    exact hx h hy
  · rw [if_neg h]
    exact hy page c hc hpage

end Merge.Abides

section Pages

variable {page data : Bytes} (hc : c.Within T v) (hpage : T.overrun ∨ page.length = pageSize)
include hc hpage

theorem abides_readInto {start stop : Nat} (hstart : start ≤ stop) (hstop : stop ≤ pageSize) :
    Merge.Abides T v (readInto offset start stop) page c fun _ => True := by
  rw [readInto_eq offset hstart hstop]
  have hlen : stop - start ≤ signedLimit :=
    Nat.le_trans (by omega) (by decide : pageSize ≤ signedLimit)
  refine .bind_state (abides_bulkRead hc (.inr hlen)) fun arrival c hc h => .bind_get ?_
  have hle := h.le
  rw [List.length_nil] at hle
  refine .bind_lift hc (.overwrite (hpage.imp_right fun h => by omega)) fun page' h => .bind_set ?_
  obtain ⟨hfits', rfl⟩ := h
  have hpage' := hpage.imp_right fun h => (Bytes.length_overwritten hfits').trans h
  split
  · exact .pure hc hpage' trivial
  · exact .throw hc hpage'

theorem abides_mergePage :
    Merge.Abides T v (mergePage offset data) page c fun n => Took offset data n := by
  rw [mergePage_eq]
  split
  · rename_i hempty
    exact .pure hc hpage ⟨Nat.zero_le _, fun hne => absurd (List.isEmpty_iff.mp hempty) hne⟩
  rename_i hne
  have hdata : 0 < data.length := by
    rw [List.length_pos_iff]
    exact fun hnil => hne (List.isEmpty_iff.mpr hnil)
  have hmod : pageIndex offset < pageSize := Nat.mod_lt _ pageSize_pos
  dsimp only
  generalize hhere : data.take (pageSize - pageIndex offset) = here
  have hlen := congrArg List.length hhere
  rw [List.length_take] at hlen
  refine .join hc hpage (fun page c hc hpage => ?_) fun hfront hy => ?_
  · refine .join hc hpage (fun page c hc hpage => .bind_get ?_) fun hback hy => ?_
    · have hfits := hpage.imp_right fun h : page.length = pageSize =>
        (by omega : pageIndex offset + here.length ≤ page.length)
      refine .bind_lift hc (.overwrite hfits) fun page' h => .bind_set ?_
      obtain ⟨hfits, rfl⟩ := h
      have hpage' := hpage.imp_right fun h => (Bytes.length_overwritten hfits).trans h
      refine .bind (.drive (A := fun _ => Addressed offset) (abides_eraseUnit hc .page) hpage'
        fun _ _ h => h.1.of_pageStart) fun _ page c hc hpage hslave => .bind_get ?_
      have hwhole := hpage.imp_right fun h =>
        Nat.le_trans (Nat.le_of_eq h) (by decide : pageSize ≤ signedLimit)
      refine .bind (.drive (A := fun _ => True) (abides_bulkWrite hc hwhole) hpage
        fun _ _ _ => trivial)
        fun _ page c hc hpage _ => ?_
      exact .pure hc hpage ⟨by omega, fun _ => ⟨by omega, hslave⟩⟩
    · refine .bind_lift hc (.advance (.inr ?_)) fun position _ => ?_
      · have hlt := offset.toNat_lt
        rw [pageStart_toNat]
        simp only [pageIndex, pageSize, wordLimit] at *
        omega
      · refine .bind (abides_readInto hc hpage (by omega) (Nat.le_refl _))
          fun _ page c hc hpage _ => ?_
        exact hy page c hc hpage
  · refine .bind (abides_readInto hc hpage (Nat.zero_le _) (Nat.le_of_lt hmod))
      fun _ page c hc hpage _ => ?_
    exact hy page c hc hpage

theorem abides_programPage (hlen : T.overrun ∨ data.length ≤ signedLimit) :
    Merge.Abides T v (programPage offset data) page c fun n => Took offset data n := by
  refine .bind (.drive (abides_rewriteUnit hc hlen) hpage fun _ _ h => h)
    fun written page c hc hpage h => ?_
  cases written with
  | some n => exact .pure hc hpage (h n rfl)
  | none => exact abides_mergePage hc hpage

end Pages

end Controller

end NorFlash
