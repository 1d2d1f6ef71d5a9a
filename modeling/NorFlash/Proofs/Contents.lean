import NorFlash.Emulator.Chip

/-!
# Contents — a sparse page store read byte by byte

`PageStore.read` is the view of a store: each operation has an equation that
says which bytes it changes. Erased pages are dropped and pages appear on
demand, so the equations are what makes the store an array of bytes.
-/

namespace NorFlash

@[simp] theorem Bytes.length_filled (n : Nat) (v : UInt8) : (Bytes.filled n v).length = n := by
  simp [Bytes.filled]

namespace PageStore

/-! ## Keys -/

@[simp] theorem capacity_update (s : PageStore) (a : Nat) (f : UInt8 → UInt8) :
    (s.update a f).capacity = s.capacity := rfl

@[simp] theorem capacity_store (s : PageStore) (a : Nat) (v : UInt8) :
    (s.store a v).capacity = s.capacity := rfl

@[simp] theorem capacity_program (s : PageStore) (a : Nat) (v : UInt8) :
    (s.program a v).capacity = s.capacity := rfl

@[simp] theorem capacity_erasePages (s : PageStore) (base count : Nat) :
    (s.erasePages base count).capacity = s.capacity := by
  induction count generalizing s base with
  | zero => rfl
  | succ count ih => rw [erasePages, ih]

@[simp] theorem capacity_erase (s : PageStore) (base size : Nat) :
    (s.erase base size).capacity = s.capacity :=
  capacity_erasePages ..

@[simp] theorem capacity_storeRange (s : PageStore) (a : Nat) (data : Bytes) :
    (s.storeRange a data).capacity = s.capacity := by
  induction data generalizing s a with
  | nil => rfl
  | cons v rest ih => rw [storeRange, ih, capacity_store]

/-- Page number and index together are the address within the capacity. -/
theorem key_eq_iff (s : PageStore) (a b : Nat) :
    (s.pageNumber a = s.pageNumber b ∧ s.indexInPage a = s.indexInPage b) ↔
      a % s.capacity = b % s.capacity := by
  simp only [pageNumber, indexInPage, Fin.mk.injEq]
  constructor
  · intro hpost
    obtain ⟨hd, hm⟩ := hpost
    rw [← Nat.div_add_mod (a % s.capacity) pageSize, hd, hm, Nat.div_add_mod]
  · intro h
    rw [h]
    exact ⟨rfl, rfl⟩

/-- A page that is not kept reads as an erased one. -/
theorem read_eq (s : PageStore) (a : Nat) :
    s.read a = getElem (s.pages[s.pageNumber a]?.getD Page.erased) (s.indexInPage a)
      (s.indexInPage a).isLt := by
  rw [read]
  cases s.pages[s.pageNumber a]? with
  | some page => rfl
  | none =>
    rw [Option.getD_none, Page.erased]
    exact (Vector.getElem_replicate _).symm

/-! ## Single bytes -/

theorem read_update (s : PageStore) (a b : Nat) (f : UInt8 → UInt8) :
    (s.update a f).read b =
      if a % s.capacity = b % s.capacity then f (s.read b) else s.read b := by
  rw [read_eq (s.update a f) b, read_eq s b]
  change ((s.update a f).pages[s.pageNumber b]?.getD Page.erased)[s.indexInPage b] = _
  by_cases hp : s.pageNumber a = s.pageNumber b
  · have hpage : (s.update a f).pages[s.pageNumber b]? =
        some ((s.pages[s.pageNumber b]?.getD Page.erased).set (s.indexInPage a)
          (f (s.pages[s.pageNumber b]?.getD Page.erased)[s.indexInPage a])) := by
      rw [update, Std.HashMap.getElem?_alter, hp, if_pos (beq_self_eq_true _)]
    rw [hpage, Option.getD_some]
    by_cases hi : s.indexInPage a = s.indexInPage b
    · rw [if_pos ((key_eq_iff s a b).mp ⟨hp, hi⟩)]
      simp only [hi]
      exact Vector.getElem_set_self _
    · rw [if_neg fun h => hi ((key_eq_iff s a b).mpr h).2]
      exact Vector.getElem_set_ne _ _ fun h => hi (Fin.ext h)
  · have hpage : (s.update a f).pages[s.pageNumber b]? = s.pages[s.pageNumber b]? := by
      rw [update, Std.HashMap.getElem?_alter, if_neg (by simpa using hp)]
    rw [hpage, if_neg fun h => hp ((key_eq_iff s a b).mpr h).1]

theorem read_store (s : PageStore) (a b : Nat) (v : UInt8) :
    (s.store a v).read b = if a % s.capacity = b % s.capacity then v else s.read b :=
  read_update s a b _

theorem read_program (s : PageStore) (a b : Nat) (v : UInt8) :
    (s.program a v).read b =
      if a % s.capacity = b % s.capacity then s.read b &&& v else s.read b :=
  read_update s a b _

/-! ## Erasing -/

/-- An erase clears the bytes whose pages it names, and no others. -/
theorem read_erasePages (s : PageStore) (base count b : Nat) :
    (s.erasePages base count).read b =
      if ∃ k < count, s.pageNumber (base + k * pageSize) = s.pageNumber b then 0xff
      else s.read b := by
  induction count generalizing s base with
  | zero => simp [erasePages]
  | succ count ih =>
    -- the first page goes now, page `k + 1` of the region is page `k` of the rest
    have hfirst : ({ s with pages := s.pages.erase (s.pageNumber base) } : PageStore).read b =
        if s.pageNumber base = s.pageNumber b then 0xff else s.read b := by
      have hnum : ({ s with pages := s.pages.erase (s.pageNumber base) } : PageStore).pageNumber b
          = s.pageNumber b := rfl
      rw [read, read, hnum, Std.HashMap.getElem?_erase]
      by_cases hp : s.pageNumber base = s.pageNumber b <;> simp [hp]
      rfl
    have hsplit : (∃ k < count + 1, s.pageNumber (base + k * pageSize) = s.pageNumber b) ↔
        (∃ k < count, s.pageNumber (base + pageSize + k * pageSize) = s.pageNumber b) ∨
          s.pageNumber base = s.pageNumber b := by
      constructor
      · intro hpost
        obtain ⟨k, hk, h⟩ := hpost
        cases k with
        | zero => exact .inr (by simpa using h)
        | succ k =>
          refine .inl ⟨k, by omega, ?_⟩
          rwa [show base + pageSize + k * pageSize = base + (k + 1) * pageSize by
            rw [Nat.add_mul]; omega]
      · intro hpost
        rcases hpost with ⟨k, hk, h⟩ | h
        · refine ⟨k + 1, by omega, ?_⟩
          rwa [show base + (k + 1) * pageSize = base + pageSize + k * pageSize by
            rw [Nat.add_mul]; omega]
        · exact ⟨0, by omega, by simpa using h⟩
    have hrest := ih { s with pages := s.pages.erase (s.pageNumber base) } (base + pageSize)
    rw [hfirst] at hrest
    rw [erasePages, hrest]
    simp only [hsplit]
    by_cases h1 : ∃ k < count, s.pageNumber (base + pageSize + k * pageSize) = s.pageNumber b
    · rw [if_pos (Or.inl h1)]
      exact if_pos h1
    · simp only [h1, false_or]
      exact if_neg h1

/-- An erased region below the capacity reads as all ones, the rest as before. -/
theorem read_erase (s : PageStore) {base size b : Nat} (hbase : base % pageSize = 0)
    (hsize : size % pageSize = 0) (hfit : base + size ≤ s.capacity) (hb : b < s.capacity) :
    (s.erase base size).read b = if base ≤ b ∧ b < base + size then 0xff else s.read b := by
  have hpages : (∃ k < size / pageSize, s.pageNumber (base + k * pageSize) = s.pageNumber b) ↔
      base ≤ b ∧ b < base + size := by
    simp only [pageNumber, pageSize] at *
    rw [Nat.mod_eq_of_lt hb]
    constructor
    · intro hpost
      obtain ⟨k, hk, h⟩ := hpost
      rw [Nat.mod_eq_of_lt (by omega)] at h
      omega
    · intro hpost
      obtain ⟨h1, h2⟩ := hpost
      refine ⟨b / 4096 - base / 4096, by omega, ?_⟩
      rw [Nat.mod_eq_of_lt (by omega)]
      omega
  rw [erase, read_erasePages]
  simp only [hpages]

/-! ## Programming -/

theorem capacity_programRange (s : PageStore) (a : Nat) (data : Bytes) :
    (Chip.programRange s a data).capacity = s.capacity := by
  induction data generalizing s a with
  | nil => rfl
  | cons v rest ih => rw [Chip.programRange, ih, capacity_program]

/-- Inside one program page the next byte goes to the next address. -/
theorem programRange_cons (s : PageStore) {a : Nat} {v : UInt8} {rest : Bytes}
    (hpage : a % programPageSize + (rest.length + 1) ≤ programPageSize) :
    Chip.programRange s a (v :: rest) = Chip.programRange (s.program a v) (a + 1) rest := by
  cases rest with
  | nil => rfl
  | cons w rest =>
    have hnext : a / programPageSize * programPageSize + (a + 1) % programPageSize = a + 1 := by
      simp only [programPageSize, List.length_cons] at *
      omega
    rw [Chip.programRange, hnext]

/-- Programming clears bits: a programmed byte is the old one masked by the
new one. -/
theorem read_programRange (s : PageStore) {a b : Nat} {data : Bytes}
    (hpage : a % programPageSize + data.length ≤ programPageSize)
    (hfit : a + data.length ≤ s.capacity) (hb : b < s.capacity) :
    (Chip.programRange s a data).read b =
      if h : a ≤ b ∧ b < a + data.length then s.read b &&& data[b - a]
      else s.read b := by
  -- on the data: the first byte goes now, the rest to the next address
  induction data generalizing s a with
  | nil =>
    rw [dif_neg (by simp only [List.length_nil]; omega)]
    rfl
  | cons v rest ih =>
    rw [List.length_cons] at hpage hfit
    have hrest : (Chip.programRange (s.program a v) (a + 1) rest).read b =
        if h : a + 1 ≤ b ∧ b < a + 1 + rest.length then
          (s.program a v).read b &&& rest[b - (a + 1)]
        else (s.program a v).read b := by
      cases rest with
      | nil => rw [dif_neg (by simp only [List.length_nil]; omega)]; rfl
      | cons w rest =>
        refine ih (s.program a v) ?_ ?_ hb
        · simp only [programPageSize, List.length_cons] at *
          omega
        · rw [capacity_program]
          omega
    rw [programRange_cons s hpage, hrest, read_program, Nat.mod_eq_of_lt hb,
      Nat.mod_eq_of_lt (show a < s.capacity by omega)]
    by_cases hab : a = b
    · subst hab
      rw [dif_neg (by omega), if_pos rfl, dif_pos (by rw [List.length_cons]; omega)]
      simp only [Nat.sub_self, List.getElem_cons_zero]
    · by_cases hin : a + 1 ≤ b ∧ b < a + 1 + rest.length
      · rw [dif_pos hin, if_neg hab, dif_pos (by rw [List.length_cons]; omega)]
        rw [List.getElem_cons, dif_neg (show ¬ b - a = 0 by omega)]
        simp only [show b - a - 1 = b - (a + 1) by omega]
      · rw [dif_neg hin, if_neg hab, dif_neg (by rw [List.length_cons]; omega)]

/-! ## Ranges -/

/-- Bytes that are stored from an address on are there, and the others stay. -/
theorem read_storeRange (s : PageStore) {a b : Nat} {data : Bytes}
    (hfit : a + data.length ≤ s.capacity) (hb : b < s.capacity) :
    (s.storeRange a data).read b =
      if h : a ≤ b ∧ b < a + data.length then data[b - a] else s.read b := by
  induction data generalizing s a with
  | nil =>
    rw [dif_neg (by simp only [List.length_nil]; omega)]
    rfl
  | cons v rest ih =>
    rw [List.length_cons] at hfit
    have hrest := ih (s.store a v) (a := a + 1) (by rw [capacity_store]; omega) hb
    rw [storeRange, hrest, read_store, Nat.mod_eq_of_lt hb,
      Nat.mod_eq_of_lt (show a < s.capacity by omega)]
    by_cases hab : a = b
    · subst hab
      rw [dif_neg (by omega), if_pos rfl, dif_pos (by rw [List.length_cons]; omega)]
      simp only [Nat.sub_self, List.getElem_cons_zero]
    · by_cases hin : a + 1 ≤ b ∧ b < a + 1 + rest.length
      · rw [dif_pos hin, dif_pos (by rw [List.length_cons]; omega), List.getElem_cons,
          dif_neg (show ¬ b - a = 0 by omega)]
        simp only [show b - a - 1 = b - (a + 1) by omega]
      · rw [dif_neg hin, if_neg hab, dif_neg (by rw [List.length_cons]; omega)]

@[simp] theorem length_readRange (s : PageStore) (a n : Nat) : (s.readRange a n).length = n := by
  simp [readRange]

@[simp] theorem getElem_readRange (s : PageStore) (a n j : Nat)
    (h : j < (s.readRange a n).length) : (s.readRange a n)[j] = s.read (a + j) := by
  simp [readRange]

end PageStore

end NorFlash
