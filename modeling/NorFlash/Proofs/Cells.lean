import NorFlash.Proofs.Commands

/-!
# Cells — the chips as arrays of bytes

What an operation did to the flash is said cell by cell: which bytes a range
holds, which cells are blank, and that all other cells are as before.
-/

namespace NorFlash

/-- The byte at address `a` of chip `i`. -/
def Emulator.cell (e : Emulator) (i : Fin maxSlaves) (a : Nat) : UInt8 :=
  (e.chip i).contents.read a

variable {e m t : Emulator} {i : Fin maxSlaves} {a lo hi lo' hi' : Nat} {data : Bytes}

/-- The cells from `a` on hold the data. -/
def Holds (e : Emulator) (i : Fin maxSlaves) (a : Nat) (data : Bytes) : Prop :=
  ∀ k (h : k < data.length), e.cell i (a + k) = data[k]

/-- The cells from `lo` up to `hi` are erased. -/
def Blank (e : Emulator) (i : Fin maxSlaves) (lo hi : Nat) : Prop :=
  ∀ b, lo ≤ b → b < hi → e.cell i b = 0xff

/-- Every cell is as before, but for those of chip `i` from `lo` up to `hi`. -/
def SameOutside (i : Fin maxSlaves) (lo hi : Nat) (e t : Emulator) : Prop :=
  ∀ j b, b < e.config.capacity → (j = i → b < lo ∨ hi ≤ b) → t.cell j b = e.cell j b

theorem SameContents.cell (h : SameContents e t) (j : Fin maxSlaves) (b : Nat) :
    t.cell j b = e.cell j b := by
  rw [Emulator.cell, Emulator.cell, h j]

theorem SameContents.sameOutside (h : SameContents e t) : SameOutside i lo hi e t :=
  fun j b _ _ => h.cell j b

theorem SameOutside.trans (h : SameOutside i lo hi e m) (hm : SameOutside i lo hi m t)
    (hc : m.config = e.config) : SameOutside i lo hi e t :=
  fun j b hb hne => (hm j b (hc ▸ hb) hne).trans (h j b hb hne)

theorem SameOutside.mono (h : SameOutside i lo hi e t) (hlo : lo' ≤ lo) (hhi : hi ≤ hi') :
    SameOutside i lo' hi' e t :=
  fun j b hb hne => h j b hb fun hj => (hne hj).imp (fun h => by omega) fun h => by omega

theorem Blank.of_same (h : Blank e i lo hi) (hs : SameOutside i lo' hi' e t)
    (hout : hi ≤ lo' ∨ hi' ≤ lo) (hcap : hi ≤ e.config.capacity) : Blank t i lo hi := by
  intro b hlo hhi
  rw [hs i b (by omega) fun _ => by omega]
  exact h b hlo hhi

theorem Blank.mono (h : Blank e i lo hi) (hlo : lo ≤ lo') (hhi : hi' ≤ hi) : Blank e i lo' hi' :=
  fun b h1 h2 => h b (by omega) (by omega)

theorem Blank.of_contents (h : Blank e i lo hi) (hs : SameContents e t) : Blank t i lo hi :=
  fun b h1 h2 => (hs.cell i b).trans (h b h1 h2)

theorem Holds.of_same (h : Holds e i a data) (hs : SameOutside i lo hi e t)
    (hout : a + data.length ≤ lo ∨ hi ≤ a) (hcap : a + data.length ≤ e.config.capacity) :
    Holds t i a data := by
  intro k hk
  rw [hs i (a + k) (by omega) fun _ => by omega]
  exact h k hk

theorem Holds.of_contents (h : Holds e i a data) (hs : SameContents e t) : Holds t i a data :=
  fun k hk => (hs.cell i _).trans (h k hk)

theorem Holds.nil (e : Emulator) (i : Fin maxSlaves) (a : Nat) : Holds e i a [] := nofun

theorem Holds.append {front back : Bytes} (hf : Holds e i a front)
    (hb : Holds e i (a + front.length) back) : Holds e i a (front ++ back) := by
  intro k hk
  rw [List.getElem_append]
  split
  · rename_i h
    exact hf k h
  · rename_i h
    rw [List.length_append] at hk
    have := hb (k - front.length) (by omega)
    rwa [show a + front.length + (k - front.length) = a + k by omega] at this

/-- The first bytes stay while what follows them is brought in. -/
theorem Holds.append_of_same {n : Nat} {back : Bytes} (h : Holds e i a (data.take n))
    (hn : n ≤ data.length) (hcap : a + n ≤ e.config.capacity)
    (hs : SameOutside i (a + n) hi e t) (hb : Holds t i (a + n) back) :
    Holds t i a (data.take n ++ back) := by
  have hlen : (data.take n).length = n := List.length_take_of_le hn
  refine (h.of_same hs (.inl ?_) ?_).append ?_
  · exact Nat.le_of_eq (congrArg (a + ·) hlen)
  · rwa [hlen]
  · rwa [hlen]

theorem Holds.take (h : Holds e i a data) (n : Nat) : Holds e i a (data.take n) := by
  intro k hk
  rw [List.getElem_take]
  exact h k (by rw [List.length_take] at hk; omega)

theorem Holds.drop (h : Holds e i a data) (n : Nat) : Holds e i (a + n) (data.drop n) := by
  intro k hk
  rw [List.getElem_drop, Nat.add_assoc]
  exact h (n + k) (by rw [List.length_drop] at hk; omega)

/-- The bytes read from a range are those it holds. -/
theorem holds_readRange (e : Emulator) (i : Fin maxSlaves) (a n : Nat) :
    Holds e i a ((e.chip i).contents.readRange a n) := by
  intro k hk
  rw [PageStore.getElem_readRange]
  rfl

/-! ## Programming a blank range -/

/-- Of the data, `k` bytes are programmed at `a` and the cells for the others
are still blank; nothing else changed. -/
structure Programmed (i : Fin maxSlaves) (a : Nat) (data : Bytes) (k : Nat) (e t : Emulator) :
    Prop where
  le : k ≤ data.length
  holds : Holds t i a (data.take k)
  blank : Blank t i (a + k) (a + data.length)
  same : SameOutside i a (a + data.length) e t

theorem Programmed.zero (hs : SameContents e t) (hb : Blank e i a (a + data.length)) :
    Programmed i a data 0 e t :=
  ⟨Nat.zero_le _, .nil t i a, hb.of_contents hs, hs.sameOutside⟩

theorem Programmed.all (h : Programmed i a data data.length e t) :
    Holds t i a data ∧ SameOutside i a (a + data.length) e t := by
  refine ⟨?_, h.same⟩
  have := h.holds
  rwa [List.take_length] at this

/-- Programming the first `n` bytes, and then some of the others. -/
theorem Programmed.append {n k : Nat} (h : Programmed i a data n e m)
    (h' : Programmed i (a + n) (data.drop n) k m t) (hc : m.config = e.config)
    (hcap : a + data.length ≤ e.config.capacity) : Programmed i a data (n + k) e t := by
  have hn := h.le
  have hk := h'.le
  have hrest : a + n + (data.drop n).length = a + data.length := by
    rw [List.length_drop]
    omega
  have hsame := h'.same
  have hblank := h'.blank
  rw [hrest] at hsame hblank
  rw [List.length_drop] at hk
  refine ⟨by omega, ?_, ?_, ?_⟩
  · rw [List.take_add]
    exact h.holds.append_of_same hn (by rw [hc]; omega) hsame h'.holds
  · rwa [Nat.add_assoc] at hblank
  · exact h.same.trans (hsame.mono (by omega) (Nat.le_refl _)) hc

end NorFlash
