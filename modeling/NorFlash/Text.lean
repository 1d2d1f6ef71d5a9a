/-!
# Text — cutting text at separators

Texts are lists of characters here. `splitFirst?` cuts at the first separator,
`pieces` at every one; `joined` undoes `pieces`.
-/

namespace NorFlash.Text

/-- The text ahead of the first separator and the text behind it. -/
def splitFirst? (separator : Char) : List Char → Option (List Char × List Char)
  | [] => none
  | c :: rest =>
    if c = separator then some ([], rest)
    else (splitFirst? separator rest).map fun (front, back) => (c :: front, back)

/-- The parts between separators; there is one more than there are
separators. -/
def pieces (separator : Char) : List Char → List (List Char)
  | [] => [[]]
  | c :: rest =>
    if c = separator then [] :: pieces separator rest
    else
      match pieces separator rest with
      | [] => [[c]]
      | first :: others => (c :: first) :: others

/-- Parts with a separator between each two. -/
def joined (separator : Char) : List (List Char) → List Char
  | [] => []
  | [part] => part
  | part :: others => part ++ separator :: joined separator others

/-! ## Cutting at the first separator -/

section SplitFirst

variable {separator : Char} {text front back : List Char}

theorem splitFirst?_eq_some_iff : splitFirst? separator text = some (front, back) ↔
    text = front ++ separator :: back ∧ separator ∉ front := by
  induction text generalizing front with
  | nil => simp [splitFirst?]
  | cons c rest ih =>
    unfold splitFirst?
    split
    · rename_i h
      subst h
      cases front with
      | nil => simp [eq_comm]
      | cons d front => simp +contextual [eq_comm]
    · rename_i h
      cases front with
      | nil => simp [h]
      | cons d front =>
        simp only [Option.map_eq_some_iff, Prod.exists, Prod.mk.injEq, List.cons.injEq,
          List.cons_append, List.mem_cons, not_or]
        constructor
        · rintro ⟨front', back', hsplit, ⟨rfl, rfl⟩, rfl⟩
          obtain ⟨hrest, hfront⟩ := ih.mp hsplit
          exact ⟨⟨rfl, hrest⟩, Ne.symm h, hfront⟩
        · rintro ⟨⟨rfl, hrest⟩, -, hfront⟩
          exact ⟨front, back, ih.mpr ⟨hrest, hfront⟩, ⟨rfl, rfl⟩, rfl⟩

theorem splitFirst?_eq_none_iff : splitFirst? separator text = none ↔ separator ∉ text := by
  induction text with
  | nil => simp [splitFirst?]
  | cons c rest ih =>
    unfold splitFirst?
    split
    · rename_i h
      simp [h]
    · rename_i h
      simp [ih, Ne.symm h]

theorem splitFirst?_append (h : separator ∉ front) :
    splitFirst? separator (front ++ separator :: back) = some (front, back) :=
  splitFirst?_eq_some_iff.mpr ⟨rfl, h⟩

end SplitFirst

/-! ## Cutting at every separator -/

section Pieces

variable {separator : Char} {text : List Char} {parts : List (List Char)}

theorem pieces_eq_splitOn (separator : Char) (text : List Char) :
    pieces separator text = text.splitOn separator := by
  induction text with
  | nil => simp [pieces]
  | cons c rest ih =>
    rw [pieces, ih, List.splitOn_cons_eq_if_modifyHead]
    by_cases h : c = separator
    · simp [h]
    · cases hp : rest.splitOn separator with
      | nil => exact absurd hp (List.splitOn_ne_nil separator rest)
      | cons first others => simp [h]

theorem joined_eq_intercalate (separator : Char) (parts : List (List Char)) :
    joined separator parts = [separator].intercalate parts := by
  induction parts with
  | nil => rfl
  | cons part others ih =>
    cases others with
    | nil => simp [joined]
    | cons second others => simp [joined, ih]

theorem joined_pieces (separator : Char) (text : List Char) :
    joined separator (pieces separator text) = text := by
  rw [pieces_eq_splitOn, joined_eq_intercalate, List.intercalate_splitOn]

theorem pieces_joined (h : ∀ part ∈ parts, separator ∉ part) (hne : parts ≠ []) :
    pieces separator (joined separator parts) = parts := by
  rw [pieces_eq_splitOn, joined_eq_intercalate, List.splitOn_intercalate separator h hne]

theorem pieces_ne_nil (separator : Char) (text : List Char) : pieces separator text ≠ [] := by
  rw [pieces_eq_splitOn]
  exact List.splitOn_ne_nil separator text

theorem not_mem_of_mem_pieces {part : List Char} (h : part ∈ pieces separator text) :
    separator ∉ part := by
  induction text generalizing part with
  | nil =>
    simp only [pieces, List.mem_singleton] at h
    simp [h]
  | cons c rest ih =>
    unfold pieces at h
    split at h
    · rcases List.mem_cons.mp h with rfl | h
      · simp
      · exact ih h
    · rename_i hc
      cases hp : pieces separator rest with
      | nil => exact absurd hp (pieces_ne_nil separator rest)
      | cons first others =>
        rw [hp] at h ih
        rcases List.mem_cons.mp h with rfl | h
        · have hfirst : separator ∉ first := ih (by simp)
          simp [hfirst, Ne.symm hc]
        · exact ih (List.mem_cons_of_mem first h)

end Pieces

/-! ## Padding -/

/-- Blanks added on the right up to a width. -/
def padRight (width : Nat) (text : String) : String :=
  text ++ String.ofList (List.replicate (width - text.length) ' ')

end NorFlash.Text
