import Mathlib.Data.List.Forall2
import NorFlash.Backend

/-!
# BackendTexts — what a backend text says

`Says text b` gives the meaning of a backend text without a parser: a name up
to the first colon, pieces between commas behind it, and an option for each
piece that holds an equals sign. Parsing computes exactly that. What comes out
of it is `Separable`: no part holds a character that would end it, and the
separable texts are those that can be put together and taken apart again.
-/

namespace NorFlash.BackendText

/-- No part of the text holds the separator that ends it. -/
structure Separable (b : BackendText) : Prop where
  name : ':' ∉ b.name
  key : ∀ o ∈ b.options, ',' ∉ o.1 ∧ '=' ∉ o.1
  value : ∀ o ∈ b.options, ',' ∉ o.2

/-- The piece is an option: a key up to the first equals sign, then a value. -/
def Sets (piece : List Char) (option : List Char × List Char) : Prop :=
  piece = option.1 ++ '=' :: option.2 ∧ '=' ∉ option.1

/-- What a text says. Behind the first colon stand pieces with a comma between
each two; those without an equals sign say nothing. -/
inductive Says : List Char → BackendText → Prop
  | bare {text : List Char} (hcolon : ':' ∉ text) : Says text { name := text, options := [] }
  | withOptions {name : List Char} {pieces : List (List Char)}
      {options : List (List Char × List Char)}
      (hcolon : ':' ∉ name) (hsome : pieces ≠ []) (hcomma : ∀ piece ∈ pieces, ',' ∉ piece)
      (hoptions : List.Forall₂ Sets (pieces.filter fun piece => '=' ∈ piece) options) :
      Says (name ++ ':' :: [','].intercalate pieces) { name, options }

/-! ## Pieces -/

theorem splitFirst?_eq_some {piece : List Char} {option : List Char × List Char} :
    Text.splitFirst? '=' piece = some option ↔ Sets piece option :=
  Text.splitFirst?_eq_some_iff

/-- The options that are cut out of the pieces are those that the pieces with
an equals sign set, in their order. -/
theorem filterMap_splitFirst?_eq_iff {pieces : List (List Char)}
    {options : List (List Char × List Char)} :
    pieces.filterMap (Text.splitFirst? '=') = options ↔
      List.Forall₂ Sets (pieces.filter fun piece => '=' ∈ piece) options := by
  induction pieces generalizing options with
  | nil => simp [eq_comm]
  | cons piece pieces ih =>
    cases hcut : Text.splitFirst? '=' piece with
    | none =>
      have hno : '=' ∉ piece := Text.splitFirst?_eq_none_iff.mp hcut
      simp only [List.filterMap_cons, hcut, List.filter_cons, hno, decide_false]
      exact ih
    | some option =>
      have hsets : Sets piece option := splitFirst?_eq_some.mp hcut
      have hmem : '=' ∈ piece := by simp [hsets.1]
      have hunique : ∀ o, Sets piece o ↔ o = option := by
        intro o
        rw [← splitFirst?_eq_some, hcut, Option.some_inj, eq_comm]
      simp only [List.filterMap_cons, hcut, List.filter_cons, hmem, decide_true, if_true,
        List.forall₂_cons_left_iff, hunique, ← ih]
      simp [eq_comm]

/-! ## Taking apart -/

theorem parse_of_bare {text : List Char} (h : ':' ∉ text) :
    parse text = { name := text, options := [] } := by
  unfold parse
  rw [Text.splitFirst?_eq_none_iff.mpr h]

theorem parse_of_colon {name rest : List Char} (h : ':' ∉ name) :
    parse (name ++ ':' :: rest) =
      { name, options := (Text.pieces ',' rest).filterMap (Text.splitFirst? '=') } := by
  unfold parse
  rw [Text.splitFirst?_append h]

/-- A text without a colon is all name; any other has a first colon. -/
theorem bare_or_colon (text : List Char) :
    ':' ∉ text ∨ ∃ name rest, text = name ++ ':' :: rest ∧ ':' ∉ name := by
  cases hcut : Text.splitFirst? ':' text with
  | none => exact .inl (Text.splitFirst?_eq_none_iff.mp hcut)
  | some cut => exact .inr ⟨cut.1, cut.2, Text.splitFirst?_eq_some_iff.mp hcut⟩

theorem says_parse (text : List Char) : Says text (parse text) := by
  rcases bare_or_colon text with hbare | ⟨name, rest, rfl, hcolon⟩
  · rw [parse_of_bare hbare]
    exact .bare hbare
  · have hoptions := filterMap_splitFirst?_eq_iff.mp
      (rfl : (Text.pieces ',' rest).filterMap (Text.splitFirst? '=') = _)
    have hsays := Says.withOptions hcolon (Text.pieces_ne_nil ',' rest)
      (fun _ => Text.not_mem_of_mem_pieces) hoptions
    rwa [← Text.joined_eq_intercalate, Text.joined_pieces, ← parse_of_colon hcolon] at hsays

theorem Says.parse_eq {text : List Char} {b : BackendText} (h : Says text b) : parse text = b := by
  cases h with
  | bare hcolon => exact parse_of_bare hcolon
  | withOptions hcolon hsome hcomma hoptions =>
    rw [parse_of_colon hcolon, ← Text.joined_eq_intercalate, Text.pieces_joined hcomma hsome,
      filterMap_splitFirst?_eq_iff.mpr hoptions]

theorem parse_eq_iff {text : List Char} {b : BackendText} : parse text = b ↔ Says text b := by
  constructor
  · rintro rfl
    exact says_parse text
  · exact Says.parse_eq

/-! ## Putting together -/

/-- An option comes from a piece: its key ends at the first equals sign, and
neither part holds a comma. -/
theorem separators_of_mem {rest : List Char} {o : List Char × List Char}
    (h : o ∈ (Text.pieces ',' rest).filterMap (Text.splitFirst? '=')) :
    (',' ∉ o.1 ∧ '=' ∉ o.1) ∧ ',' ∉ o.2 := by
  obtain ⟨piece, hpiece, hcut⟩ := List.mem_filterMap.mp h
  obtain ⟨rfl, hkey⟩ := splitFirst?_eq_some.mp hcut
  have hcomma := Text.not_mem_of_mem_pieces hpiece
  simp only [List.mem_append, List.mem_cons, not_or] at hcomma
  exact ⟨⟨hcomma.1, hkey⟩, hcomma.2.2⟩

theorem separable_parse (text : List Char) : (parse text).Separable := by
  rcases bare_or_colon text with hbare | ⟨name, rest, rfl, hcolon⟩
  · rw [parse_of_bare hbare]
    exact ⟨hbare, by simp, by simp⟩
  · rw [parse_of_colon hcolon]
    exact ⟨hcolon, fun _ ho => (separators_of_mem ho).1, fun _ ho => (separators_of_mem ho).2⟩

/-- The options of a separable text, joined and cut again. -/
theorem Separable.options_eq {b : BackendText} (h : b.Separable) :
    (Text.pieces ',' (Text.joined ','
      (b.options.map fun (key, value) => key ++ '=' :: value))).filterMap
        (Text.splitFirst? '=') = b.options := by
  by_cases hnone : b.options = []
  · -- nothing joined is the empty text, which is one empty piece
    rw [hnone]
    rfl
  · have hcomma : ∀ piece ∈ b.options.map (fun (key, value) => key ++ '=' :: value),
        ',' ∉ piece := by
      intro piece hpiece
      obtain ⟨o, ho, rfl⟩ := List.mem_map.mp hpiece
      simp [(h.key o ho).1, h.value o ho]
    rw [Text.pieces_joined hcomma (by simpa using hnone), List.filterMap_map]
    conv => rhs; rw [← List.filterMap_some (l := b.options)]
    apply List.filterMap_congr
    intro o ho
    exact Text.splitFirst?_append (h.key o ho).2

theorem parse_render_iff {b : BackendText} : parse b.render = b ↔ b.Separable := by
  constructor
  · intro h
    rw [← h]
    exact separable_parse b.render
  · intro h
    rw [render, parse_of_colon h.name, h.options_eq]

theorem parse_render_parse (text : List Char) : parse (parse text).render = parse text :=
  parse_render_iff.mpr (separable_parse text)

/-- Backend texts go round: what is put together from separable parts, and
nothing else, comes apart to them; a text that was taken apart and put together
comes apart the same way; and a text comes apart to what it says. -/
theorem texts_go_round :
    (∀ b : BackendText, parse b.render = b ↔ b.Separable) ∧
    (∀ text, parse (parse text).render = parse text) ∧
    ∀ text b, parse text = b ↔ Says text b :=
  ⟨fun _ => parse_render_iff, parse_render_parse, fun _ _ => parse_eq_iff⟩

/-- A piece without an equals sign is passed over, and a value may hold colons
and equals signs. -/
example : parse "window:base=0x10,,quiet,note=a=b:c".toList =
    ⟨"window".toList, [("base".toList, "0x10".toList), ("note".toList, "a=b:c".toList)]⟩ := by
  decide

end NorFlash.BackendText
