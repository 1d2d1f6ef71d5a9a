import NorFlash.Numeral
import Mathlib.Tactic.IntervalCases

/-!
# Numerals — which texts are numbers

`Spells text n` is the notation of numbers without a reader: digits weighted
by their place, an optional plus sign ahead of them, and a mark that chooses
radix 16. Reading accepts exactly the texts that spell a number of 64 bits, and
answers the number they spell. What is written in either notation spells the
number that was written, so it is read back.
-/

namespace NorFlash.Numeral

/-- The character is the digit `d`, a letter in either case. -/
def IsDigit (radix : Nat) (c : Char) (d : Nat) : Prop :=
  d < radix ∧ (c = Nat.digitChar d ∨ c = (Nat.digitChar d).toUpper)

/-- The text is digits only, and the number is the sum of them, each with the
weight of its place. -/
inductive Digits (radix : Nat) : List Char → Nat → Prop
  | nil : Digits radix [] 0
  | cons {c : Char} {d n : Nat} {rest : List Char} (hdigit : IsDigit radix c d)
      (hrest : Digits radix rest n) : Digits radix (c :: rest) (d * radix ^ rest.length + n)

/-- One or more digits, with or without a plus sign. -/
inductive Signed (radix : Nat) : List Char → Nat → Prop
  | plain {text : List Char} {n : Nat} (hsome : text ≠ []) (hdigits : Digits radix text n) :
      Signed radix text n
  | plus {text : List Char} {n : Nat} (hsome : text ≠ []) (hdigits : Digits radix text n) :
      Signed radix ('+' :: text) n

/-- The text starts with the mark of a hexadecimal number. -/
def Marked (text : List Char) : Prop :=
  ∃ x rest, (x = 'x' ∨ x = 'X') ∧ text = '0' :: x :: rest

/-- The text is a number in one of the two notations. -/
inductive Spells : List Char → Nat → Prop
  | hexadecimal {x : Char} {rest : List Char} {n : Nat} (hmark : x = 'x' ∨ x = 'X')
      (hsigned : Signed 16 rest n) : Spells ('0' :: x :: rest) n
  | decimal {text : List Char} {n : Nat} (hmark : ¬ Marked text) (hsigned : Signed 10 text n) :
      Spells text n

/-! ## Digits -/

theorem toNat_digitChar {d : Nat} (h : d < 16) :
    (Nat.digitChar d).toNat = if d < 10 then d + 48 else d + 87 := by
  interval_cases d <;> rfl

theorem toNat_toUpper_digitChar {d : Nat} (h : d < 16) :
    (Nat.digitChar d).toUpper.toNat = if d < 10 then d + 48 else d + 55 := by
  interval_cases d <;> rfl

section Radix

-- there are letters for the digits up to 15 only
variable {radix : Nat} (hradix : radix ≤ 16)
include hradix

/-- A digit by its code point. -/
theorem isDigit_iff_toNat {c : Char} {d : Nat} : IsDigit radix c d ↔
    d < radix ∧ (d < 10 ∧ c.toNat = d + 48 ∨ 10 ≤ d ∧ (c.toNat = d + 87 ∨ c.toNat = d + 55)) := by
  unfold IsDigit
  by_cases hd : d < radix
  · have hd16 : d < 16 := Nat.lt_of_lt_of_le hd hradix
    rw [← Char.toNat_inj, ← Char.toNat_inj, toNat_digitChar hd16, toNat_toUpper_digitChar hd16]
    split_ifs <;> omega
  · simp [hd]

theorem digit?_eq_some_iff {c : Char} {d : Nat} :
    digit? radix c = some d ↔ IsDigit radix c d := by
  rw [isDigit_iff_toNat hradix]
  simp only [digit?, Char.le_def, UInt32.le_iff_toNat_le, Option.ite_none_right_eq_some,
    Option.some_inj]
  simp only [Char.toNat, Char.reduceVal, UInt32.reduceToNat]
  split_ifs <;> omega

/-- A character is at most one digit. -/
theorem IsDigit.unique {c : Char} {d d' : Nat} (h : IsDigit radix c d)
    (h' : IsDigit radix c d') : d = d' := by
  rw [← digit?_eq_some_iff hradix] at h h'
  exact Option.some_inj.mp (h.symm.trans h')

theorem not_digits_of_head {c : Char} {rest : List Char} {n : Nat} (h : digit? radix c = none) :
    ¬ Digits radix (c :: rest) n := by
  intro hdigits
  cases hdigits with
  | cons hdigit _ =>
    rw [(digit?_eq_some_iff hradix).mpr hdigit] at h
    cases h

theorem digits_cons_iff {c : Char} {d v : Nat} {rest : List Char} (h : IsDigit radix c d) :
    Digits radix (c :: rest) v ↔ ∃ n, Digits radix rest n ∧ v = d * radix ^ rest.length + n := by
  constructor
  · intro hdigits
    cases hdigits with
    | cons hdigit hrest =>
      cases hdigit.unique hradix h
      exact ⟨_, hrest, rfl⟩
  · rintro ⟨n, hrest, rfl⟩
    exact .cons h hrest

/-- Digits behind a value extend it: the value moves to the places ahead of
them. The value only grows on the way, so it fits at the end exactly if it fits
after each digit. -/
theorem readDigits_eq_ok_iff (hpos : 0 < radix) {value n : Nat} {text : List Char}
    (hvalue : value < wordLimit) : readDigits radix value text = .ok n ↔
      n < wordLimit ∧ ∃ v, Digits radix text v ∧ n = value * radix ^ text.length + v := by
  induction text generalizing value with
  | nil =>
    simp only [readDigits, Except.ok.injEq]
    constructor
    · rintro rfl
      exact ⟨hvalue, 0, .nil, by simp⟩
    · rintro ⟨-, v, hdigits, rfl⟩
      cases hdigits
      simp
  | cons c rest ih =>
    unfold readDigits
    cases hc : digit? radix c with
    | none =>
      simp only [reduceCtorEq, false_iff]
      rintro ⟨-, v, hdigits, -⟩
      exact not_digits_of_head hradix hc hdigits
    | some d =>
      -- the first digit goes from the text to the value without a change of weight
      have hmove : (∃ v, Digits radix (c :: rest) v ∧ n = value * radix ^ (c :: rest).length + v) ↔
          ∃ v, Digits radix rest v ∧ n = (value * radix + d) * radix ^ rest.length + v := by
        have hweight : value * radix ^ (c :: rest).length + d * radix ^ rest.length =
            (value * radix + d) * radix ^ rest.length := by
          rw [List.length_cons, Nat.pow_succ', Nat.add_mul, Nat.mul_assoc]
        simp only [digits_cons_iff hradix ((digit?_eq_some_iff hradix).mp hc), ← hweight,
          Nat.add_assoc]
        simp
      rw [hmove]
      dsimp only
      by_cases hfits : value * radix + d < wordLimit
      · rw [if_pos hfits, ih hfits]
      · rw [if_neg hfits]
        simp only [reduceCtorEq, false_iff]
        rintro ⟨hn, v, -, rfl⟩
        have hgrown : value * radix + d ≤ (value * radix + d) * radix ^ rest.length :=
          Nat.le_mul_of_pos_right _ (Nat.pow_pos hpos)
        omega

theorem readDigits_zero_eq_ok_iff (hpos : 0 < radix) {n : Nat} {text : List Char} :
    readDigits radix 0 text = .ok n ↔ n < wordLimit ∧ Digits radix text n := by
  rw [readDigits_eq_ok_iff hradix hpos (by decide)]
  simp

theorem readSigned_eq_ok_iff (hpos : 0 < radix) {n : Nat} {text : List Char} :
    readSigned radix text = .ok n ↔ n < wordLimit ∧ Signed radix text n := by
  have hplus : digit? radix '+' = none := by simp [digit?]
  unfold readSigned
  split
  · simp only [reduceCtorEq, false_iff]
    rintro ⟨-, hsigned⟩
    cases hsigned with
    | plain hsome _ => exact hsome rfl
  · simp only [reduceCtorEq, false_iff]
    rintro ⟨-, hsigned⟩
    cases hsigned with
    | plain _ hdigits => exact not_digits_of_head hradix hplus hdigits
    | plus hsome _ => exact hsome rfl
  · rename_i rest hsome
    rw [readDigits_zero_eq_ok_iff hradix hpos]
    refine and_congr_right fun _ => ⟨fun hdigits => .plus (by simpa using hsome) hdigits, ?_⟩
    intro hsigned
    cases hsigned with
    | plain _ hdigits => exact absurd hdigits (not_digits_of_head hradix hplus)
    | plus _ hdigits => exact hdigits
  · rename_i hsome _ hunsigned
    rw [readDigits_zero_eq_ok_iff hradix hpos]
    refine and_congr_right fun _ => ⟨fun hdigits => .plain hsome hdigits, ?_⟩
    intro hsigned
    cases hsigned with
    | plain _ hdigits => exact hdigits
    | plus _ _ => exact absurd rfl (hunsigned _)

end Radix

/-! ## The two notations -/

theorem mapError_eq_ok_iff {f : Fault → Refusal} {r : Except Fault Nat} {n : Nat} :
    r.mapError f = .ok n ↔ r = .ok n := by
  cases r <;> simp [Except.mapError]

/-- A marked text is hexadecimal or nothing. -/
theorem spells_marked_iff {x : Char} {rest : List Char} {n : Nat} (hmark : x = 'x' ∨ x = 'X') :
    Spells ('0' :: x :: rest) n ↔ Signed 16 rest n := by
  constructor
  · intro h
    cases h with
    | hexadecimal _ hsigned => exact hsigned
    | decimal hunmarked _ => exact absurd ⟨x, rest, hmark, rfl⟩ hunmarked
  · exact .hexadecimal hmark

/-- Any other text is decimal or nothing. -/
theorem spells_unmarked_iff {text : List Char} {n : Nat} (hmark : ¬ Marked text) :
    Spells text n ↔ Signed 10 text n := by
  constructor
  · intro h
    cases h with
    | hexadecimal hx _ => exact absurd ⟨_, _, hx, rfl⟩ hmark
    | decimal _ hsigned => exact hsigned
  · exact .decimal hmark

theorem readChars_eq_ok_iff {text : List Char} {n : Nat} :
    readChars text = .ok n ↔ n < wordLimit ∧ Spells text n := by
  unfold readChars
  split
  · rw [mapError_eq_ok_iff, readSigned_eq_ok_iff (by decide) (by decide),
      spells_marked_iff (.inl rfl)]
  · rw [mapError_eq_ok_iff, readSigned_eq_ok_iff (by decide) (by decide),
      spells_marked_iff (.inr rfl)]
  · rename_i hlower hupper
    have hmark : ¬ Marked text := by
      rintro ⟨x, rest, rfl | rfl, h⟩
      · exact hlower rest h
      · exact hupper rest h
    rw [mapError_eq_ok_iff, readSigned_eq_ok_iff (by decide) (by decide),
      spells_unmarked_iff hmark]

/-! ## Written numbers -/

/-- A digit behind the others moves each of them up by one place. -/
theorem Digits.snoc {radix n d : Nat} {text : List Char} {c : Char} (h : Digits radix text n)
    (hdigit : IsDigit radix c d) : Digits radix (text ++ [c]) (n * radix + d) := by
  induction h with
  | nil => simpa using Digits.cons hdigit .nil
  | cons hfirst _ ih =>
    have hdigits := Digits.cons hfirst ih
    rw [List.length_append, List.length_singleton, Nat.pow_succ, ← Nat.mul_assoc,
      ← Nat.add_assoc, ← Nat.add_mul] at hdigits
    exact hdigits

theorem digits_toDigits {radix : Nat} (h : 1 < radix) (n : Nat) :
    Digits radix (Nat.toDigits radix n) n := by
  induction n using Nat.strong_induction_on with
  | _ n ih =>
    by_cases hn : n < radix
    · rw [Nat.toDigits_of_lt_base hn]
      simpa using Digits.cons ⟨hn, .inl rfl⟩ .nil
    · have hle : radix ≤ n := Nat.not_lt.mp hn
      have hless : n / radix < n := Nat.div_lt_self (by omega) h
      have hlast : IsDigit radix (Nat.digitChar (n % radix)) (n % radix) :=
        ⟨Nat.mod_lt n (by omega), .inl rfl⟩
      have hdigits := (ih _ hless).snoc hlast
      rwa [← Nat.toDigits_of_base_le h hle, Nat.div_add_mod'] at hdigits

theorem signed_toDigits {radix : Nat} (h : 1 < radix) (n : Nat) :
    Signed radix (Nat.toDigits radix n) n :=
  .plain Nat.toDigits_ne_nil (digits_toDigits h n)

/-- Behind the zero of the mark stands a letter that is no decimal digit. -/
theorem Digits.not_marked {text : List Char} {n : Nat} (h : Digits 10 text n) :
    ¬ Marked text := by
  rintro ⟨x, rest, hx, rfl⟩
  have hletter : digit? 10 x = none := by
    rcases hx with rfl | rfl <;> decide
  cases h with
  | cons _ hrest => exact not_digits_of_head (by decide) hletter hrest

theorem spells_hexWord (n : Nat) : Spells (hexWord n).toList n := by
  simp only [hexWord, hex, String.toList_append, String.toList_ofList]
  exact .hexadecimal (.inl rfl) (signed_toDigits (by decide) n)

theorem spells_toString (n : Nat) : Spells (toString n).toList n := by
  rw [Nat.toString_eq_ofList_toDigits, String.toList_ofList]
  exact .decimal (digits_toDigits (by decide) n).not_marked (signed_toDigits (by decide) n)

/-- Reading accepts exactly the texts that spell a number of 64 bits, with that
number; a word that was written in hexadecimal or decimal is read back. -/
theorem read_accepts_spelled :
    (∀ (text : String) (n : Nat), read text = .ok n ↔ n < wordLimit ∧ Spells text.toList n) ∧
    ∀ n : UInt64, read (hexWord n.toNat) = .ok n.toNat ∧ read (toString n) = .ok n.toNat := by
  refine ⟨fun _ _ => readChars_eq_ok_iff, fun n => ⟨?_, ?_⟩⟩
  · exact readChars_eq_ok_iff.mpr ⟨n.toNat_lt, spells_hexWord n.toNat⟩
  · exact readChars_eq_ok_iff.mpr ⟨n.toNat_lt, spells_toString n.toNat⟩

/-- Leading zeros are no overflow, and the first number past the largest word is. -/
example : read "0X+0000000000000000000fF" = .ok 255 ∧
    read "18446744073709551616" = .error (.decimal .tooLarge) := by
  decide +kernel

end NorFlash.Numeral
