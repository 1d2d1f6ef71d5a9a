import NorFlash.Word

/-!
# Numeral — unsigned numbers as text

Numbers are shown in decimal or in lower-case hexadecimal. They are read
with an optional leading `+`; a text that starts with `0x` or `0X` is
hexadecimal, any other is decimal. A number has to fit 64 bits.
-/

namespace NorFlash.Numeral

/-! ## Writing -/

/-- Lower-case hexadecimal digits without leading zeros. -/
def hex (n : Nat) : String :=
  String.ofList (Nat.toDigits 16 n)

/-- `0x` and the hexadecimal digits. -/
def hexWord (n : Nat) : String :=
  "0x" ++ hex n

/-- Two hexadecimal digits of a byte. -/
def byteDigits (b : UInt8) : String :=
  if b < 16 then "0" ++ hex b.toNat else hex b.toNat

/-- `0x` and the two digits of a byte. -/
def hexByte (b : UInt8) : String :=
  "0x" ++ byteDigits b

/-! ## Reading -/

/-- Why a run of digits is no number. -/
inductive Fault where
  | empty
  | invalidDigit
  | tooLarge
  deriving DecidableEq, Repr

/-- The wording of a fault. -/
def Fault.message : Fault → String
  | .empty => "cannot parse integer from empty string"
  | .invalidDigit => "invalid digit found in string"
  | .tooLarge => "number too large to fit in target type"

/-- The value of a digit of the given radix, letters in either case. -/
def digit? (radix : Nat) (c : Char) : Option Nat :=
  let value :=
    if '0' ≤ c ∧ c ≤ '9' then c.toNat - '0'.toNat
    else if 'a' ≤ c ∧ c ≤ 'z' then c.toNat - 'a'.toNat + 10
    else if 'A' ≤ c ∧ c ≤ 'Z' then c.toNat - 'A'.toNat + 10
    else radix
  if value < radix then some value else none

/-- Extend `value` by the digits that follow, from left to right. A
character that is no digit is found before the overflow it would cause. -/
def readDigits (radix : Nat) : Nat → List Char → Except Fault Nat
  | value, [] => .ok value
  | value, c :: rest =>
    match digit? radix c with
    | none => .error .invalidDigit
    | some d =>
      if value * radix + d < wordLimit then
        readDigits radix (value * radix + d) rest
      else
        .error .tooLarge

/-- Read digits behind an optional `+`. -/
def readSigned (radix : Nat) : List Char → Except Fault Nat
  | [] => .error .empty
  | ['+'] => .error .invalidDigit
  | '+' :: rest => readDigits radix 0 rest
  | text => readDigits radix 0 text

/-- Why a text is no number, with the notation it was read in. -/
inductive Refusal where
  | hexadecimal (fault : Fault)
  | decimal (fault : Fault)
  deriving DecidableEq, Repr

/-- The wording of a refusal. -/
def Refusal.message : Refusal → String
  | .hexadecimal fault => "Invalid hex value: " ++ fault.message
  | .decimal fault => "Invalid number: " ++ fault.message

/-- Read a number in the notation its first two characters choose. -/
def readChars : List Char → Except Refusal Nat
  | '0' :: 'x' :: rest => (readSigned 16 rest).mapError .hexadecimal
  | '0' :: 'X' :: rest => (readSigned 16 rest).mapError .hexadecimal
  | text => (readSigned 10 text).mapError .decimal

/-- Read a number from a text. -/
def read (text : String) : Except Refusal Nat :=
  readChars text.toList

end NorFlash.Numeral
