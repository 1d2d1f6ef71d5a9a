import NorFlash.Numeral
import NorFlash.Text
import NorFlash.Tuning

/-!
# Document — tuning files

A tuning file is a TOML text of lines `key = value`. Keys name the fields of a
tuning, bare or quoted, each at most once; values are integers or truth
values. Whatever else TOML allows has no place in a tuning and is malformed
here like any other text. Missing fields keep their defaults.
-/

namespace NorFlash.Tuning.Document

/-- A value of a tuning file. -/
inductive Value where
  | integer (n : Int)
  | truth (b : Bool)
  deriving DecidableEq, Repr

/-! ## Characters -/

/-- A blank inside a line. -/
def isBlank (c : Char) : Bool := c == ' ' || c == '\t'

/-- A character of an unquoted key. -/
def isBare (c : Char) : Bool := c.isAlphanum || c == '_' || c == '-'

/-- A character that may stand in a comment or between quotes: no control
except the tab. -/
def isPlain (c : Char) : Bool :=
  c == '\t' || (0x20 ≤ c.toNat && c.toNat != 0x7f)

/-- Drop the blanks at the front. -/
def skipBlanks (text : List Char) : List Char := text.dropWhile isBlank

/-! ## Keys -/

/-- The character with this code, unless it is a surrogate or too large. -/
def charOf? (code : Nat) : Option Char :=
  if code.isValidChar then some (Char.ofNat code) else none

/-- The character that exactly `count` hexadecimal digits name, and the rest. -/
def readCode (count : Nat) (text : List Char) : Option (Char × List Char) := do
  let digits := text.take count
  if digits.length = count then
    let value ← digits.foldlM (fun n c => do return n * 16 + (← Numeral.digit? 16 c)) 0
    return (← charOf? value, text.drop count)
  else
    none

/-- The character behind a backslash, and the rest. -/
def readEscape : List Char → Option (Char × List Char)
  | 'b' :: rest => some ('\x08', rest)
  | 't' :: rest => some ('\t', rest)
  | 'n' :: rest => some ('\n', rest)
  | 'f' :: rest => some ('\x0c', rest)
  | 'r' :: rest => some ('\r', rest)
  | '"' :: rest => some ('"', rest)
  | '\\' :: rest => some ('\\', rest)
  | 'u' :: rest => readCode 4 rest
  | 'U' :: rest => readCode 8 rest
  | _ => none

/-- Read to the closing double quote; `fuel` of the length is enough. -/
def readQuotedOn : (fuel : Nat) → List Char → Option (List Char × List Char)
  | 0, _ => none
  | _, [] => none
  | _ + 1, '"' :: rest => some ([], rest)
  | fuel + 1, '\\' :: rest => do
    let (c, rest) ← readEscape rest
    let (key, rest) ← readQuotedOn fuel rest
    return (c :: key, rest)
  | fuel + 1, c :: rest => do
    if isPlain c then
      let (key, rest) ← readQuotedOn fuel rest
      return (c :: key, rest)
    else
      none

/-- A key at the front of a text, and the rest. -/
def readKey : List Char → Option (List Char × List Char)
  | '"' :: rest => readQuotedOn rest.length rest
  | '\'' :: rest => do
    let (key, rest) ← Text.splitFirst? '\'' rest
    if key.all isPlain then return (key, rest) else none
  | text =>
    let key := text.takeWhile isBare
    if key.isEmpty then none else some (key, text.dropWhile isBare)

/-! ## Values -/

/-- Digits without the single underscores that may stand between them. -/
def ungroup : List Char → Option (List Char)
  | [] => none
  | '_' :: _ => none
  | [c] => some [c]
  | c :: '_' :: rest => (ungroup rest).map (c :: ·)
  | c :: rest => (ungroup rest).map (c :: ·)

/-- The number that grouped digits stand for, up to the size of the least
integer. -/
def readGrouped (radix : Nat) (digits : List Char) : Option Nat := do
  let extend (n : Nat) (c : Char) : Option Nat := do
    let value := n * radix + (← Numeral.digit? radix c)
    if value ≤ signedLimit then some value else none
  (← ungroup digits).foldlM extend 0

/-- A decimal number; a leading zero stands alone. -/
def readDecimal : List Char → Option Nat
  | ['0'] => some 0
  | '0' :: _ => none
  | digits => readGrouped 10 digits

/-- An integer of 64 bits with a sign. -/
def readInteger (token : List Char) : Option Int := do
  let n : Int ← match token with
    | '0' :: 'x' :: digits => (readGrouped 16 digits).map Int.ofNat
    | '0' :: 'o' :: digits => (readGrouped 8 digits).map Int.ofNat
    | '0' :: 'b' :: digits => (readGrouped 2 digits).map Int.ofNat
    | '+' :: digits => (readDecimal digits).map Int.ofNat
    | '-' :: digits => (readDecimal digits).map fun n => -Int.ofNat n
    | digits => (readDecimal digits).map Int.ofNat
  if -(signedLimit : Int) ≤ n ∧ n < signedLimit then some n else none

/-- A value. -/
def readValue (token : List Char) : Option Value :=
  if token = "true".toList then some (.truth true)
  else if token = "false".toList then some (.truth false)
  else (readInteger token).map .integer

/-! ## Lines -/

/-- Nothing but a comment is left, if anything. -/
def endsWell : List Char → Bool
  | [] => true
  | '#' :: comment => comment.all isPlain
  | _ => false

/-- The entry of a line, if it has one; a malformed line gives nothing at
all. -/
def readLine (line : List Char) : Option (Option (List Char × Value)) := do
  let text := skipBlanks line
  if endsWell text then
    return none
  else
    let (key, rest) ← readKey text
    match skipBlanks rest with
    | '=' :: rest =>
      let rest := skipBlanks rest
      let inValue (c : Char) : Bool := !isBlank c && c != '#'
      let value ← readValue (rest.takeWhile inValue)
      if endsWell (skipBlanks (rest.dropWhile inValue)) then
        return some (key, value)
      else
        none
    | _ => none

/-- Lines without their ends; a carriage return counts as part of a line end
only ahead of a line feed. -/
def lines (text : List Char) : List (List Char) :=
  let dropReturn (line : List Char) : List Char :=
    if line.getLast? = some '\r' then line.dropLast else line
  match (Text.pieces '\n' text).reverse with
  | [] => []
  | last :: ended => ended.reverse.map dropReturn ++ [last]

/-- The entries of a text, in order. A byte order mark may stand in front. -/
def entries (text : List Char) : Option (List (List Char × Value)) := do
  let text := match text with
    | '\ufeff' :: rest => rest
    | text => text
  return (← (lines text).mapM readLine).filterMap id

/-! ## Fields -/

/-- A whole number from zero up to below a limit. -/
def bounded (limit : Nat) : Value → Option Nat
  | .integer n => if 0 ≤ n ∧ n < limit then some n.toNat else none
  | .truth _ => none

/-- Set the field that a key names. -/
def setField (t : Tuning) (key : List Char) (value : Value) : Option Tuning := do
  match String.ofList key with
  | "poll_interval_us" =>
    return { t with pollIntervalUs := UInt32.ofNat (← bounded word32Limit value) }
  | "poll_timeout_us" =>
    return { t with pollTimeoutUs := UInt32.ofNat (← bounded word32Limit value) }
  | "read_dummy_len" => return { t with readDummyLen := ← bounded wordLimit value }
  | "write_max_len" => return { t with writeMaxLen := ← bounded wordLimit value }
  | "fifo_filler" => return { t with fifoFiller := UInt8.ofNat (← bounded 256 value) }
  | "soft_reset_on_attach" =>
    match value with
    | .truth b => return { t with softResetOnAttach := b }
    | .integer _ => none
  | _ => none

/-- The tuning that entries describe; no key may come twice. -/
def ofEntries (entries : List (List Char × Value)) : Option Tuning := do
  let t ← entries.foldlM (fun t (key, value) => setField t key value) {}
  if (entries.map (·.1)).Nodup then some t else none

/-- Why a text gives no tuning. -/
inductive Refusal where
  | malformed
  | unusable (defect : Defect)
  deriving DecidableEq, Repr

/-- The wording of a refusal. -/
def Refusal.message : Refusal → String
  | .malformed => "failed to parse tuning file"
  | .unusable defect => defect.message

/-- Read a tuning from a text. -/
def read (text : String) : Except Refusal Tuning :=
  match (entries text.toList).bind ofEntries with
  | none => .error .malformed
  | some t =>
    match t.defect? with
    | some defect => .error (.unusable defect)
    | none => .ok t

end NorFlash.Tuning.Document
