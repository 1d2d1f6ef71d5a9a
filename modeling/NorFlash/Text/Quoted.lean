import NorFlash.Numeral
import NorFlash.Text.Invisible

/-!
# Quoted — text as it is shown in quotes

The double quote and the backslash are written behind a backslash, the usual
controls by their letters, and every other character that does not show by its
code point in braces. A single quote stands as it is.
-/

namespace NorFlash.Text.Quoted

/-- A character as it stands between quotes. -/
def encodeChar (c : Char) : String :=
  if c = '\x00' then "\\0"
  else if c = '\t' then "\\t"
  else if c = '\r' then "\\r"
  else if c = '\n' then "\\n"
  else if c = '"' then "\\\""
  else if c = '\\' then "\\\\"
  else if isInvisible c then "\\u\x7b" ++ Numeral.hex c.toNat ++ "\x7d"
  else String.singleton c

/-- A text in quotes. -/
def encode (text : String) : String :=
  "\"" ++ String.join (text.toList.map encodeChar) ++ "\""

end NorFlash.Text.Quoted
