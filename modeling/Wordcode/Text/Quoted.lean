/-
# Text between quotes

A text is shown between double quotes. The quote and the backslash get a
backslash, four control characters have short escapes, and every other
character that is not printed as it is becomes its code point in hexadecimal
between braces. Bytes are shown between single quotes after a `b`, with two
hexadecimal digits for each byte that is not visible ASCII.

Key definitions: `Text.quote`, `Text.quoteBytes`, `Text.hexByte`.
-/
import Wordcode.Text.Printable

namespace Wordcode

namespace Text

/-- The lower case hexadecimal digits of a number, without padding. -/
def hex (n : Nat) : String := String.ofList (Nat.toDigits 16 n)

/-- The two lower case hexadecimal digits of a byte. -/
def hexByte (b : UInt8) : String :=
  String.ofList [Nat.digitChar (b.toNat / 16), Nat.digitChar (b.toNat % 16)]

/-- A character inside quotes. -/
def escape (c : Char) : String :=
  if c = '"' then "\\\""
  else if c = '\\' then "\\\\"
  else if c = '\t' then "\\t"
  else if c = '\r' then "\\r"
  else if c = '\n' then "\\n"
  else if c.toNat = 0 then "\\0"
  else if isPrintable c then c.toString
  else "\\u\x7b" ++ hex c.toNat ++ "\x7d"

/-- A text between double quotes. -/
def quote (s : String) : String := "\"" ++ String.join (s.toList.map escape) ++ "\""

/-- A byte inside quotes. -/
def escapeByte (b : UInt8) : String :=
  if b = 0x27 then "\\'"
  else if b = 0x5c then "\\\\"
  else if 0x20 ≤ b ∧ b ≤ 0x7e then (Char.ofNat b.toNat).toString
  else "\\x" ++ hexByte b

/-- Bytes between single quotes. -/
def quoteBytes (bs : List UInt8) : String := "b'" ++ String.join (bs.map escapeByte) ++ "'"

end Text

end Wordcode
