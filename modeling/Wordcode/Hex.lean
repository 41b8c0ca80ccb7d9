/-
# Bytes written in hexadecimal

A user may put ASCII white space and underscores between the digits. The
digits are then taken two by two; a pair may also be a plus sign and one
digit.

Key definitions: `Hex.encode`, `Hex.decode`.
-/
import Wordcode.Text.Quoted

namespace Wordcode

namespace Hex

/-- Two lower case digits for each byte. -/
def encode (bytes : List UInt8) : String := String.join (bytes.map Text.hexByte)

/-- Why a text is not read as bytes. -/
inductive DecodeError where
  | oddLength (text : String)
  | invalid (text : String)
deriving DecidableEq

def DecodeError.message : DecodeError → String
  | .oddLength text => "odd number of hex digits in '" ++ text ++ "'"
  | .invalid text => "invalid hex '" ++ text ++ "'"

/-- Does the byte only separate digits? -/
def isSeparator (b : UInt8) : Bool :=
  b == 0x20 || b == 0x09 || b == 0x0a || b == 0x0c || b == 0x0d || b == 0x5f

/-- The value of a hexadecimal digit. -/
def digit? (b : UInt8) : Option UInt8 :=
  if 0x30 ≤ b ∧ b ≤ 0x39 then some (b - 0x30)
  else if 0x41 ≤ b ∧ b ≤ 0x46 then some (b - 0x41 + 10)
  else if 0x61 ≤ b ∧ b ≤ 0x66 then some (b - 0x61 + 10)
  else none

/-- The value of a pair of characters. -/
def pair? (a b : UInt8) : Option UInt8 :=
  if a = 0x2b then digit? b
  else match digit? a, digit? b with
    | some high, some low => some (high * 16 + low)
    | _, _ => none

/-- The values of the pairs, none if one of them is not hexadecimal. -/
def pairs? : List UInt8 → Option (List UInt8)
  | [] => some []
  | [_] => none
  | a :: b :: rest => match pair? a b with
    | some value => (pairs? rest).map (value :: ·)
    | none => none

/-- The bytes a text denotes. -/
def decode (text : String) : Except DecodeError (List UInt8) :=
  let digits := text.toUTF8.toList.filter (!isSeparator ·)
  if digits.length % 2 ≠ 0 then .error (.oddLength text)
  else match pairs? digits with
    | some bytes => .ok bytes
    | none => .error (.invalid text)

end Hex

end Wordcode
