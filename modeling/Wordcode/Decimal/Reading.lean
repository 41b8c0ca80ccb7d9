/-
# Reading numbers

Whole numbers are an optional sign and decimal digits, and must fit 64 bits.
Floats have an optional sign and then `inf`, `infinity` or `nan` in any case,
or digits with at most one point and at least one digit, followed by an
optional exponent; they are rounded to the nearest double.

Key definitions: `Decimal.readInt?`, `Decimal.readFloat?`.
-/
import Wordcode.Decimal.Shortest

namespace Wordcode

namespace Decimal

/-- The number that decimal digits denote. -/
def ofDigits (cs : List Char) : Nat :=
  cs.foldl (fun n c => n * 10 + (c.toNat - '0'.toNat)) 0

/-- A sign, if there is one, and what follows it. -/
def takeSign : List Char → Bool × List Char
  | '-' :: rest => (true, rest)
  | '+' :: rest => (false, rest)
  | cs => (false, cs)

/-- Reads a whole number that fits 64 bits. -/
def readInt? (text : String) : Option Int :=
  let (negative, ds) := takeSign text.toList
  if ds.isEmpty || !ds.all Char.isDigit then none
  else
    let n : Int := if negative then -(ofDigits ds : Int) else ofDigits ds
    if Int64.minValue.toInt ≤ n ∧ n ≤ Int64.maxValue.toInt then some n else none

/-- Reads digits with at most one point and at least one digit; the rest
follows. -/
def takeMantissa? (cs : List Char) : Option (Decimal × List Char) :=
  let whole := cs.takeWhile Char.isDigit
  let rest := cs.dropWhile Char.isDigit
  match rest with
  | '.' :: more =>
    let fraction := more.takeWhile Char.isDigit
    if whole.isEmpty && fraction.isEmpty then none
    else some (⟨ofDigits (whole ++ fraction), -(fraction.length : Int)⟩, more.dropWhile Char.isDigit)
  | _ => if whole.isEmpty then none else some (⟨ofDigits whole, 0⟩, rest)

/-- Reads an exponent that takes up all of the text; no text is exponent 0. -/
def exponent? : List Char → Option Int
  | [] => some 0
  | e :: rest =>
    if e = 'e' ∨ e = 'E' then
      let (negative, ds) := takeSign rest
      if ds.isEmpty || !ds.all Char.isDigit then none
      else some (if negative then -(ofDigits ds : Int) else ofDigits ds)
    else none

/-- The double nearest to a decimal. Beyond `10 ^ 310` all are infinite, and
below `10 ^ -330` all are zero. -/
def toBits (d : Decimal) : UInt64 :=
  let lead : Int := (width d.digits : Int) + d.exponent
  if d.digits = 0 ∨ lead < -330 then 0
  else if 310 < lead then Binary64.infinity
  else Binary64.nearest (d.digits * Nat.pow 10 d.exponent.toNat) (Nat.pow 10 (-d.exponent).toNat)

/-- Reads a float without its sign. -/
def readUnsigned? (cs : List Char) : Option UInt64 :=
  match takeMantissa? cs with
  | some (d, rest) => (exponent? rest).map fun e => toBits ⟨d.digits, d.exponent + e⟩
  | none =>
    let word := String.ofList (cs.map Char.toLower)
    if word = "inf" ∨ word = "infinity" then some Binary64.infinity
    else if word = "nan" then some Binary64.quietNan
    else none

/-- Reads a float. -/
def readFloat? (text : String) : Option UInt64 :=
  let (negative, cs) := takeSign text.toList
  (readUnsigned? cs).map fun bits => if negative then Binary64.negate bits else bits

end Decimal

end Wordcode
