/-
# The shortest decimal that reads back

A double stands for all reals that round to it: the interval reaches half way
to its neighbours, ends included when its mantissa is even. The shortest
decimal is found by trying one significant digit, then two, and so on up to
seventeen: on each grid of decimals only the value's two neighbours matter,
because if any point of the grid lies in the interval then one of these does.
Of two neighbours in the interval the nearer one is taken, and the upper one
in a tie.

Key definitions: `Decimal`, `Decimal.shortest`, `Decimal.text`,
`Decimal.floatText`.
-/
import Wordcode.Decimal.Binary64

namespace Wordcode

/-- The number `digits * 10 ^ exponent`. -/
structure Decimal where
  digits : Nat
  exponent : Int
deriving DecidableEq, Inhabited

namespace Decimal

/-- How many decimal digits a number has. -/
def width (n : Nat) : Nat := (Nat.toDigits 10 n).length

/-- The exponent of the leading digit of `num / den`, two positive numbers. -/
def magnitude (num den : Nat) : Int :=
  if den ≤ num then (width (num / den) : Int) - 1
  else -(width ((den + num - 1) / num - 1) : Int)

/-- A value with the ends of the interval of reals that round to it, as
numerators over one denominator. -/
structure Interval where
  low : Nat
  value : Nat
  high : Nat
  den : Nat
  /-- Do the ends belong to it? -/
  closed : Bool

/-- The reals that round to `mantissa * 2 ^ exponent`. Below a power of two the
neighbour is only half as far. -/
def Interval.ofBinary (mantissa : Nat) (exponent : Int) : Interval :=
  let unit := 1 <<< (exponent - 2).toNat
  let below := if mantissa = Binary64.leadingBit ∧ -1074 < exponent then 1 else 2
  { low := (4 * mantissa - below) * unit
    value := 4 * mantissa * unit
    high := (4 * mantissa + 2) * unit
    den := 1 <<< (2 - exponent).toNat
    closed := mantissa % 2 = 0 }

/-- The interval in units of `10 ^ p`. -/
def Interval.rescale (i : Interval) (p : Int) : Interval :=
  let up := Nat.pow 10 (-p).toNat
  { i with
    low := i.low * up
    value := i.value * up
    high := i.high * up
    den := i.den * Nat.pow 10 p.toNat }

/-- The whole number in the interval that lies nearest to its value, if there
is one; the upper of two in a tie. -/
def Interval.whole? (i : Interval) : Option Nat :=
  let floor := i.value / i.den
  let below := floor * i.den
  let above := (floor + 1) * i.den
  let belowIn := if i.closed then i.low ≤ below else i.low < below
  let aboveIn := if i.closed then above ≤ i.high else above < i.high
  if belowIn ∧ (¬ aboveIn ∨ i.value - below < above - i.value) then some floor
  else if aboveIn then some (floor + 1)
  else none

/-- The first hit among the grids of `tried + 1`, `tried + 2`, … significant
digits, `left` grids in all. -/
def search (i : Interval) (lead : Int) (tried : Nat) : (left : Nat) → Decimal
  | 0 => ⟨i.value / i.den, 0⟩
  | left + 1 =>
    let p := lead - tried
    match (i.rescale p).whole? with
    | some digits => ⟨digits, p⟩
    | none => search i lead (tried + 1) left

/-- The same number without trailing zeros among its digits. -/
def trim (digits : Nat) (exponent : Int) : (fuel : Nat) → Decimal
  | 0 => ⟨digits, exponent⟩
  | fuel + 1 =>
    if digits ≠ 0 ∧ digits % 10 = 0 then trim (digits / 10) (exponent + 1) fuel
    else ⟨digits, exponent⟩

/-- The shortest decimal that rounds to the double `mantissa * 2 ^ exponent`. -/
def shortest (mantissa : Nat) (exponent : Int) : Decimal :=
  if mantissa = 0 then ⟨0, 0⟩
  else
    let i := Interval.ofBinary mantissa exponent
    let found := search i (magnitude i.value i.den) 0 17
    trim found.digits found.exponent 17

/-- A decimal as text: with a point when the leading digit stands at `10 ^ -4`
to `10 ^ 15`, with an exponent otherwise. There is always a digit on either
side of a point, and a whole number is written with one. -/
def text (d : Decimal) : String :=
  let ds := Nat.toDigits 10 d.digits
  let lead : Int := (ds.length : Int) - 1 + d.exponent
  if d.digits = 0 then "0.0"
  else if -4 ≤ lead ∧ lead < 16 then
    if lead < 0 then "0." ++ String.ofList (List.replicate (-lead - 1).toNat '0' ++ ds)
    else
      let whole := lead.toNat + 1
      let padded := ds ++ List.replicate (whole - ds.length) '0'
      let fraction := padded.drop whole
      String.ofList (padded.take whole) ++ "." ++
        (if fraction.isEmpty then "0" else String.ofList fraction)
  else
    String.ofList (ds.take 1) ++ (if ds.length = 1 then "" else "." ++ String.ofList (ds.drop 1)) ++
      "e" ++ toString lead

/-- How the numbers that are not finite are spelled. -/
structure Spelling where
  nan : String
  infinity : String

/-- The text of a double. -/
def floatText (spelling : Spelling) (bits : UInt64) : String :=
  match Binary64.ofBits bits with
  | .nan => spelling.nan
  | .infinite negative => (if negative then "-" else "") ++ spelling.infinity
  | .finite negative m q => (if negative then "-" else "") ++ (shortest m q).text

end Decimal

end Wordcode
