/-
# Double precision numbers as bits

A float constant is the 64 bits of a double: two constants are the same when
the bits are, so the two zeros differ and a NaN equals itself. Arithmetic on
the value is exact, on a natural mantissa and a power of two.

Key definitions: `Binary64`, `Binary64.ofBits`, `Binary64.nearest`,
`Binary64.infinity`, `Binary64.quietNan`, `Binary64.negate`.
-/

namespace Wordcode

/-- What the bits of a double say. -/
inductive Binary64 where
  | nan
  | infinite (negative : Bool)
  /-- The number `mantissa * 2 ^ exponent`, with its sign. -/
  | finite (negative : Bool) (mantissa : Nat) (exponent : Int)
deriving DecidableEq

namespace Binary64

/-- The sign bit. -/
def isNegative (bits : UInt64) : Bool := bits.toNat.testBit 63

/-- The bit above the 52 bits of fraction, which is set but not stored in all but
the smallest numbers. -/
def leadingBit : Nat := 1 <<< 52

/-- The reading of 64 bits: a sign, eleven bits of exponent and 52 bits of
fraction. -/
def ofBits (bits : UInt64) : Binary64 :=
  let negative := isNegative bits
  let biased : Nat := bits.toNat / leadingBit % 2048
  let fraction : Nat := bits.toNat % leadingBit
  if biased = 2047 then if fraction = 0 then .infinite negative else .nan
  else if biased = 0 then .finite negative fraction (-1074)
  else .finite negative (leadingBit + fraction) (biased - 1075)

/-- The bits of positive infinity. -/
def infinity : UInt64 := 0x7ff0000000000000

/-- The bits of the NaN that a program writes. -/
def quietNan : UInt64 := 0x7ff8000000000000

/-- The same number with the other sign. -/
def negate (bits : UInt64) : UInt64 := bits ^^^ 0x8000000000000000

/-- The quotient rounded to the nearest natural number, a half to the even
one. -/
def roundHalfEven (num den : Nat) : Nat :=
  let low := num / den
  let twice := 2 * (num % den)
  if twice < den then low
  else if den < twice then low + 1
  else low + low % 2

/-- Numerator and denominator of `num / (den * 2 ^ q)`. -/
def scale (num den : Nat) (q : Int) : Nat × Nat :=
  (num <<< (-q).toNat, den <<< q.toNat)

/-- The exponent for which the mantissa of `num / den` has 53 bits, or the
least exponent there is. -/
def exponentOf (num den : Nat) : Int :=
  let low : Int := (num.log2 : Int) - (den.log2 : Int) - 53
  let (n, d) := scale num den low
  max (-1074) (if 2 * leadingBit ≤ n / d then low + 1 else low)

/-- The bits of the double nearest to the quotient of two positive numbers, a
tie to the even mantissa. What rounds to `2 ^ 1024` or more is infinite. -/
def nearest (num den : Nat) : UInt64 :=
  let q := exponentOf num den
  let (n, d) := scale num den q
  let mantissa := roundHalfEven n d
  let bits := if mantissa < leadingBit then mantissa
    else (q + 1075).toNat * leadingBit + (mantissa - leadingBit)
  if 2047 * leadingBit ≤ bits then infinity else bits.toUInt64

end Binary64

end Wordcode
