/-
# How constants are shown

Each constant is shown as the interpreter would show it, except that texts are
always between double quotes (`Text.quote`). A code object is shown by its
name alone.

Key definitions: `Constant.text`.
-/
import Wordcode.Constant
import Wordcode.Decimal.Shortest
import Wordcode.Text.Quoted

namespace Wordcode

namespace Constant

/-- How floats that are not finite are shown. -/
def spelling : Decimal.Spelling := ⟨"nan", "inf"⟩

/-- Both parts of a complex number in parentheses, the imaginary part with its
sign. -/
def complexText (real imag : UInt64) : String :=
  let sign := if Binary64.isNegative imag then "-" else "+"
  let size := if Binary64.isNegative imag then Binary64.negate imag else imag
  "(" ++ Decimal.floatText spelling real ++ sign ++ Decimal.floatText spelling size ++ "j)"

mutual
/-- The text of a constant, given the names of the code objects. -/
def text (codeName : Nat → String) : Constant → String
  | .none => "None"
  | .ellipsis => "Ellipsis"
  | .bool b => if b then "True" else "False"
  | .int i => toString i
  | .float bits => Decimal.floatText spelling bits
  | .complex real imag => complexText real imag
  | .str s => Text.quote s
  | .bytes bs => Text.quoteBytes bs
  | .tuple items =>
    "(" ++ ", ".intercalate (texts codeName items) ++ (if items.length = 1 then ",)" else ")")
  | .frozenset items => "frozenset(\x7b" ++ ", ".intercalate (texts codeName items) ++ "\x7d)"
  | .code k => "<code object " ++ codeName k ++ ">"

/-- The texts of the constants of a list. -/
def texts (codeName : Nat → String) : List Constant → List String
  | [] => []
  | c :: cs => text codeName c :: texts codeName cs
end

end Constant

end Wordcode
