/-
# Reading a constant

A constant is read from the text a user writes for it. The keywords come
first, then whole numbers that fit 64 bits, then floats, then texts and bytes
between quotes, taken literally; anything else but a blank text is a text of
its own. White space around it does not count.

Key definitions: `Constant.read?`.
-/
import Wordcode.Constant
import Wordcode.Decimal.Reading
import Wordcode.Text.Blank

namespace Wordcode

namespace Constant

/-- What stands between two equal quotes. -/
def unquote? (cs : List Char) : Option String :=
  match cs with
  | q :: rest =>
    if (q = '\'' ∨ q = '"') ∧ rest.getLast? = some q then some (String.ofList rest.dropLast)
    else Option.none
  | [] => Option.none

/-- What stands between two equal quotes after a `b`, as bytes. -/
def unquoteBytes? (cs : List Char) : Option (List UInt8) :=
  match cs with
  | 'b' :: rest => (unquote? rest).map fun s => s.toUTF8.toList
  | _ => Option.none

/-- Reads a constant; only a blank text is none. -/
def read? (input : String) : Option Constant :=
  let text := Text.strip input
  if text = "None" then some .none
  else if text = "Ellipsis" ∨ text = "..." then some .ellipsis
  else if text = "True" then some (.bool true)
  else if text = "False" then some (.bool false)
  else match Decimal.readInt? text with
    | some i => some (.int i)
    | Option.none => match Decimal.readFloat? text with
      | some bits => some (.float bits)
      | Option.none => match unquote? text.toList with
        | some s => some (.str s)
        | Option.none => match unquoteBytes? text.toList with
          | some bs => some (.bytes bs)
          | Option.none => if text.isEmpty then Option.none else some (.str text)

end Constant

end Wordcode
