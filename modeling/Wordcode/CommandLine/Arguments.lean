/-
# The arguments of the command line

A command is followed by options and one code stream, in any order. An option
that takes a value has it after an equals sign or as the next argument, which
then must not begin with a minus sign, unless it is one. Pool options may be
given again and take several values between commas; the others may be given
once. After `--` nothing is an option.

Key definitions: `Command`, `Arguments`, `Arguments.read?`.
-/
import Wordcode.Decimal.Reading

namespace Wordcode

/-- What the program is asked to do. -/
inductive Command where
  /-- Show a listing of the code. -/
  | disassemble
  /-- Decode and encode, and compare. -/
  | roundtrip
  /-- Decode, optimise and encode. -/
  | optimise
  /-- Follow a stack value. -/
  | trace
deriving DecidableEq

def Command.ofName? : String → Option Command
  | "disasm" => some .disassemble
  | "roundtrip" => some .roundtrip
  | "optimise" => some .optimise
  | "trace" => some .trace
  | _ => none

/-- How an option may be given. -/
inductive OptionKind where
  /-- Once, with a value. -/
  | once
  /-- Any number of times, with values between commas. -/
  | many
  /-- Once, without a value. -/
  | flag
deriving DecidableEq

/-- The options of a command. -/
def Command.options (c : Command) : List (String × OptionKind) :=
  [("profile", .once), ("consts", .many), ("names", .many), ("varnames", .many),
    ("cellvars", .many), ("freevars", .many), ("lnotab", .once), ("firstlineno", .once)] ++
  if c = .trace then [("offset", .once), ("depth", .once), ("consumers", .flag)] else []

/-- Options with their values, and arguments that are none, in their order. -/
structure Given where
  values : List (String × String) := []
  positional : List String := []

namespace Given

/-- Was the option given? -/
def has (g : Given) (name : String) : Bool := g.values.any (·.1 == name)

/-- Adds an option, unless it was given before and may not be given again. -/
def add? (g : Given) (name : String) (kind : OptionKind) (value : String) : Option Given :=
  if kind ≠ .many ∧ g.has name then none
  else some { g with values := g.values ++ [(name, value)] }

/-- The value of an option that is given at most once. -/
def value? (g : Given) (name : String) : Option String := g.values.lookup name

/-- The values of an option, taken apart at commas. -/
def split (g : Given) (name : String) : List String :=
  (g.values.filter (·.1 == name)).flatMap fun v => v.2.splitOn ","

/-- An option's name, and its value if that follows an equals sign. -/
def splitOption (arg : List Char) : String × Option String :=
  let name := String.ofList (arg.takeWhile (· ≠ '='))
  match arg.dropWhile (· ≠ '=') with
  | _ :: value => (name, some (String.ofList value))
  | [] => (name, none)

/-- Does an argument begin like an option? -/
def isOptionLike (arg : String) : Bool := arg ≠ "-" && arg.toList.head? == some '-'

/-- Sorts the arguments of a command. -/
def collect? (options : List (String × OptionKind)) : List String → Given → Option Given
  | [], g => some g
  | arg :: rest, g =>
    match arg.toList with
    | ['-', '-'] => some { g with positional := g.positional ++ rest }
    | '-' :: '-' :: long =>
      let (name, attached) := splitOption long
      match options.lookup name, attached, rest with
      | some .flag, none, rest => (g.add? name .flag "").bind (collect? options rest)
      | some .flag, some _, _ => none
      | some kind, some value, rest => (g.add? name kind value).bind (collect? options rest)
      | some kind, none, value :: rest' =>
        if isOptionLike value then none else (g.add? name kind value).bind (collect? options rest')
      | _, _, _ => none
    | _ =>
      if isOptionLike arg then none
      else collect? options rest { g with positional := g.positional ++ [arg] }

end Given

/-- What the options of a command say. -/
structure Arguments where
  profile : String
  consts : List String
  names : List String
  varnames : List String
  cellvars : List String
  freevars : List String
  lnotab : Option String
  firstLine : Nat
  /-- The code stream. -/
  code : String
  offset : Nat
  depth : Nat
  consumers : Bool

namespace Arguments

/-- Reads a number up to `largest`. The sign of zero does not matter when `signed`
holds. -/
def number? (largest : Nat) (signed : Bool) (text : String) : Option Nat :=
  let (negative, digits) := Decimal.takeSign text.toList
  if digits.isEmpty || !digits.all Char.isDigit then none
  else
    let n := Decimal.ofDigits digits
    if negative ∧ (!signed ∨ n ≠ 0) then none
    else if n ≤ largest then some n else none

/-- The number that an option gives, or the one it has when it is not given. -/
def numberOption? (g : Given) (name : String) (default largest : Nat) (signed : Bool) : Option Nat :=
  match g.value? name with
  | some text => number? largest signed text
  | none => some default

/-- Reads the arguments of a command; none if they are not as they have to be. -/
def read? (command : Command) (args : List String) : Option Arguments := do
  let g ← Given.collect? command.options args {}
  let code ← match g.positional with
    | [code] => some code
    | _ => none
  let firstLine ← numberOption? g "firstlineno" 1 (UInt32.size - 1) true
  let depth ← numberOption? g "depth" 0 (UInt32.size - 1) true
  let offset ← numberOption? g "offset" 0 (UInt64.size - 1) false
  if command = .trace ∧ !g.has "offset" then none
  return {
    profile := (g.value? "profile").getD "py38"
    consts := g.split "consts"
    names := g.split "names"
    varnames := g.split "varnames"
    cellvars := g.split "cellvars"
    freevars := g.split "freevars"
    lnotab := g.value? "lnotab"
    firstLine, code, offset, depth
    consumers := g.has "consumers" }

end Arguments

end Wordcode
