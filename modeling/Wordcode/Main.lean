/-
# The program

Decodes, edits and encodes the code of a stack machine whose instructions are
two bytes wide. All that it does is `CommandLine.run`; here it is printed.
-/
import Wordcode.CommandLine

namespace Wordcode

/-- Advice for a user whose arguments make no sense. -/
def usage : String :=
  "usage: wordcode disasm|roundtrip|optimise|trace [options] CODE\n" ++
  "options: --profile PROFILE --consts CONST,.. --names NAME,.. --varnames NAME,..\n" ++
  "         --cellvars NAME,.. --freevars NAME,.. --lnotab HEX --firstlineno LINE\n" ++
  "trace:   --offset OFFSET --depth DEPTH --consumers\n"

end Wordcode

open Wordcode in
def main (args : List String) : IO UInt32 := do
  let outcome := CommandLine.run args
  IO.print outcome.output
  IO.eprint (match outcome with
    | .usage => usage
    | outcome => outcome.errorOutput)
  return outcome.exitCode
