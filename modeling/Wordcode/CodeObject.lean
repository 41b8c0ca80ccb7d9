/-
# Code objects

A code object is a function as the interpreter loads it: a header, the bytes
of its code, the pools its operands index, and the bytes of its line table.
Constants may refer to other code objects by their place in a table.

Key definitions: `Header`, `CodeObject`, `CodeTable`.
-/
import Wordcode.Pool

namespace Wordcode

/-- A function's properties, apart from its code, pools and lines. All numbers
are below `UInt32.size`. -/
structure Header where
  argcount : Nat := 0
  posonlyargcount : Nat := 0
  kwonlyargcount : Nat := 0
  nlocals : Nat := 0
  stacksize : Nat := 0
  flags : Nat := 0
  filename : String := ""
  name : String := ""
  firstlineno : Nat := 0
deriving DecidableEq, Inhabited

/-- The header of code at module level whose file is not known. -/
def Header.module : Header := { name := "<module>", filename := "<unknown>", firstlineno := 1 }

/-- A function as the interpreter loads it. -/
structure CodeObject where
  header : Header := .module
  code : List UInt8
  pools : Pools := {}
  lineTable : List UInt8 := []
deriving DecidableEq, Inhabited

/-- The code objects that constants refer to by index. -/
abbrev CodeTable := Array CodeObject

/-- The name of a code object in the table. -/
def CodeTable.nameOf (codes : CodeTable) (index : Nat) : String :=
  match codes[index]? with
  | some code => code.header.name
  | none => ""

end Wordcode
