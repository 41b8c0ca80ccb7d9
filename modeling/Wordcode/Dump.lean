/-
# Values in full

The dump of a value names its constructor and all its fields. It is meant for
looking into a program, where the short forms (`Constant.text`, the listing)
leave something out: it shows flags and effects, the operands with their kind,
and a code object with everything in it.

Key definitions: `Dump.record`, `Dump.applied`, `Constant.dump`,
`Operand.dump`, `Node.dump`, `EffectRule.dump`.
-/
import Wordcode.CodeObject
import Wordcode.Decimal.Shortest
import Wordcode.Error
import Wordcode.Graph.Node
import Wordcode.Text.Quoted

namespace Wordcode

namespace Dump

/-- A constructor with its arguments in parentheses. -/
def applied (head : String) (args : List String) : String :=
  head ++ "(" ++ ", ".intercalate args ++ ")"

/-- A list in brackets. -/
def list (items : List String) : String := "[" ++ ", ".intercalate items ++ "]"

/-- A record with its named fields in braces. -/
def record (head : String) (fields : List (String × String)) : String :=
  head ++ " \x7b " ++ ", ".intercalate (fields.map fun f => f.1 ++ ": " ++ f.2) ++ " \x7d"

/-- A value that may be missing. -/
def option : Option String → String
  | some s => applied "Some" [s]
  | none => "None"

/-- A list of numbers. -/
def bytes (bs : List UInt8) : String := list (bs.map fun b => toString b.toNat)

/-- A double. -/
def float (bits : UInt64) : String := Decimal.floatText ⟨"NaN", "inf"⟩ bits

end Dump

open Dump

def Opcode.dump (op : Opcode) : String := "op" ++ toString op.toNat

def JumpUnit.dump : JumpUnit → String
  | .bytes => "Bytes"
  | .instructions => "Instructions"

def LineFormat.dump : LineFormat → String
  | .lnotab => "Lnotab"
  | .ranges => "LineRanges"

def FlagPacking.dump : FlagPacking → String
  | .none => "None"
  | .lowBits n => applied "LowFlagBits" [toString n]
  | .highBit b => applied "HighFlagBit" [toString b]

def StackEffect.dump (e : StackEffect) : String :=
  record "StackEffect" [("pushed", toString e.pushed), ("popped", toString e.popped),
    ("forwards", list (e.forwards.map fun source => option (source.map toString)))]

def EffectRule.dump : EffectRule → String
  | .fixed e => applied "Fixed" [e.dump]
  | .computed _ => "Computed"
  | .branching f b => record "Branching" [("fallthrough", f.dump), ("branch", b.dump)]
  | .unknown => "Unknown"

def Position.dump (p : Position) : String :=
  record "SourcePosition" [("line", toString p.line), ("column", option (p.column.map toString))]

namespace Constant

mutual
/-- The dump of a constant, given those of the code objects. -/
def dump (code : Nat → String) : Constant → String
  | .none => "None"
  | .ellipsis => "Ellipsis"
  | .bool b => applied "Bool" [if b then "true" else "false"]
  | .int i => applied "Int" [toString i]
  | .float bits => applied "Float" [Dump.float bits]
  | .complex real imag => record "Complex" [("real", Dump.float real), ("imag", Dump.float imag)]
  | .str s => applied "Str" [Text.quote s]
  | .bytes bs => applied "Bytes" [Dump.bytes bs]
  | .tuple items => applied "Tuple" [list (dumps code items)]
  | .frozenset items => applied "FrozenSet" [list (dumps code items)]
  | .code k => applied "Code" [code k]

/-- The dumps of the constants of a list. -/
def dumps (code : Nat → String) : List Constant → List String
  | [] => []
  | c :: cs => dump code c :: dumps code cs
end

end Constant

def Header.dump (h : Header) : String :=
  record "CodeHeader" [("argcount", toString h.argcount),
    ("posonlyargcount", toString h.posonlyargcount), ("kwonlyargcount", toString h.kwonlyargcount),
    ("nlocals", toString h.nlocals), ("stacksize", toString h.stacksize),
    ("flags", toString h.flags), ("filename", Text.quote h.filename),
    ("name", Text.quote h.name), ("firstlineno", toString h.firstlineno)]

/-- The dump of the pools, given those of the code objects. -/
def Pools.dump (code : Nat → String) (p : Pools) : String :=
  let names := fun ns : Array String => list (ns.toList.map Text.quote)
  record "Pools" [("constants", list (Constant.dumps code p.constants.toList)),
    ("names", names p.names), ("locals", names p.locals), ("cells", names p.cells),
    ("free", names p.free)]

/-- The dump of a code object, given those of the others. -/
def CodeObject.dump (code : Nat → String) (o : CodeObject) : String :=
  record "RawCode" [("header", o.header.dump), ("code", Dump.bytes o.code),
    ("pools", o.pools.dump code), ("line_table", Dump.bytes o.lineTable)]

/-- The dumps of a table of code objects, each of which refers to earlier ones. -/
def CodeTable.dumps (codes : CodeTable) : Array String :=
  codes.foldl (fun done o => done.push (o.dump fun k => done.getD k "")) #[]

/-- The dump of an operand, given those of the code objects. -/
def Operand.dump (code : Nat → String) : Operand → String
  | .none => "None"
  | .raw value => applied "Raw" [toString value]
  | .constant c => applied "Constant" [c.dump code]
  | .name s => applied "Name" [Text.quote s]
  | .local s => applied "Local" [Text.quote s]
  | .cell s => applied "Cell" [Text.quote s]
  | .jump => "Jump"

/-- The dump of a node, given those of the code objects. -/
def Node.dump (code : Nat → String) (n : Node) : String :=
  record "Instruction" [("opcode", n.opcode.dump), ("operand", n.operand.dump code),
    ("offset", option (n.offset.map toString)), ("position", option (n.position.map Position.dump))]

end Wordcode
