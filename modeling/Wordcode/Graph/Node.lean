/-
# Instructions as nodes

A node holds one instruction: its opcode, its operand with pool indices
replaced by what they point at, and its two outgoing edges. An edge may be
there without being taken: which edges count is decided by the flags of the
opcode (`Graph.edges`).

Key definitions: `Operand`, `Position`, `NodeId`, `Node`.
-/
import Wordcode.InstructionSet
import Wordcode.Constant

namespace Wordcode

/-- A resolved operand. Pool operands hold the entry and not its index, so that
a node can move to a unit with other pools. -/
inductive Operand where
  | none
  | raw (value : Nat)
  | constant (value : Constant)
  | name (text : String)
  | local (text : String)
  | cell (text : String)
  /-- The operand is computed from the branch target. -/
  | jump
deriving DecidableEq, Inhabited

namespace Operand

/-- The kind of an operand; a jump is reported as an absolute one. -/
def kind : Operand → OperandKind
  | .none => .none
  | .raw _ => .raw
  | .constant _ => .constant
  | .name _ => .name
  | .local _ => .local
  | .cell _ => .cell
  | .jump => .absoluteJump

/-- Can an opcode that expects `expected` carry the operand? -/
def fits (operand : Operand) (expected : OperandKind) : Bool :=
  match operand with
  | .jump => expected.isJump
  | _ => operand.kind == expected

/-- The number on which a stack effect may depend. -/
def rawValue : Operand → Nat
  | .raw value => value
  | _ => 0

end Operand

/-- A place in the source. -/
structure Position where
  line : Nat
  column : Option Nat := none
deriving DecidableEq, Inhabited

/-- The number of a node in its graph. -/
abbrev NodeId := Nat

/-- One instruction of a graph. -/
structure Node where
  opcode : Opcode
  operand : Operand := .none
  /-- Flag bits next to the pool index. -/
  operandFlags : Nat := 0
  /-- The pool index the operand was last read from or written to. -/
  poolHint : Option Nat := none
  /-- The byte offset in the last linear form. -/
  offset : Option Nat := none
  position : Option Position := none
  successor : Option NodeId := none
  branch : Option NodeId := none
deriving DecidableEq, Inhabited

namespace Node

variable (isa : InstructionSet) (node : Node)

/-- The flags of the opcode. -/
def flags : Flags := isa.flags node.opcode

/-- Can execution go on at the successor? -/
def fallsThrough : Bool := (node.flags isa).fallsThrough

/-- Has the instruction a branch target? -/
def isJump : Bool := (node.flags isa).isJump

/-- Is this an extension unit, which only carries digits of a later operand? -/
def isExtension : Bool := (node.flags isa).extension

/-- The stack effect when control leaves by `edge`. -/
def effect (edge : Edge) : Option StackEffect := isa.effect node.opcode node.operand.rawValue edge

/-- The same node with another operand; the pool index of the old one is
forgotten. -/
def withOperand (operand : Operand) : Node := { node with operand, poolHint := none }

/-- The same node with an edge to another target. -/
def withEdge (edge : Edge) (target : Option NodeId) : Node :=
  match edge with
  | .fallthrough => { node with successor := target }
  | .branch => { node with branch := target }

end Node

end Wordcode
