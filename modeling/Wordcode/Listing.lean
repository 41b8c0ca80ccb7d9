/-
# Listings

A listing shows the reachable instructions in the order of their offsets, one
to a line: the source line when it changes, with a blank line before it, a mark
on jump targets, the offset, the name of the opcode, and the operand. A pool
operand is shown as the index it was last bound to and its value in
parentheses. Instructions without offset come last.

Key definitions: `Listing.lines`, `Graph.listing`.
-/
import Wordcode.Constant.Text
import Wordcode.Graph.Walk
import Wordcode.Layout

namespace Wordcode

namespace Listing

/-- The text with blanks before it up to a width. -/
def padLeft (width : Nat) (s : String) : String :=
  String.ofList (List.replicate (width - s.length) ' ') ++ s

/-- The text with blanks after it up to a width. -/
def padRight (width : Nat) (s : String) : String :=
  s ++ String.ofList (List.replicate (width - s.length) ' ')

/-- A number that may be missing. -/
def numberOr (missing : String) : Option Nat → String
  | some n => toString n
  | none => missing

/-- An operand, with a blank before it. -/
def operandText (codeName : Nat → String) (g : Graph) (node : Node) : String :=
  let bound := fun text : String => " " ++ numberOr "?" node.poolHint ++ " (" ++ text ++ ")"
  match node.operand with
  | .none => ""
  | .raw value => " " ++ toString value
  | .constant c => bound (c.text codeName)
  | .name s | .local s | .cell s => bound s
  | .jump => " (to " ++ numberOr "?" (node.branch.bind fun target => (g.node target).offset) ++ ")"

/-- An instruction from its mark on. -/
def instructionText (codeName : Nat → String) (isa : InstructionSet) (g : Graph)
    (isTarget : Bool) (node : Node) : String :=
  padLeft 6 (if isTarget then ">>" else "  ") ++ " " ++ padLeft 6 (numberOr "-" node.offset) ++ " " ++
    padRight 24 (isa.opcodeName node.opcode) ++ operandText codeName g node

/-- The margin of an instruction: its source line if it has one that differs from
the last one shown. A blank line comes before it, except at the top. -/
def margin (isFirst : Bool) (last line : Option Nat) : String :=
  match line with
  | some l => if line = last then "    " else (if isFirst then "" else "\n") ++ padLeft 4 (toString l)
  | none => "    "

/-- The lines of a listing, when `last` is the source line last shown. -/
def lines (codeName : Nat → String) (isa : InstructionSet) (g : Graph)
    (targets : Std.HashSet NodeId) : (isFirst : Bool) → (last : Option Nat) → List NodeId → List String
  | _, _, [] => []
  | isFirst, last, n :: rest =>
    let node := g.node n
    let line := node.position.map (·.line)
    (margin isFirst last line ++ instructionText codeName isa g (targets.contains n) node ++ "\n") ::
      lines codeName isa g targets false (if line.isSome then line else last) rest

end Listing

open Listing in
/-- The listing of everything reachable from `roots`, given the names of the code
objects. -/
def Graph.listing (codeName : Nat → String) (isa : InstructionSet) (g : Graph)
    (roots : List NodeId) : String :=
  let nodes := (g.reachable isa roots).mergeSort (Layout.offsetLe g)
  let targets := Std.HashSet.ofList (nodes.filterMap (g.branch? isa))
  String.join (lines codeName isa g targets true none nodes)

end Wordcode
