/-
# Putting instructions after an instruction

A straight-line sequence of nodes is put between a node and its successor. All
of them but the last must fall through, and so must the node; the pairs are
linked one by one, and those linked before an offending node stay linked.

Key definitions: `Graph.link`, `Graph.insertAfter`.
-/
import Wordcode.Graph
import Wordcode.Error

namespace Wordcode

namespace Graph

variable (isa : InstructionSet)

/-- Makes each node of a list the successor of the one before it, up to the
first that does not fall through. -/
def link (g : Graph) : List NodeId → Graph × Except GraphError Unit
  | a :: b :: rest =>
    if (g.node a).fallsThrough isa then
      link (g.redirect a .fallthrough (some b)) (b :: rest)
    else (g, .error (.insertAfterTerminal (g.node a).opcode))
  | _ => (g, .ok ())

/-- Puts the nodes, in order, between `n` and its successor. -/
def insertAfter (g : Graph) (n : NodeId) (nodes : List NodeId) : Graph × Except GraphError Unit :=
  if !(g.node n).fallsThrough isa then (g, .error (.insertAfterTerminal (g.node n).opcode))
  else match nodes.head?, nodes.getLast? with
    | some first, some last =>
      match g.link isa nodes with
      | (g', .error e) => (g', .error e)
      | (g', .ok ()) =>
        let closed := if (g'.node last).fallsThrough isa
          then g'.redirect last .fallthrough (g'.node n).successor else g'
        (closed.redirect n .fallthrough (some first), .ok ())
    | _, _ => (g, .ok ())

end Graph

end Wordcode
