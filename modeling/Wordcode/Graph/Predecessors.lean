/-
# Edges backwards

A predecessor index lists the nodes reachable from some roots, and for each of
them the edges of reachable nodes that lead to it, in the order in which the
search found their sources. It describes the graph as it was: when the graph
is edited the index has to be built again.

Key definitions: `PredecessorIndex`, `PredecessorIndex.build`,
`PredecessorIndex.predecessors`, `PredecessorIndex.contains`.
-/
import Std.Data.HashMap
import Wordcode.Graph.Walk

namespace Wordcode

/-- Reachable nodes and the edges into them. -/
structure PredecessorIndex where
  /-- The reachable nodes, in the order of the search. -/
  reachable : List NodeId
  /-- For each reachable node the edges into it, as source and edge. -/
  into : Std.HashMap NodeId (List (NodeId × Edge))
deriving Inhabited

namespace PredecessorIndex

/-- Puts the edge `e` from `source` before the edges into its target. -/
def addEdge (source : NodeId) (e : NodeId × Edge)
    (into : Std.HashMap NodeId (List (NodeId × Edge))) : Std.HashMap NodeId (List (NodeId × Edge)) :=
  into.insert e.1 ((source, e.2) :: into.getD e.1 [])

/-- The index of a graph from some roots. -/
def build (isa : InstructionSet) (g : Graph) (roots : List NodeId) : PredecessorIndex :=
  let reachable := g.reachable isa roots
  let none := reachable.foldr (fun n into => into.insert n []) ∅
  { reachable
    into := reachable.foldr (fun n into => (g.edges isa n).foldr (addEdge n) into) none }

/-- The edges into a node, as source and edge. -/
def predecessors (index : PredecessorIndex) (n : NodeId) : List (NodeId × Edge) :=
  index.into.getD n []

/-- Was the node reachable? -/
def contains (index : PredecessorIndex) (n : NodeId) : Bool := index.into.contains n

end PredecessorIndex

end Wordcode
