/-
# Copies

A shallow copy has the contents and the edges of the node it copies. A deep copy
copies everything that can be reached along stored edges, whether they count or
not, and its edges lead to the copies. Copies have no offset. A deep copy into
the graph of another unit drops the pool indices, which mean nothing there.

Key definitions: `Graph.copy`, `Graph.storedReachable`, `Graph.copyFrom`,
`Graph.copyDeep`.
-/
import Std.Data.HashMap
import Wordcode.Graph.Walk

namespace Wordcode

namespace Graph

/-- Adds a copy of a node with the same contents and edges. -/
def copy (g : Graph) (n : NodeId) : Graph := g.alloc { g.node n with offset := none }

/-- Where the stored edges of a node lead, the successor first. -/
def storedTargets (g : Graph) (n : NodeId) : List NodeId :=
  (g.node n).successor.toList ++ (g.node n).branch.toList

/-- All nodes reachable along stored edges. -/
def storedReachable (g : Graph) (root : NodeId) : List NodeId :=
  explore id g.storedTargets g.size [root]

/-- The number that the copy of each node gets when the nodes are copied in order
behind `size` others. -/
def copyNumbers (size : Nat) (copied : List NodeId) : Std.HashMap NodeId NodeId :=
  Std.HashMap.ofList (copied.zipIdx size)

/-- A node for the copy, with its edges led to the copies. -/
def copyNode (image : NodeId → Option NodeId) (keepHint : Bool) (node : Node) : Node :=
  { node with
    offset := none
    poolHint := if keepHint then node.poolHint else none
    successor := node.successor.bind image
    branch := node.branch.bind image }

/-- Adds to `g` copies of all nodes of `source` that can be reached along stored
edges from `root`, and gives the number of the copy of `root`, which is the
first one added. -/
def copyFrom (g source : Graph) (root : NodeId) (keepHints : Bool) : Graph × NodeId :=
  let copied := source.storedReachable root
  let numbers := copyNumbers g.size copied
  let copies := copied.map fun n => copyNode (numbers[·]?) keepHints (source.node n)
  (copies.foldl alloc g, g.size)

/-- A deep copy within one graph. -/
def copyDeep (g : Graph) (root : NodeId) : Graph × NodeId := g.copyFrom g root true

end Graph

end Wordcode
