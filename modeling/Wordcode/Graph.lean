/-
# Instruction graphs

A graph is a store of nodes that point at each other by number. Nodes are
added at the end and never taken out; a node that nothing points at is no
longer part of the code, but keeps its number. Reading a number that no node
has gives an empty node without edges.

Which edges count is decided by the flags: an instruction that never falls
through has no successor edge, and one that is no jump has no branch edge,
whatever its node stores.

Key definitions: `Graph`, `Graph.node`, `Graph.modify`, `Graph.alloc`,
`Graph.edges`, `Graph.Closed`.
Key theorems: `Graph.node_modify`, `Graph.node_alloc`, `Graph.mem_edges`.
-/
import Wordcode.Graph.Node

namespace Wordcode

/-- A store of nodes. -/
structure Graph where
  nodes : Array Node := #[]
deriving Inhabited

namespace Graph

/-- How many nodes were ever added. -/
def size (g : Graph) : Nat := g.nodes.size

/-- The node with a number. -/
def node (g : Graph) (n : NodeId) : Node := g.nodes.getD n default

/-- Changes one node. -/
def modify (g : Graph) (n : NodeId) (f : Node → Node) : Graph := ⟨g.nodes.modify n f⟩

/-- Adds a node; its number is the size so far. -/
def alloc (g : Graph) (node : Node) : Graph := ⟨g.nodes.push node⟩

/-- Points one edge of a node at a target. -/
def redirect (g : Graph) (n : NodeId) (edge : Edge) (target : Option NodeId) : Graph :=
  g.modify n (·.withEdge edge target)

@[simp] theorem size_modify (g : Graph) (n : NodeId) (f : Node → Node) :
    (g.modify n f).size = g.size := by
  simp [size, modify]

@[simp] theorem size_alloc (g : Graph) (node : Node) : (g.alloc node).size = g.size + 1 := by
  simp [size, alloc]

@[simp] theorem size_redirect (g : Graph) (n : NodeId) (edge : Edge) (target : Option NodeId) :
    (g.redirect n edge target).size = g.size := size_modify ..

/-- A change reaches its own node and no other. -/
theorem node_modify (g : Graph) (n m : NodeId) (f : Node → Node) :
    (g.modify n f).node m = if n = m ∧ m < g.size then f (g.node m) else g.node m := by
  simp only [node, modify, size, Array.getD_eq_getD_getElem?, Array.getElem?_modify]
  by_cases h : n = m
  · by_cases hm : m < g.nodes.size
    · simp [h, hm]
    · simp [h, hm]
  · simp [h]

/-- The added node is found under the old size, and the others as before. -/
theorem node_alloc (g : Graph) (node' : Node) (m : NodeId) :
    (g.alloc node').node m = if m = g.size then node' else g.node m := by
  simp only [node, alloc, size, Array.getD_eq_getD_getElem?, Array.getElem?_push]
  split <;> simp

/-- Every edge of every node leads to a node of the graph, also the edges that
do not count. -/
def Closed (g : Graph) : Prop :=
  ∀ n, n < g.size → (∀ s, (g.node n).successor = some s → s < g.size) ∧
    ∀ b, (g.node n).branch = some b → b < g.size

instance (g : Graph) : Decidable g.Closed :=
  decidable_of_iff (∀ n < g.size, (∀ s ∈ (g.node n).successor, s < g.size) ∧
    ∀ b ∈ (g.node n).branch, b < g.size) Iff.rfl

variable (isa : InstructionSet)

/-- The successor, if execution can go on there. -/
def fallthrough? (g : Graph) (n : NodeId) : Option NodeId :=
  if (g.node n).fallsThrough isa then (g.node n).successor else none

/-- The branch target, if the instruction is a jump. -/
def branch? (g : Graph) (n : NodeId) : Option NodeId :=
  if (g.node n).isJump isa then (g.node n).branch else none

/-- The edges that count, the successor first. -/
def edges (g : Graph) (n : NodeId) : List (NodeId × Edge) :=
  (g.fallthrough? isa n).toList.map (·, .fallthrough) ++ (g.branch? isa n).toList.map (·, .branch)

/-- Where the edges that count lead. -/
def targets (g : Graph) (n : NodeId) : List NodeId := (g.edges isa n).map (·.1)

theorem mem_edges (g : Graph) (n m : NodeId) (e : Edge) : (m, e) ∈ g.edges isa n ↔
    match e with
    | .fallthrough => g.fallthrough? isa n = some m
    | .branch => g.branch? isa n = some m := by
  cases e <;> simp [edges]

end Graph

end Wordcode
