/-
# Graphs with the same code

Laying out and numbering write offsets and pool indices into nodes. Neither is
part of the code: two graphs with the same nodes but for these have the same
edges, operands and flags, and execution gets to the same places in both.

Key definitions: `Node.bare`, `Node.body`, `Graph.SameCode`.
Key theorems: `Graph.SameCode.edges`, `Graph.sameCode_modify`.
-/
import Wordcode.Graph

namespace Wordcode

namespace Node

/-- What a node says, without where it was and which index its operand had. -/
def bare (node : Node) : Node := { node with offset := none, poolHint := none }

/-- What a node says apart from its edges. -/
def body (node : Node) : Node := { node.bare with successor := none, branch := none }

theorem opcode_of_body {a b : Node} (h : a.body = b.body) : a.opcode = b.opcode :=
  (congrArg Node.opcode h :)

theorem operand_of_body {a b : Node} (h : a.body = b.body) : a.operand = b.operand :=
  (congrArg Node.operand h :)

theorem flags_of_body (isa : InstructionSet) {a b : Node} (h : a.body = b.body) :
    a.flags isa = b.flags isa := by
  rw [flags, flags, opcode_of_body h]

@[simp] theorem body_withEdge (node : Node) (edge : Edge) (target : Option NodeId) :
    (node.withEdge edge target).body = node.body := by
  cases edge <;> rfl

@[simp] theorem opcode_withEdge (node : Node) (edge : Edge) (target : Option NodeId) :
    (node.withEdge edge target).opcode = node.opcode := by
  cases edge <;> rfl

@[simp] theorem successor_withEdge_branch (node : Node) (target : Option NodeId) :
    (node.withEdge .branch target).successor = node.successor := rfl

@[simp] theorem branch_withEdge_fallthrough (node : Node) (target : Option NodeId) :
    (node.withEdge .fallthrough target).branch = node.branch := rfl

@[simp] theorem flags_withEdge (isa : InstructionSet) (node : Node) (edge : Edge)
    (target : Option NodeId) : (node.withEdge edge target).flags isa = node.flags isa := by
  cases edge <;> rfl

end Node

namespace Graph

/-- The same nodes, but for offsets and pool indices. -/
structure SameCode (g h : Graph) : Prop where
  size_eq : h.size = g.size
  bare_eq : ∀ n, (h.node n).bare = (g.node n).bare

namespace SameCode

variable {g h k : Graph}

theorem refl (g : Graph) : g.SameCode g := ⟨rfl, fun _ => rfl⟩

theorem symm (s : g.SameCode h) : h.SameCode g :=
  ⟨s.size_eq.symm, fun n => (s.bare_eq n).symm⟩

theorem trans (hgh : g.SameCode h) (hhk : h.SameCode k) : g.SameCode k :=
  ⟨hhk.size_eq.trans hgh.size_eq, fun n => (hhk.bare_eq n).trans (hgh.bare_eq n)⟩

variable (s : g.SameCode h) (isa : InstructionSet) (n : NodeId)
include s

theorem body : (h.node n).body = (g.node n).body := by
  rw [Node.body, Node.body, s.bare_eq]

theorem opcode : (h.node n).opcode = (g.node n).opcode :=
  (congrArg Node.opcode (s.bare_eq n) :)

theorem operand : (h.node n).operand = (g.node n).operand :=
  (congrArg Node.operand (s.bare_eq n) :)

theorem position : (h.node n).position = (g.node n).position :=
  (congrArg Node.position (s.bare_eq n) :)

theorem successor : (h.node n).successor = (g.node n).successor :=
  (congrArg Node.successor (s.bare_eq n) :)

theorem branch : (h.node n).branch = (g.node n).branch :=
  (congrArg Node.branch (s.bare_eq n) :)

theorem flags : (h.node n).flags isa = (g.node n).flags isa := by
  rw [Node.flags, Node.flags, s.opcode]

theorem fallsThrough : (h.node n).fallsThrough isa = (g.node n).fallsThrough isa := by
  rw [Node.fallsThrough, Node.fallsThrough, s.flags]

theorem isJump : (h.node n).isJump isa = (g.node n).isJump isa := by
  rw [Node.isJump, Node.isJump, s.flags]

theorem isExtension : (h.node n).isExtension isa = (g.node n).isExtension isa := by
  rw [Node.isExtension, Node.isExtension, s.flags]

theorem edges : h.edges isa n = g.edges isa n := by
  rw [Graph.edges, Graph.edges, fallthrough?, fallthrough?, branch?, branch?, s.fallsThrough,
    s.isJump, s.successor, s.branch]

theorem targets : h.targets isa n = g.targets isa n := by
  rw [Graph.targets, Graph.targets, s.edges]

end SameCode

/-- Graphs of the same nodes are the same. -/
theorem eq_of_node {g h : Graph} (hsize : h.size = g.size)
    (hnode : ∀ n < g.size, h.node n = g.node n) : h = g := by
  obtain ⟨xs⟩ := g
  obtain ⟨ys⟩ := h
  congr 1
  refine Array.ext hsize fun i hi hi' => ?_
  have hi'' := hnode i hi'
  simp only [node, Array.getD_eq_getD_getElem?, Array.getElem?_eq_getElem hi,
    Array.getElem?_eq_getElem hi', Option.getD_some] at hi''
  exact hi''

/-- A change of one node that leaves what it says alone. -/
theorem sameCode_modify (g : Graph) (n : NodeId) {f : Node → Node}
    (hf : ∀ node, (f node).bare = node.bare) : g.SameCode (g.modify n f) where
  size_eq := size_modify g n f
  bare_eq := fun m => by
    rw [node_modify]
    split
    · exact hf _
    · rfl

/-- A redirected edge leads to its new target, and the other nodes are as they were. -/
theorem node_redirect (g : Graph) (n m : NodeId) (edge : Edge) (target : Option NodeId) :
    (g.redirect n edge target).node m =
      if n = m ∧ m < g.size then (g.node m).withEdge edge target else g.node m :=
  node_modify g n m _

end Graph

end Wordcode
