/-
# Where values come from and where they go

A stack slot is followed along the edges of the graph by the effects of the
instructions: over an instruction that pops `q` and pushes `p` values, the slot
`d` below the top was at `d - p + q` before, unless it is one of the pushed
ones. An instruction that copies values is reported, and the walk also goes on
to what it copied.

Walking off the code or across an instruction of unknown effect ends a path; so
does a depth beyond `depthLimit`, which only an unbalanced loop reaches. An
empty answer means that nothing is known.

Key definitions: `Trace.producers`, `Trace.consumers`,
`Trace.operandProducers`.
-/
import Wordcode.Graph.Predecessors

namespace Wordcode

/-- The depth beyond which a walk is taken to go round an unbalanced loop. -/
def depthLimit : Nat := 0x10000

namespace Trace

variable (isa : InstructionSet) (g : Graph)

/-! ### Backwards -/

/-- The slot `depth` below the top just after a node is left by an edge. -/
structure Leaving where
  node : NodeId
  edge : Edge
  depth : Nat
deriving DecidableEq, Hashable, Inhabited

/-- The slot `depth` below the top just before `n`, as what it is when control
leaves each predecessor. -/
def Leaving.before (index : PredecessorIndex) (n : NodeId) (depth : Nat) : List Leaving :=
  if depthLimit < depth then []
  else (index.predecessors n).map fun p => ⟨p.1, p.2, depth⟩

/-- Where the walk goes from a slot: to what it copies if the node pushed it as a
copy, to the slot before the node if it was there already. -/
def Leaving.back (index : PredecessorIndex) (s : Leaving) : List Leaving :=
  match (g.node s.node).effect isa s.edge with
  | none => []
  | some e =>
    if s.depth < e.pushed then
      match e.sourceOf s.depth with
      | some source => before index s.node source
      | none => []
    else before index s.node (s.depth - e.pushed + e.popped)

/-- Did the node push the slot? -/
def Leaving.isPushed (s : Leaving) : Bool :=
  match (g.node s.node).effect isa s.edge with
  | some e => s.depth < e.pushed
  | none => false

/-- The instructions that may have pushed the value `depth` below the top just
before `n`. -/
def producers (index : PredecessorIndex) (n : NodeId) (depth : Nat) : List NodeId :=
  let slots := explore id (Leaving.back isa g index) (g.size * 2 * (depthLimit + 1))
    (Leaving.before index n depth)
  firsts ((slots.filter (Leaving.isPushed isa g)).map (·.node))

/-- For each value that `n` pops, from the top down, the instructions that may
have pushed it; nothing if the effect of `n` is not known. -/
def operandProducers (index : PredecessorIndex) (n : NodeId) : List (List NodeId) :=
  match (g.node n).effect isa .fallthrough with
  | some e => (List.range e.popped).map (producers isa g index n)
  | none => []

/-! ### Forwards -/

/-- The slot `depth` below the top just before a node. -/
structure Entering where
  node : NodeId
  depth : Nat
deriving DecidableEq, Hashable, Inhabited

/-- Where a slot is after the node along an edge: at its copies if the node pops
it, else where the effect moves it. -/
def Entering.after (s : Entering) (edge : Edge) : List Nat :=
  match (g.node s.node).effect isa edge with
  | none => []
  | some e => if s.depth < e.popped then e.copiesOf s.depth else [s.depth - e.popped + e.pushed]

/-- Where the walk goes from a slot. -/
def Entering.onward (s : Entering) : List Entering :=
  ((g.edges isa s.node).flatMap fun t => (s.after isa g t.2).map (⟨t.1, ·⟩)).filter
    (·.depth ≤ depthLimit)

/-- Does the node pop the slot when it is left by an edge? -/
def Entering.pops (s : Entering) (edge : Edge) : Bool :=
  match (g.node s.node).effect isa edge with
  | some e => s.depth < e.popped
  | none => false

/-- Does the node pop the slot on some edge? One that ends the flow pops what it
would if it fell through. -/
def Entering.isPopped (s : Entering) : Bool :=
  match g.edges isa s.node with
  | [] => s.pops isa g .fallthrough
  | edges => edges.any fun t => s.pops isa g t.2

/-- The instructions that may pop the value `depth` below the top just after
`n`. -/
def consumers (n : NodeId) (depth : Nat) : List NodeId :=
  let roots := ((g.targets isa n).map fun m => (⟨m, depth⟩ : Entering)).filter (·.depth ≤ depthLimit)
  let slots := explore id (Entering.onward isa g) (g.size * (depthLimit + 1)) roots
  firsts ((slots.filter (Entering.isPopped isa g)).map (·.node))

end Trace

end Wordcode
