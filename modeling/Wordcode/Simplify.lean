/-
# Simplifying code

Two edits that leave instructions out of the code.

A trivial instruction only leads to another one: a no-op, an extension unit, an
unconditional jump. Optimising leads every edge past the trivial instructions
behind it, so that these are no longer part of the code; they keep their own
edges. A cycle of trivial instructions is an empty loop, and stays. The edges are
led anew while the walk over the code goes on.

Taking an instruction out leads the edges into it to where it continues.

Key definitions: `Graph.skipTrivial`, `Graph.optimise`, `Graph.remove`.
-/
import Wordcode.Graph.Predecessors

namespace Wordcode

namespace Graph

variable (isa : InstructionSet) (g : Graph)

/-- Where a trivial instruction leads: a no-op or extension unit to its
successor, an unconditional jump to its target. -/
def trivialNext? (n : NodeId) : Option NodeId :=
  let node := g.node n
  let flags := node.flags isa
  if flags.noOp || flags.extension then node.successor
  else if flags.isJump && flags.unconditional then node.branch
  else none

/-- Goes on from `n` past trivial instructions, up to `room` of them, until one
of those already passed comes again. -/
def skipFrom : (room : Nat) → (passed : Std.HashSet NodeId) → NodeId → NodeId
  | 0, _, n => n
  | room + 1, passed, n =>
    match g.trivialNext? isa n with
    | none => n
    | some next => if passed.contains n then n else skipFrom room (passed.insert n) next

/-- The first instruction from `n` on that does something; in an empty loop, the
instruction at which the loop closes. -/
def skipTrivial (n : NodeId) : NodeId := g.skipFrom isa g.size ∅ n

/-- Leads one edge of `n` past the trivial instructions behind it, as the graph is
now, and puts the node it then leads to before those that wait. -/
def skipEdge (n : NodeId) (state : Graph × List NodeId) (edge : NodeId × Edge) :
    Graph × List NodeId :=
  let target := state.1.skipTrivial isa edge.1
  (state.1.redirect n edge.2 (some target), target :: state.2)

/-- Leads all edges of `n` past trivial instructions, one after the other. -/
def skipEdges (n : NodeId) (work : List NodeId) : Graph × List NodeId :=
  (g.edges isa n).foldl (skipEdge isa n) (g, work)

/-- Walks over the code with nodes `work` waiting, nodes `seen` visited and at most
`room` of them still to come, and leads the edges of each visited node past
trivial instructions before going on. -/
def optimiseFrom : (room : Nat) → (work : List NodeId) → (seen : Std.HashSet NodeId) → Graph → Graph
  | 0, _, _, g => g
  | room + 1, work, seen, g =>
    match work.dropWhile seen.contains with
    | [] => g
    | n :: rest =>
      let (g, work) := g.skipEdges isa n rest
      optimiseFrom room work (seen.insert n) g

/-- Leads every edge of the code from `entry` past trivial instructions; gives the
new entry too. -/
def optimise (entry : NodeId) : Graph × NodeId :=
  let first := g.skipTrivial isa entry
  (optimiseFrom isa g.size [first] ∅ g, first)

/-- Where execution goes on after an instruction that falls through or always
jumps. -/
def continuation? (n : NodeId) : Option NodeId :=
  let node := g.node n
  let flags := node.flags isa
  if flags.fallsThrough then node.successor
  else if flags.isJump && flags.unconditional then node.branch
  else none

/-- Leads every edge into `n` to where `n` continues, and the entry too if it is
`n`. The index must be that of the graph. -/
def remove (index : PredecessorIndex) (entry n : NodeId) : Except GraphError (Graph × NodeId) :=
  match g.continuation? isa n with
  | none => .error (.danglingSuccessor (g.node n).opcode (g.node n).offset)
  | some next =>
    .ok ((index.predecessors n).foldl (fun g p => g.redirect p.1 p.2 (some next)) g,
      if entry = n then next else entry)

end Graph

end Wordcode
