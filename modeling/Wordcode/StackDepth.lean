/-
# How deep the stack gets

The depth is carried along the edges from the roots, where the stack is empty,
and an instruction is visited again when a path gets to it with a greater depth
than before. The answer is none when some instruction visited has an unknown
effect, would pop more values than there are, or is reached beyond
`depthLimit`.

Key definitions: `StackDepth.leave?`, `StackDepth.onward?`, `maxStackDepth`.
-/
import Wordcode.Trace

namespace Wordcode

namespace StackDepth

variable (isa : InstructionSet) (g : Graph)

/-- The depth after a node along an edge, if its effect is known and it does not
pop more values than there are. -/
def leave? (n : NodeId) (depth : Nat) (edge : Edge) : Option Nat :=
  match (g.node n).effect isa edge with
  | some e => if depth < e.popped then none else some (depth - e.popped + e.pushed)
  | none => none

/-- The depths at the targets of a node, if it can be left by each of its edges.
One that ends the flow must still be able to run. -/
def onward? (n : NodeId) (depth : Nat) : Option (List (NodeId × Nat)) :=
  match g.edges isa n with
  | [] => (leave? isa g n depth .fallthrough).map fun _ => []
  | edges => edges.mapM fun t => (leave? isa g n depth t.2).map (t.1, ·)

/-- The greatest depth found from the states `work`, when each node was already
visited with its depth in `visited` and `deepest` was found. At most `room`
visits are still to come. -/
def deepestFrom : (room : Nat) → (work : List (NodeId × Nat)) →
    (visited : Std.HashMap NodeId Nat) → (deepest : Nat) → Option Nat
  | 0, _, _, _ => none
  | room + 1, work, visited, deepest =>
    match work.dropWhile fun s => visited[s.1]?.any (s.2 ≤ ·) with
    | [] => some deepest
    | (n, depth) :: rest =>
      if depthLimit < depth then none
      else match onward? isa g n depth with
        | none => none
        | some next =>
          deepestFrom room (next.reverse ++ rest) (visited.insert n depth)
            ((next.map (·.2)).foldl max (max deepest depth))

end StackDepth

/-- The greatest depth of the stack when the code is run from any of `roots` with
an empty stack. -/
def maxStackDepth (isa : InstructionSet) (g : Graph) (roots : List NodeId) : Option Nat :=
  StackDepth.deepestFrom isa g (g.size * (depthLimit + 1) + 1) (roots.reverse.map (·, 0)) ∅ 0

end Wordcode
