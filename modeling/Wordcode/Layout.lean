/-
# Laying out a graph

A layout is a sequence of nodes in which execution can go on from each
instruction that falls through to the one after it. It is built of chains of
fall-through: the chain of the entry first, then chains from the other nodes
in the order of the offsets they had before, nodes without an offset last. So
code that was not edited comes out in its order.

Two faults may remain, and unconditional jumps repair them. An instruction
whose successor was laid out elsewhere gets a jump after it (`closeGaps`). A
relative jump whose target lies on the wrong side is pointed at an absolute
jump at the end (`addTrampolines`). Both repairs lead edges over new jumps
(`detours`). When the layout stands, every node is bound to its place in it.

Key definitions: `Layout.order`, `Layout.detours`, `Layout.closeGaps`,
`Layout.addTrampolines`, `Graph.linearize`.
-/
import Std.Data.HashMap
import Wordcode.Graph.Walk

namespace Wordcode

namespace Layout

variable (isa : InstructionSet)

/-- The order of two nodes by offset, those without offset last. -/
def offsetLe (g : Graph) (a b : NodeId) : Bool :=
  match (g.node a).offset, (g.node b).offset with
  | some x, some y => x ≤ y
  | none, some _ => false
  | _, none => true

/-- The nodes chain by chain: from the entry, then by the offsets they had and,
among those with the same, as they were found. -/
def order (g : Graph) (entry : NodeId) (found : List NodeId) : List NodeId :=
  g.chains isa (entry :: found.mergeSort (offsetLe g))

/-- The place of each node in a sequence, the last one if it is there more than
once. -/
def places (nodes : List NodeId) : Std.HashMap NodeId Nat := Std.HashMap.ofList nodes.zipIdx

/-- A jump to `target`, written for an instruction at `position`. -/
def jumpNode (opcode : Opcode) (target : NodeId) (position : Option Position) : Node :=
  { opcode, operand := .jump, branch := some target, position }

/-- Leads edges of the nodes from place `i` on over new jumps: where `detour?` gives
the target of the edge and an opcode, a jump to that target is added and the edge
led to it. Gives the graph and the jump of each node that got one. -/
def detours (edge : Edge) (detour? : Graph → NodeId → Nat → Option (NodeId × Opcode)) :
    List NodeId → (i : Nat) → (g : Graph) → (done : Array (Option NodeId)) →
      Graph × Array (Option NodeId)
  | [], _, g, done => (g, done)
  | n :: rest, i, g, done =>
    match detour? g n i with
    | none => detours edge detour? rest (i + 1) g (done.push none)
    | some (target, opcode) =>
      let jump := g.size
      let added := g.alloc (jumpNode opcode target (g.node n).position)
      detours edge detour? rest (i + 1) (added.redirect n edge (some jump)) (done.push (some jump))

/-- The successor that is not next to node `n` at place `i`, with the opcode of a
jump that leads there. -/
def gap? (place : Std.HashMap NodeId Nat) (g : Graph) (n : NodeId) (i : Nat) :
    Option (NodeId × Opcode) :=
  match g.fallthrough? isa n with
  | some successor =>
    let target := place.getD successor 0
    if target = i + 1 then none
    else some (successor, if i < target then isa.jumpForward else isa.jumpAbsolute)
  | none => none

/-- A sequence with some of its nodes followed by a jump. -/
def weave (nodes : List NodeId) (jumps : List (Option NodeId)) : List NodeId :=
  (nodes.zip jumps).flatMap fun p => p.1 :: p.2.toList

/-- A sequence in which every successor is next to its node, with jumps where
needed. -/
def closeGaps (g : Graph) (nodes : List NodeId) : Graph × List NodeId :=
  let (g, jumps) := detours .fallthrough (gap? isa (places nodes)) nodes 0 g #[]
  (g, weave nodes jumps.toList)

/-- The target of a relative jump at place `i`, if it lies on the side that the
jump cannot express, with the opcode of a jump that can. -/
def wrongWay? (place : Std.HashMap NodeId Nat) (g : Graph) (n : NodeId) (i : Nat) :
    Option (NodeId × Opcode) :=
  let node := g.node n
  let flags := node.flags isa
  if flags.jumpRelative then
    match node.branch with
    | some target =>
      let j := place.getD target 0
      if (if flags.jumpBackward then i < j else j ≤ i) then some (target, isa.jumpAbsolute) else none
    | none => none
  else none

/-- A sequence in which every relative jump can express the way to its target,
with absolute jumps at the end. -/
def addTrampolines (g : Graph) (nodes : List NodeId) : Graph × List NodeId :=
  let (g, jumps) := detours .branch (wrongWay? isa (places nodes)) nodes 0 g #[]
  (g, nodes ++ jumps.toList.reduceOption)

/-- Binds the nodes of a sequence to offsets, two bytes each from place `i` on. -/
def bindOffsets : List NodeId → (i : Nat) → Graph → Graph
  | [], _, g => g
  | n :: rest, i, g => bindOffsets rest (i + 1) (g.modify n ({ · with offset := some (i * 2) }))

end Layout

/-- The layout of everything that execution can get to from the entry and the
handlers. The graph has the jumps that were added, and offsets that do not yet
count added extension units. -/
def Graph.linearize (isa : InstructionSet) (g : Graph) (entry : NodeId) (handlers : List NodeId) :
    Except GraphError (Graph × List NodeId) :=
  match g.reachable? isa (entry :: handlers) with
  | .error e => .error e
  | .ok found =>
    let (g₁, closed) := Layout.closeGaps isa g (Layout.order isa g entry found)
    let (g₂, nodes) := Layout.addTrampolines isa g₁ closed
    .ok (Layout.bindOffsets nodes 0 g₂, nodes)

end Wordcode
