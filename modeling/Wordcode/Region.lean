/-
# Exception regions

A region is the set of instructions that one handler protects. A region read
from code has the instruction that opens its block; a declared one has none
until it is written into the graph (`Wordcode.Region.Flatten`).

Regions of decoded code are found again from the instructions that open them:
the region is what can be reached from the instruction after the opener, up to
the exit that closes the block and never outside the bytes between the opener
and the handler. The search counts blocks opened on the way, and visits an
instruction once, with the count it first got there with.

Key definitions: `Region`, `RegionTable`, `RegionTable.handlers`,
`RegionTable.handlerFor?`, `RegionTable.protect`, `RegionTable.reconstruct`.
-/
import Wordcode.Graph.Walk

namespace Wordcode

/-- A set of nodes. -/
abbrev NodeSet := Std.HashSet NodeId

/-- The instructions one handler protects. -/
structure Region where
  /-- The instruction that opens the block; a declared region has none yet. -/
  setup : Option NodeId
  /-- The first instruction of the handler. -/
  handler : NodeId
  /-- The protected instructions, among them the exits that close the block. -/
  members : NodeSet
deriving Inhabited

/-- The exception regions of a code unit. -/
structure RegionTable where
  regions : List Region := []
deriving Inhabited

namespace RegionTable

/-- The handlers, each once, in the order of their first region. -/
def handlers (t : RegionTable) : List NodeId := firsts (t.regions.map (·.handler))

/-- Does `handler` protect `n`? -/
def protects (t : RegionTable) (handler n : NodeId) : Bool :=
  t.regions.any fun r => r.handler == handler && r.members.contains n

/-- The region with the fewest members, the first of several. -/
def smallest? : List Region → Option Region
  | [] => none
  | r :: rest => match smallest? rest with
    | some s => if s.members.size < r.members.size then some s else some r
    | none => some r

/-- The innermost handler that protects `n`. -/
def handlerFor? (t : RegionTable) (n : NodeId) : Option NodeId :=
  (smallest? (t.regions.filter (·.members.contains n))).map (·.handler)

/-- Declares that `handler` protects the nodes. -/
def protect (t : RegionTable) (handler : NodeId) (nodes : List NodeId) : RegionTable :=
  ⟨t.regions ++ [⟨none, handler, Std.HashSet.ofList nodes⟩]⟩

/-- Gives every region another handler. -/
def remapHandlers (t : RegionTable) (f : NodeId → NodeId) : RegionTable :=
  ⟨t.regions.map fun r => { r with handler := f r.handler }⟩

/-! ### Regions of decoded code -/

variable (isa : InstructionSet) (g : Graph)

/-- Does the node lie strictly between two offsets? -/
def isBetween (start stop : Nat) (n : NodeId) : Bool :=
  match (g.node n).offset with
  | some offset => start < offset && offset < stop
  | none => false

/-- Where control goes from `n` when `depth` blocks were opened inside the region,
with the number of open blocks there. The exit of the region itself leads out
of it. -/
def stepInside (n : NodeId) (depth : Nat) : List (NodeId × Nat) :=
  let node := g.node n
  let flags := node.flags isa
  if flags.blockExit then
    if depth = 0 then [] else node.successor.toList.map (·, depth - 1)
  else if flags.handlerSetup then
    node.successor.toList.map (·, depth + 1) ++ node.branch.toList.map (·, depth)
  else (g.targets isa n).reverse.map (·, depth)

/-- The members of the region opened at offset `start` with its handler at offset
`stop`, searched from the instruction after its opener. -/
def membersFrom (start stop : Nat) (first : Option NodeId) : List NodeId :=
  let inside := fun s : NodeId × Nat => isBetween g start stop s.1
  let next := fun s : NodeId × Nat => (stepInside isa g s.1 s.2).filter inside
  (explore Prod.fst next g.size ((first.toList.map (·, 0)).filter inside)).map Prod.fst

/-- The region that a node opens, if it opens one and both it and its handler have
offsets. -/
def regionOf? (n : NodeId) : Option Region := do
  let node := g.node n
  let handler ← node.branch
  let start ← node.offset
  let stop ← (g.node handler).offset
  if (node.flags isa).handlerSetup then
    some ⟨some n, handler, Std.HashSet.ofList (membersFrom isa g start stop node.successor)⟩
  else none

/-- The regions that the nodes open. -/
def reconstruct (nodes : List NodeId) : RegionTable := ⟨nodes.filterMap (regionOf? isa g)⟩

end RegionTable

end Wordcode
