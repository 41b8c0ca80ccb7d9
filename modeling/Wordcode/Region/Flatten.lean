/-
# Writing declared regions into the graph

A declared region becomes an instruction that opens the block, in front of the
one instruction by which the region is entered, and an exit on every way out:
on each edge that leaves the region, one exit for each target, and in front of
every return inside it. The return moves behind its exit, which takes its
place. A region that cannot be entered by exactly one instruction is refused.

Regions are written one after the other, in the order of the table, and
declared regions around one that is written take in the instructions added
inside them. When one is refused, those before it stay written.

Key definitions: `Flattening`, `Flattening.region`, `Flattening.all`.
-/
import Wordcode.Region
import Wordcode.Graph.Predecessors

namespace Wordcode

/-- A graph whose regions are being written. -/
structure Flattening where
  graph : Graph
  entry : NodeId
  table : RegionTable
deriving Inhabited

namespace Flattening

variable (isa : InstructionSet)

/-- The exits written so far: the graph, the exit for each target outside, and for
each added instruction the one it stands behind. -/
structure Exits where
  graph : Graph
  exitTo : List (NodeId × NodeId) := []
  added : List (NodeId × NodeId) := []

/-- Puts an exit in front of a return: the return moves to a new node, and the
exit takes the old one. -/
def Exits.beforeReturn (x : Exits) (n : NodeId) : Exits :=
  let node := x.graph.node n
  let moved := x.graph.size
  let g := x.graph.alloc { node with offset := none, successor := none, branch := none }
  { x with
    graph := g.modify n fun node =>
      { node.withOperand .none with
        opcode := isa.blockExit, successor := some moved, branch := none }
    added := (n, moved) :: x.added }

/-- Puts an exit on an edge that leaves the region. -/
def Exits.onEdge (x : Exits) (n : NodeId) (target : NodeId) (edge : Edge) : Exits :=
  match x.exitTo.lookup target with
  | some exit =>
    { x with graph := x.graph.redirect n edge (some exit), added := (n, exit) :: x.added }
  | none =>
    let exit := x.graph.size
    let position := (x.graph.node n).position
    let g := x.graph.alloc { opcode := isa.blockExit, successor := some target, position }
    { graph := g.redirect n edge (some exit)
      exitTo := (target, exit) :: x.exitTo
      added := (n, exit) :: x.added }

/-- Does an edge of a node with these flags leave the region? The way into a
handler does not count. -/
def leaves (inside : NodeId → Bool) (flags : Flags) (t : NodeId × Edge) : Bool :=
  !inside t.1 && !(t.2 == .branch && flags.handlerSetup)

/-- Closes every way out of the region at one member. -/
def Exits.atMember (inside : NodeId → Bool) (x : Exits) (n : NodeId) : Exits :=
  let flags := (x.graph.node n).flags isa
  if flags.returns then x.beforeReturn isa n
  else ((x.graph.edges isa n).filter (leaves inside flags)).foldl
    (fun x t => x.onEdge isa n t.1 t.2) x

/-- The members by which a region is entered: the entry of the code, and those
with a predecessor outside. -/
def entriesOf (index : PredecessorIndex) (inside : NodeId → Bool) (entry : NodeId)
    (members : List NodeId) : List NodeId :=
  members.filter fun n => n == entry || (index.predecessors n).any fun p => !inside p.1

/-- Adds the instruction that opens a block before `first`, and leads the edges
`outside` to it. -/
def opened (g : Graph) (handler first : NodeId) (outside : List (NodeId × Edge)) : Graph :=
  let setup := g.size
  let position := (g.node first).position
  outside.foldl (fun g p => g.redirect p.1 p.2 (some setup))
    (g.alloc { opcode := isa.handlerSetup, operand := .jump, successor := some first,
               branch := some handler, position })

/-- A region, some other than the one written, with the instructions that were
added inside it. -/
def enclose (setup : NodeId) (outside : List (NodeId × Edge)) (added : List (NodeId × NodeId))
    (r : Region) : Region :=
  if r.setup.isSome then r
  else
    let opener := if outside.any (r.members.contains ·.1) then [setup] else []
    let exits := (added.filter (r.members.contains ·.1)).map (·.2)
    { r with members := r.members.insertMany (opener ++ exits) }

/-- Writes the declared region at place `i` of the table. -/
def region (f : Flattening) (i : Nat) (r : Region) : Except GraphError Flattening :=
  let index := PredecessorIndex.build isa f.graph (f.entry :: f.table.handlers)
  let inside := r.members.contains
  let members := index.reachable.filter inside
  match entriesOf index inside f.entry members with
  | [first] =>
    let setup := f.graph.size
    let outside := (index.predecessors first).filter fun p => !inside p.1
    let g := opened isa f.graph r.handler first outside
    let x := members.foldl (Exits.atMember isa inside) { graph := g }
    let written := { r with setup := some setup, members := r.members.insertMany (x.exitTo.map (·.2)) }
    .ok { graph := x.graph
          entry := if first = f.entry then setup else f.entry
          table := ⟨f.table.regions.mapIdx fun j r =>
            if j = i then written else enclose setup outside x.added r⟩ }
  | entries => .error (.regionEntry entries.length)

/-- Writes the declared regions at the given places of the table, up to the first
that is refused. -/
def regionsAt (f : Flattening) : List Nat → Flattening × Except GraphError Unit
  | [] => (f, .ok ())
  | i :: rest =>
    match f.table.regions[i]? with
    | none => regionsAt f rest
    | some r =>
      if r.setup.isSome then regionsAt f rest
      else match f.region isa i r with
        | .ok f' => regionsAt f' rest
        | .error e => (f, .error e)

/-- Writes every declared region of the table. -/
def all (f : Flattening) : Flattening × Except GraphError Unit :=
  f.regionsAt isa (List.range f.table.regions.length)

end Flattening

end Wordcode
