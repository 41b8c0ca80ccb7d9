/-
# Code units

A code unit is one function being edited: its graph and entry, its pools and
header, and its exception regions. Decoding makes one from a code object and
encoding gives a code object back.

The predecessor index is built when it is first asked for and dropped by the
unit's own edits. Edits of single nodes do not drop it, so after them it
describes the graph as it was.

Key definitions: `CodeUnit`, `CodeUnit.decode`, `CodeUnit.ofGraph`,
`CodeUnit.encode`, `CodeUnit.optimise`, `CodeUnit.remove`, `CodeUnit.indexed`.
-/
import Wordcode.LineTable
import Wordcode.Stream
import Wordcode.Region.Flatten
import Wordcode.Assembly
import Wordcode.Simplify
import Wordcode.StackDepth
import Wordcode.Graph.Copy
import Wordcode.Graph.Splice
import Wordcode.Listing

namespace Wordcode

/-- A function being edited. -/
structure CodeUnit where
  isa : InstructionSet
  graph : Graph
  /-- The first instruction to run. -/
  entry : NodeId
  /-- The pools the code was read with or last written with. -/
  pools : Pools
  header : Header
  exceptions : RegionTable := {}
  predecessors? : Option PredecessorIndex := none

namespace CodeUnit

/-- The same node at a source line. -/
def atLine (node : Node) (line : LineTable.Line) : Node :=
  { node with position := line.map (⟨·, none⟩) }

/-- A graph whose nodes, in order, stand at the given lines. -/
def withLines (g : Graph) (lines : List LineTable.Line) : Graph :=
  ⟨Array.zipWith atLine g.nodes lines.toArray⟩

/-- The unit of a code object. -/
def decode (isa : InstructionSet) (object : CodeObject) : Except Error CodeUnit :=
  match Stream.decode isa object.code object.pools with
  | .error e => .error (.decode e)
  | .ok g =>
    match LineTable.decode isa.lineFormat object.lineTable object.header.firstlineno g.size with
    | .error e => .error (.decode e)
    | .ok lines =>
      let graph := withLines g lines
      .ok { isa, graph, entry := 0, pools := object.pools, header := object.header
            exceptions := RegionTable.reconstruct isa graph (List.range graph.size) }

/-- The unit of a graph, with no regions declared. -/
def ofGraph (isa : InstructionSet) (graph : Graph) (entry : NodeId) (pools : Pools)
    (header : Header) : CodeUnit :=
  { isa, graph, entry, pools, header }

variable (u : CodeUnit)

/-- The entry and the handlers. -/
def roots : List NodeId := u.entry :: u.exceptions.handlers

/-- The unit with a predecessor index of the graph as it is now. -/
def rebuilt : CodeUnit :=
  { u with predecessors? := some (PredecessorIndex.build u.isa u.graph u.roots) }

/-- The predecessor index, and the unit that holds it. -/
def indexed : PredecessorIndex × CodeUnit :=
  match u.predecessors? with
  | some index => (index, u)
  | none =>
    let index := PredecessorIndex.build u.isa u.graph u.roots
    (index, { u with predecessors? := some index })

/-- The instructions that may have pushed a value that is on the stack just before
`n`. -/
def producers (n : NodeId) (depth : Nat) : List NodeId × CodeUnit :=
  let (index, u) := u.indexed
  (Trace.producers u.isa u.graph index n depth, u)

/-- The instructions that may pop a value that is on the stack just after `n`. -/
def consumers (n : NodeId) (depth : Nat) : List NodeId := Trace.consumers u.isa u.graph n depth

/-- Leads all edges past trivial instructions, from every handler and then from
the entry; the handlers follow. -/
def optimise : CodeUnit :=
  let fromHandlers := u.exceptions.handlers.foldl (fun g h => (g.optimise u.isa h).1) u.graph
  let (graph, entry) := fromHandlers.optimise u.isa u.entry
  { u with
    graph, entry
    exceptions := u.exceptions.remapHandlers (graph.skipTrivial u.isa)
    predecessors? := none }

/-- Takes an instruction out of the code. A failure leaves the index in place. -/
def remove (n : NodeId) : CodeUnit × Except GraphError Unit :=
  let (index, u) := u.indexed
  match u.graph.remove u.isa index u.entry n with
  | .error e => (u, .error e)
  | .ok (graph, entry) => ({ u with graph, entry, predecessors? := none }, .ok ())

/-- Adds a copy of what can be reached from a node of another graph, without pool
indices; gives the number of the copy of that node. -/
def importFragment (source : Graph) (root : NodeId) : CodeUnit × NodeId :=
  let (graph, n) := u.graph.copyFrom source root false
  ({ u with graph }, n)

/-- The listing of the code. -/
def listing (codeName : Nat → String) : String := u.graph.listing codeName u.isa u.roots

/-- Writes the declared regions into the graph; a failure keeps those that were
written. -/
def flatten : CodeUnit × Except GraphError Unit :=
  let (f, outcome) := Flattening.all u.isa ⟨u.graph, u.entry, u.exceptions⟩
  ({ u with graph := f.graph, entry := f.entry, exceptions := f.table }, outcome)

/-- The header of encoded code: the stack is at least as large as the code from
the entry needs it, as far as that is known, and the locals are counted. -/
def encodedHeader (g : Graph) (entry : NodeId) (pools : Pools) (h : Header) (isa : InstructionSet) :
    Header :=
  { h with
    stacksize := max h.stacksize ((maxStackDepth isa g [entry]).getD 0)
    nlocals := pools.locals.size }

/-- The first unit and the line of each node of assembled code. -/
def lineRuns (g : Graph) (a : Assembled) : List (Nat × LineTable.Line) :=
  (a.layout.zip a.units).map fun p => (p.2, (g.node p.1).position.map (·.line))

/-- The code object of the unit, whose pools and header it takes over. The graph
keeps the instructions that were added for regions and jumps, also when a later
step fails. -/
def encode : CodeUnit × Except Error (CodeObject × EncodeStats) :=
  match { u with predecessors? := none }.flatten with
  | (u, .error e) => (u, .error (.graph e))
  | (u, .ok ()) =>
    match u.graph.assemble u.isa u.entry u.exceptions.handlers u.pools with
    | (graph, .error e) => ({ u with graph }, .error e)
    | (graph, .ok a) =>
      let header := encodedHeader graph u.entry a.pools u.header u.isa
      let lineTable := LineTable.encode u.isa.lineFormat u.header.firstlineno (lineRuns graph a)
        a.totalUnits
      ({ u with graph, pools := a.pools, header },
        .ok ({ header, code := a.code, pools := a.pools, lineTable }, a.stats))

end CodeUnit

end Wordcode
