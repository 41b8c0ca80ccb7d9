/-
# From a graph to code

Assembly lays the graph out, interns the operands into the pools, turns each
operand into a number and widens the instructions to hold it. Pools only grow,
so entries that are in use keep their index. The index of a free variable is
known only when all cells are in, so operands are first collected and then
numbered.

A failure may leave traces in the graph: once it is laid out, its jumps and
offsets stay, and once operands are numbered, so do their pool indices.

Key definitions: `Assembly.collect`, `Assembly.number`, `Graph.assemble`.
-/
import Wordcode.Layout
import Wordcode.Relaxation
import Wordcode.Pool.Growth

namespace Wordcode

/-- How much work an assembly was: rounds of widening, and extension units
added to those that were there. -/
structure EncodeStats where
  iterations : Nat
  inserted : Nat
deriving DecidableEq, Inhabited

/-- The code of a graph, with the pools that it indexes. -/
structure Assembled where
  words : List Word
  pools : Pools
  /-- The nodes in the order of the code. -/
  layout : List NodeId
  /-- The first code unit of each node of the layout. -/
  units : List Nat
  stats : EncodeStats
deriving Inhabited

namespace Assembled

/-- The bytes of the code. -/
def code (a : Assembled) : List UInt8 := a.words.flatMap Word.toBytes

/-- The length of the code in units. -/
def totalUnits (a : Assembled) : Nat := a.words.length

end Assembled

namespace Assembly

/-- An operand on the way to its number. -/
inductive Collected where
  | ready (value : Nat)
  | pooled (index flags : Nat)
  | cell (place : CellRef) (flags : Nat)
deriving Inhabited

variable (isa : InstructionSet)

/-- Interns the operand of a node. -/
def collectOperand (node : Node) (growth : PoolGrowth) : Collected × PoolGrowth :=
  match node.operand with
  | .none | .jump => (.ready 0, growth)
  | .raw value => (.ready value, growth)
  | .constant c =>
    let (i, growth) := growth.internConstant c node.poolHint
    (.pooled i node.operandFlags, growth)
  | .name s =>
    let (i, growth) := growth.internName s node.poolHint
    (.pooled i node.operandFlags, growth)
  | .local s =>
    let (i, growth) := growth.internLocal s node.poolHint
    (.pooled i node.operandFlags, growth)
  | .cell s =>
    let (place, growth) := growth.internCell s node.poolHint
    (.cell place node.operandFlags, growth)

/-- Interns the operands of a layout in its order. Extension units have none,
and every other instruction must have one of the kind its opcode expects. -/
def collect (g : Graph) : List NodeId → PoolGrowth → (done : Array Collected) →
    Except Error (Array Collected × PoolGrowth)
  | [], growth, done => .ok (done, growth)
  | n :: rest, growth, done =>
    let node := g.node n
    if node.isExtension isa then collect g rest growth (done.push (.ready 0))
    else
      let expected := (isa.info node.opcode).operand
      if node.operand.fits expected then
        let (operand, growth) := collectOperand node growth
        collect g rest growth (done.push operand)
      else .error (.operandMismatch node.opcode expected node.operand.kind)

/-- The pool index and flags of an operand that has them. -/
def poolIndex? (growth : PoolGrowth) : Collected → Option (Nat × Nat)
  | .ready _ => none
  | .pooled index flags => some (index, flags)
  | .cell place flags => some (growth.cellIndex place, flags)

/-- Numbers the operands of a layout in its order, and notes the pool index of
each at its node. Stops at an index that runs into flag bits. -/
def number (growth : PoolGrowth) : List (NodeId × Collected) → (g : Graph) → (done : Array Nat) →
    Graph × Except Error (List Nat)
  | [], g, done => (g, .ok done.toList)
  | (_, .ready value) :: rest, g, done => number growth rest g (done.push value)
  | (n, operand) :: rest, g, done =>
    match poolIndex? growth operand with
    | none => number growth rest g done
    | some (index, flags) =>
      let opcode := (g.node n).opcode
      let g := g.modify n ({ · with poolHint := some index })
      match (isa.info opcode).packing.join index flags with
      | some argument => number growth rest g (done.push argument)
      | none => (g, .error (.operandOverflow opcode index))

end Assembly

open Assembly in
/-- The code of everything that execution can get to from the entry and the
handlers. -/
def Graph.assemble (isa : InstructionSet) (g : Graph) (entry : NodeId) (handlers : List NodeId)
    (pools : Pools) : Graph × Except Error Assembled :=
  match g.linearize isa entry handlers with
  | .error e => (g, .error (.graph e))
  | .ok (g, layout) =>
    match collect isa g layout (.ofPools pools) #[] with
    | .error e => (g, .error e)
    | .ok (operands, growth) =>
      match number isa growth (layout.zip operands.toList) g #[] with
      | (g, .error e) => (g, .error e)
      | (g, .ok arguments) =>
        match relax isa g layout arguments with
        | .error e => (g, .error e)
        | .ok (g, r) =>
          (g, .ok { words := r.words, pools := growth.pools, layout, units := r.units,
                    stats := ⟨r.iterations, r.inserted⟩ })

end Wordcode
