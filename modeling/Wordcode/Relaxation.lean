/-
# How wide operands get

A code unit carries eight bits of an operand; the digits above them are carried
by extension units right before the instruction. Inserting such units moves
code and so changes jump distances, which may ask for more of them.

A layout is grouped into runs: an instruction with the extension units in front
of it, which are slots it keeps even if it does not need them. The number of
extension units of each run is then widened to what its operand needs, over and
over, until none is too narrow. Numbers of units only grow and an operand never
needs more than three, so this ends after at most `3 * n + 1` rounds for `n`
runs; the limit of `3 * n + 2` is never met.

Key definitions: `extraDigits`, `Run`, `Relaxation.runsOf`,
`Relaxation.operandsFor`, `Relaxation.widen`, `Relaxation.settle`,
`Relaxation.place`, `relax`.
-/
import Std.Data.HashMap
import Wordcode.Graph
import Wordcode.Record
import Wordcode.Error

namespace Wordcode

/-- How many digits beyond the low one a 32 bit operand needs. -/
def extraDigits (argument : Nat) : Nat :=
  if argument < 0x100 then 0
  else if argument < 0x10000 then 1
  else if argument < 0x1000000 then 2
  else 3

theorem extraDigits_le (argument : Nat) : extraDigits argument ≤ 3 := by
  unfold extraDigits
  split <;> (try split) <;> (try split) <;> omega

theorem extraDigits_mono {a b : Nat} (h : a ≤ b) : extraDigits a ≤ extraDigits b := by
  unfold extraDigits
  repeat' split
  all_goals omega

/-- An instruction of a layout with the extension units laid out before it. -/
structure Run where
  reserved : List NodeId
  instruction : NodeId
  /-- The operand, unless the instruction is a jump. -/
  argument : Nat
deriving Inhabited

/-- The nodes of a run, in their order. -/
def Run.nodes (r : Run) : List NodeId := r.reserved ++ [r.instruction]

/-- Code units, with what became of the layout in them. -/
structure Relaxed where
  words : List Word
  /-- For each node of the layout the first unit that belongs to it: for an
  instruction this is the first extension unit inserted for it. -/
  units : List Nat
  iterations : Nat
  /-- How many units there are beyond those of the layout. -/
  inserted : Nat
deriving Inhabited

namespace Relaxation

variable (isa : InstructionSet) (g : Graph)

/-- Puts a node of a layout, with its operand, before the runs that follow it. An
extension unit joins the next run, or is stray if there is none. -/
def addToRuns (item : NodeId × Nat) (later : List NodeId × List Run) : List NodeId × List Run :=
  let (n, argument) := item
  if (g.node n).isExtension isa then
    match later with
    | (stray, r :: runs) => (stray, { r with reserved := n :: r.reserved } :: runs)
    | (stray, []) => (n :: stray, [])
  else (later.1, ⟨[], n, argument⟩ :: later.2)

/-- The runs of a layout. Fails with the first extension unit that precedes no
instruction. -/
def runsOf (layout : List NodeId) (arguments : List Nat) : Except GraphError (List Run) :=
  match (layout.zip arguments).foldr (addToRuns isa g) ([], []) with
  | ([], runs) => .ok runs
  | (stray :: _, _) => .error (.strayExtension ((g.node stray).offset.getD 0))

/-- The number of the run to which each node belongs, the last one if it was laid
out more than once. -/
def owners (runs : List Run) : Std.HashMap NodeId Nat :=
  Std.HashMap.ofList (runs.zipIdx.flatMap fun r => r.1.nodes.map (·, r.2))

/-- The first units of runs with the given numbers of extension units, from unit
`start` on. -/
def startsFrom (start : Nat) : (widths : List Nat) → List Nat
  | [] => []
  | width :: rest => start :: startsFrom (start + width + 1) rest

/-- The operand of a jump of `width` extension units that starts at unit `start`,
when its target starts at unit `target`. Operands end at the largest 32 bit
number. -/
def distance (flags : Flags) (opcode : Opcode) (start width target : Nat) : Except GraphError Nat :=
  let finish := start + width + 1
  let operand := fun units => min (units * 2 / isa.jumpUnit.size) (UInt32.size - 1)
  if flags.jumpAbsolute then .ok (operand target)
  else if flags.jumpBackward ∧ target ≤ finish then .ok (operand (finish - target))
  else if ¬ flags.jumpBackward ∧ finish ≤ target then .ok (operand (target - finish))
  else .error (.invalidJumpDirection opcode (finish * 2) (target * 2))

/-- The operand of a run that starts at unit `start` with `width` extension
units. -/
def operandOf (owner : Std.HashMap NodeId Nat) (starts : Array Nat) (r : Run) (start width : Nat) :
    Except GraphError Nat :=
  let node := g.node r.instruction
  if node.isJump isa then
    match node.branch.bind (owner[·]?) with
    | some i => distance isa (node.flags isa) node.opcode start width (starts.getD i 0)
    | none => .error (.missingBranchTarget node.opcode node.offset)
  else .ok r.argument

/-- The operands of runs with the given starts and numbers of extension units. -/
def operandsFrom (owner : Std.HashMap NodeId Nat) (starts : Array Nat) :
    List Run → List Nat → List Nat → Except GraphError (List Nat)
  | r :: runs, start :: later, width :: widths => do
    let operand ← operandOf isa g owner starts r start width
    let operands ← operandsFrom owner starts runs later widths
    return operand :: operands
  | _, _, _ => .ok []

/-- The operands of all runs when each has the given number of extension units. -/
def operandsFor (owner : Std.HashMap NodeId Nat) (runs : List Run) (widths : List Nat) :
    Except GraphError (List Nat) :=
  let starts := startsFrom 0 widths
  operandsFrom isa g owner starts.toArray runs starts widths

/-- The numbers of extension units, widened to what the operands need. -/
def widen (widths operands : List Nat) : List Nat :=
  List.zipWith (fun width operand => max width (extraDigits operand)) widths operands

/-- How many operands need more extension units than there are. -/
def tooNarrow (widths operands : List Nat) : Nat :=
  (widths.zip operands).countP fun p => p.1 < extraDigits p.2

/-- Numbers of extension units that are wide enough for the operands they lead
to, and how they were found. -/
structure Settled where
  widths : List Nat
  operands : List Nat
  iterations : Nat
deriving Inhabited

/-- Widens until no operand is too narrow, with `left` more rounds allowed after
this one, which is number `iteration`. -/
def settle (owner : Std.HashMap NodeId Nat) (runs : List Run) :
    (left : Nat) → (iteration : Nat) → (widths : List Nat) → Except Error Settled
  | left, iteration, widths =>
    match operandsFor isa g owner runs widths with
    | .error e => .error (.graph e)
    | .ok operands =>
      match tooNarrow widths operands, left with
      | 0, _ => .ok ⟨widths, operands, iteration⟩
      | narrow + 1, 0 => .error (.relaxationDivergence iteration (narrow + 1))
      | _ + 1, left + 1 => settle owner runs left (iteration + 1) (widen widths operands)

/-- The digit of an operand with `place` lower digits. -/
def digit (operand place : Nat) : UInt8 := (operand >>> (8 * place)).toUInt8

/-- The extension units with the `width` digits above the low one. -/
def extensionWords (operand : Nat) : (width : Nat) → List Word
  | 0 => []
  | width + 1 => ⟨isa.extension, digit operand (width + 1)⟩ :: extensionWords operand width

/-- A run in the code: its first unit, its number of extension units and its
operand. -/
structure Placed where
  run : Run
  start : Nat
  width : Nat
  operand : Nat
deriving Inhabited

/-- Runs one after the other, from unit `start` on, with the given numbers of
extension units and operands. -/
def place (start : Nat) : List Run → (widths operands : List Nat) → List Placed
  | run :: runs, width :: widths, operand :: operands =>
    ⟨run, start, width, operand⟩ :: place (start + width + 1) runs widths operands
  | _, _, _ => []

/-- The code units of a run. -/
def wordsOf (p : Placed) : List Word :=
  extensionWords isa p.operand p.width ++ [⟨(g.node p.run.instruction).opcode, digit p.operand 0⟩]

/-- The first unit of each node of a run: an extension unit inserted for the
instruction belongs to the instruction. -/
def unitsOf (p : Placed) : List Nat := (List.range (p.run.reserved.length + 1)).map (p.start + ·)

/-- The offsets of the nodes of a run: its reserved units come first, its
instruction last. -/
def offsetsOf (p : Placed) : List (NodeId × Nat) :=
  p.run.reserved.zipIdx.map (fun n => (n.1, (p.start + n.2) * 2)) ++
    [(p.run.instruction, (p.start + p.width) * 2)]

/-- Binds nodes to offsets. -/
def bind (g : Graph) (offsets : List (NodeId × Nat)) : Graph :=
  offsets.foldl (fun g p => g.modify p.1 ({ · with offset := some p.2 })) g

end Relaxation

open Relaxation in
/-- The code units of a layout. `arguments` holds, for each node of the layout,
its operand, which counts unless it is a jump or an extension unit. Jumps lead
to the first extension unit of their target. The graph has the nodes bound to
their offsets in the code. -/
def relax (isa : InstructionSet) (g : Graph) (layout : List NodeId) (arguments : List Nat) :
    Except Error (Graph × Relaxed) :=
  match runsOf isa g layout arguments with
  | .error e => .error (.graph e)
  | .ok runs =>
    let reserved := runs.map (·.reserved.length)
    match settle isa g (owners runs) runs (3 * runs.length + 1) 1 reserved with
    | .error e => .error e
    | .ok s =>
      let placed := place 0 runs s.widths s.operands
      let words := placed.flatMap (wordsOf isa g)
      .ok (bind g (placed.flatMap offsetsOf),
        { words
          units := placed.flatMap unitsOf
          iterations := s.iterations
          inserted := words.length - layout.length })

end Wordcode
