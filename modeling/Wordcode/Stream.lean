/-
# Reading a code stream

A code stream is a sequence of code units. Each becomes a node, with the
number of the unit: extension units stay as nodes of their own, and their
digits go into the operand of the instruction they precede. A jump that lands
on an extension unit keeps pointing there.

The stream is read in two passes. The first one folds digits and resolves
operands, the second one sets the edges; so a bad operand anywhere is found
before a bad edge.

Key definitions: `Stream.readNodes`, `Stream.jumpTarget?`, `Stream.linkNodes`,
`Stream.decode`.
Key theorems: `Stream.length_readNodes`.
-/
import Wordcode.Graph
import Wordcode.Record
import Wordcode.Error
import Wordcode.CodeObject

namespace Wordcode

namespace Stream

/-- The pool in which operands of a kind are looked up, if there is one. -/
def poolOf? : OperandKind → Option PoolKind
  | .constant => some .constants
  | .name => some .names
  | .local => some .locals
  | .cell => some .cells
  | _ => none

/-- The pool entry at an index, as an operand. -/
def entry? (pools : Pools) (pool : PoolKind) (index : Nat) : Option Operand :=
  match pool with
  | .constants => pools.constants[index]?.map .constant
  | .names => pools.names[index]?.map .name
  | .locals => pools.locals[index]?.map .local
  | .cells => (pools.cellName? index).map .cell

/-- The operand of a kind that needs no pool. -/
def plainOperand (kind : OperandKind) (argument : Nat) : Operand :=
  match kind with
  | .raw => .raw argument
  | .relativeJump | .absoluteJump => .jump
  | _ => .none

/-- The node of an instruction with a given argument. -/
def readOperand (pools : Pools) (info : OpcodeInfo) (argument offset : Nat) (node : Node) :
    Except DecodeError Node :=
  match poolOf? info.operand with
  | none => .ok { node with operand := plainOperand info.operand argument }
  | some pool =>
    let (index, flags) := info.packing.split argument
    match entry? pools pool index with
    | some operand =>
      .ok { node with operand, poolHint := some index, operandFlags := flags }
    | none => .error (.badPoolIndex offset pool index)

variable (isa : InstructionSet)

/-- The node of one code unit, without edges. -/
def readNode (pools : Pools) (word : Word) (argument offset : Nat) : Except DecodeError Node :=
  let node : Node := { opcode := word.opcode, offset := some offset }
  let info := isa.info word.opcode
  if !info.flags.extension && info.flags.hasArgument then
    readOperand pools info argument offset node
  else .ok node

/-- The nodes of the code units from byte `offset` on, with their folded
arguments; `pending` is the value of the digits of the extension units just
before. -/
def readNodes (pools : Pools) : List Word → (offset pending : Nat) →
    Except DecodeError (List (Node × Nat))
  | [], _, _ => .ok []
  | word :: rest, offset, pending =>
    let argument := pending * 256 + word.arg.toNat
    if UInt32.size ≤ argument then .error (.oversizedArgument offset)
    else do
      let node ← readNode isa pools word argument offset
      let later ← readNodes pools rest (offset + 2)
        (if (isa.flags word.opcode).extension then argument else 0)
      return (node, argument) :: later

/-- The unit on which a jump lands: an address for an absolute jump, a distance
from the end of the instruction for a relative one. It has to be the first byte
of a unit within the code. -/
def jumpTarget? (flags : Flags) (argument offset size : Nat) : Option NodeId :=
  let distance := argument * isa.jumpUnit.size
  let finish := offset + 2
  let address? := if flags.jumpAbsolute then some distance
    else if flags.jumpBackward then if distance ≤ finish then some (finish - distance) else none
    else some (finish + distance)
  match address? with
  | some address => if address % 2 = 0 ∧ address < size then some (address / 2) else none
  | none => none

/-- The node of unit `index` with its edges, in code of `count` units. -/
def linkNode (count index : Nat) (node : Node) (argument : Nat) : Except DecodeError Node := do
  let flags := node.flags isa
  let successor ← if flags.fallsThrough then
      if index + 1 < count then pure (some (index + 1)) else .error (.fallsOffEnd (index * 2))
    else pure none
  let branch ← if flags.isJump then
      match jumpTarget? isa flags argument (index * 2) (count * 2) with
      | some target => pure (some target)
      | none => .error (.badJumpTarget (index * 2) argument)
    else pure none
  return { node with successor, branch }

/-- The nodes from unit `index` on with their edges. -/
def linkNodes (count : Nat) : List (Node × Nat) → (index : Nat) → Except DecodeError (List Node)
  | [], _ => .ok []
  | (node, argument) :: rest, index => do
    let linked ← linkNode isa count index node argument
    let later ← linkNodes count rest (index + 1)
    return linked :: later

/-- The graph of a code stream: node `k` is code unit `k`. -/
def decode (code : List UInt8) (pools : Pools) : Except DecodeError Graph := do
  match Record.readAll 2 code with
  | .error _ => .error (.truncatedStream code.length)
  | .ok [] => .error .emptyCode
  | .ok pairs =>
    let nodes ← readNodes isa pools (pairs.map Word.ofPair) 0 0
    let linked ← linkNodes isa nodes.length nodes 0
    return ⟨linked.toArray⟩

theorem length_readNodes (pools : Pools) : ∀ (words : List Word) (offset pending : Nat)
    {nodes : List (Node × Nat)}, readNodes isa pools words offset pending = .ok nodes →
      nodes.length = words.length
  | [], _, _, nodes, h => by injection h with h; subst h; rfl
  | word :: rest, offset, pending, nodes, h => by
    rw [readNodes] at h
    split at h
    · cases h
    · cases hn : readNode isa pools word (pending * 256 + word.arg.toNat) offset with
      | error e => rw [hn] at h; cases h
      | ok node =>
        rw [hn] at h
        cases hl : readNodes isa pools rest (offset + 2)
          (if (isa.flags word.opcode).extension then pending * 256 + word.arg.toNat else 0) with
        | error e => simp only [bind, Except.bind, hl] at h; cases h
        | ok later =>
          simp only [bind, Except.bind, hl] at h
          injection h with h
          subst h
          simp [length_readNodes pools rest _ _ hl]

end Stream

end Wordcode
