/-
# What can go wrong

Every error ends the operation that met it. A trace that finds nothing is not
an error and does not appear here.

Key definitions: `DecodeError`, `GraphError`, `Error`, `Error.message`.
Key theorems: `bind_eq_ok_iff`.
-/
import Wordcode.Opcode

namespace Wordcode

/-- The pool that an index refers to. -/
inductive PoolKind where
  | constants
  | names
  | locals
  | cells
deriving DecidableEq

/-- Why a code stream or its line table cannot be decoded. Offsets are in
bytes. -/
inductive DecodeError where
  /-- The stream is not a whole number of code units. -/
  | truncatedStream (length : Nat)
  /-- There are no instructions. -/
  | emptyCode
  /-- An operand points past the end of its pool. -/
  | badPoolIndex (offset : Nat) (pool : PoolKind) (index : Nat)
  /-- A jump lands outside the stream or inside a code unit. -/
  | badJumpTarget (offset argument : Nat)
  /-- Extension units make an operand wider than 32 bits. -/
  | oversizedArgument (offset : Nat)
  /-- The last instruction falls through past the end. -/
  | fallsOffEnd (offset : Nat)
  /-- The line table does not fit the code. -/
  | malformedLineTable (position : Nat)
deriving DecidableEq

/-- Why a graph cannot be laid out or edited. -/
inductive GraphError where
  /-- An instruction falls through but has no successor. -/
  | danglingSuccessor (opcode : Opcode) (offset : Option Nat)
  /-- A jump has no branch target. -/
  | missingBranchTarget (opcode : Opcode) (offset : Option Nat)
  /-- A relative jump cannot express the way to its target. -/
  | invalidJumpDirection (opcode : Opcode) (source target : Nat)
  /-- An extension unit precedes no instruction. -/
  | strayExtension (offset : Nat)
  /-- Something was to be put after an instruction that never falls through. -/
  | insertAfterTerminal (opcode : Opcode)
  /-- A declared exception region has no entry or several. -/
  | regionEntry (entries : Nat)
deriving DecidableEq

/-- Why a code unit cannot be decoded, edited or encoded. -/
inductive Error where
  | decode (error : DecodeError)
  | graph (error : GraphError)
  /-- The widths of the operands did not settle. -/
  | relaxationDivergence (iterations unsatisfied : Nat)
  /-- An instruction has an operand of the wrong kind. -/
  | operandMismatch (opcode : Opcode) (expected found : OperandKind)
  /-- A pool index runs into the flag bits of its operand. -/
  | operandOverflow (opcode : Opcode) (index : Nat)
deriving DecidableEq

def PoolKind.label : PoolKind → String
  | .constants => "Constants"
  | .names => "Names"
  | .locals => "Locals"
  | .cells => "Cells"

def OperandKind.label : OperandKind → String
  | .none => "None"
  | .constant => "Constant"
  | .name => "Name"
  | .local => "Local"
  | .cell => "Cell"
  | .relativeJump => "RelativeJump"
  | .absoluteJump => "AbsoluteJump"
  | .raw => "Raw"

/-- An optional number in a message. -/
def optionLabel : Option Nat → String
  | some n => "Some(" ++ toString n ++ ")"
  | none => "None"

def DecodeError.message : DecodeError → String
  | .truncatedStream length =>
    "code stream of " ++ toString length ++ " bytes is not a whole number of units"
  | .emptyCode => "code stream is empty"
  | .badPoolIndex offset pool index =>
    "instruction at " ++ toString offset ++ " refers to " ++ pool.label ++ " entry " ++
      toString index ++ " which does not exist"
  | .badJumpTarget offset argument =>
    "jump at " ++ toString offset ++ " with argument " ++ toString argument ++
      " does not land on an instruction"
  | .oversizedArgument offset =>
    "operand of instruction at " ++ toString offset ++ " exceeds 32 bits"
  | .fallsOffEnd offset =>
    "instruction at " ++ toString offset ++ " falls through past the end"
  | .malformedLineTable position => "line table entry " ++ toString position ++ " is malformed"

def GraphError.message : GraphError → String
  | .danglingSuccessor opcode offset =>
    "opcode " ++ toString opcode.toNat ++ " (offset " ++ optionLabel offset ++
      ") falls through but has no successor"
  | .missingBranchTarget opcode offset =>
    "jump opcode " ++ toString opcode.toNat ++ " (offset " ++ optionLabel offset ++
      ") has no branch target"
  | .invalidJumpDirection opcode source target =>
    "relative jump opcode " ++ toString opcode.toNat ++ " cannot jump from " ++ toString source ++
      " to " ++ toString target
  | .strayExtension offset =>
    "extended argument slot at " ++ toString offset ++ " has no instruction"
  | .insertAfterTerminal opcode =>
    "cannot insert after opcode " ++ toString opcode.toNat ++ " which never falls through"
  | .regionEntry entries =>
    "exception region must have exactly one entry, found " ++ toString entries

/-- The message of an error. -/
def Error.message : Error → String
  | .decode e => "decode error: " ++ e.message
  | .graph e => "inconsistent instruction graph: " ++ e.message
  | .relaxationDivergence iterations unsatisfied =>
    "operand relaxation did not converge after " ++ toString iterations ++ " iterations (" ++
      toString unsatisfied ++ " instructions still too narrow)"
  | .operandMismatch opcode expected found =>
    "opcode " ++ toString opcode.toNat ++ " expects a " ++ expected.label ++
      " operand but has a " ++ found.label ++ " operand"
  | .operandOverflow opcode index =>
    "pool index " ++ toString index ++ " does not fit in the operand of opcode " ++
      toString opcode.toNat

/-- Two steps succeed together when each of them does. -/
theorem bind_eq_ok_iff {ε α β : Type} {x : Except ε α} {f : α → Except ε β} {b : β} :
    x >>= f = .ok b ↔ ∃ a, x = .ok a ∧ f a = .ok b := by
  cases x with
  | error e => simp [bind, Except.bind]
  | ok a => simp [bind, Except.bind]

end Wordcode
