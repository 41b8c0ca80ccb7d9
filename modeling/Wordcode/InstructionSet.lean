/-
# Instruction sets

An instruction set describes each of the 256 opcode numbers, the unit of its
jump operands, the format of its line tables, and the opcodes that the
assembler itself has to write: extension units, jumps, and the instructions
that open and close an exception block. It is a value that is only read; an
edit (`withOpcode`, `withPacking`) gives another instruction set.

Key definitions: `OpcodeInfo`, `InstructionSet`, `InstructionSet.info`,
`InstructionSet.withOpcode`.
Key theorems: `InstructionSet.info_withOpcode_self`,
`InstructionSet.info_withOpcode_ne`, `InstructionSet.flags_withOpcode`,
`InstructionSet.flags_withPacking`.
-/
import Wordcode.StackEffect
import Wordcode.FlagPacking

namespace Wordcode

/-- The unit in which jump operands count. -/
inductive JumpUnit where
  | bytes
  | instructions
deriving DecidableEq, Inhabited

/-- The bytes in one unit of a jump operand. -/
def JumpUnit.size : JumpUnit → Nat
  | .bytes => 1
  | .instructions => 2

/-- The format of a line table. -/
inductive LineFormat where
  /-- A pair of deltas at every change of line. -/
  | lnotab
  /-- Consecutive address ranges, each with its line or with none. -/
  | ranges
deriving DecidableEq, Inhabited

/-- What an instruction set knows about an opcode number. -/
structure OpcodeInfo where
  name : String
  flags : Flags
  operand : OperandKind
  effect : EffectRule
  packing : FlagPacking := .none
deriving Inhabited

/-- The description of a number nobody has described: its argument is kept as
a plain number and its effect is not known. -/
def OpcodeInfo.unknown : OpcodeInfo where
  name := ""
  flags := { hasArgument := true }
  operand := .raw
  effect := .unknown

/-- The instruction set of one interpreter version. -/
structure InstructionSet where
  name : String
  opcodes : Vector OpcodeInfo 256
  jumpUnit : JumpUnit
  lineFormat : LineFormat
  /-- The extension unit, which carries high digits of an operand. -/
  extension : Opcode
  /-- The jump written where the target is known to lie ahead. -/
  jumpForward : Opcode
  /-- The jump written where the target may lie anywhere. -/
  jumpAbsolute : Opcode
  /-- Opens an exception block. -/
  handlerSetup : Opcode
  /-- Closes an exception block. -/
  blockExit : Opcode

namespace InstructionSet

variable (isa : InstructionSet)

/-- The description of an opcode. -/
def info (op : Opcode) : OpcodeInfo :=
  have := op.toNat_lt
  isa.opcodes[op.toNat]

/-- The flags of an opcode. -/
def flags (op : Opcode) : Flags := (isa.info op).flags

/-- The name of an opcode; a number without a known effect is shown in angle
brackets. -/
def opcodeName (op : Opcode) : String :=
  if (isa.info op).effect.isKnown then (isa.info op).name else "<" ++ toString op.toNat ++ ">"

/-- The effect of an opcode with operand `argument` along `edge`, if known. -/
def effect (op : Opcode) (argument : Nat) (edge : Edge) : Option StackEffect :=
  (isa.info op).effect.resolve argument edge

/-- The instruction set with one opcode described anew. -/
def withOpcode (op : Opcode) (info : OpcodeInfo) : InstructionSet :=
  { isa with opcodes := isa.opcodes.set op.toNat info op.toNat_lt }

/-- The instruction set with one opcode's operand packed differently. -/
def withPacking (op : Opcode) (packing : FlagPacking) : InstructionSet :=
  isa.withOpcode op { isa.info op with packing := packing }

theorem info_withOpcode_self (op : Opcode) (i : OpcodeInfo) : (isa.withOpcode op i).info op = i := by
  simp [info, withOpcode]

theorem info_withOpcode_ne {op op' : Opcode} (i : OpcodeInfo) (h : op ≠ op') :
    (isa.withOpcode op i).info op' = isa.info op' := by
  have : op.toNat ≠ op'.toNat := fun e => h (by
    obtain ⟨a⟩ := op; obtain ⟨b⟩ := op'
    simp only [Opcode.toNat] at e
    rw [UInt8.toNat_inj.mp e])
  simp [info, withOpcode, Vector.getElem_set_ne _ _ this]

theorem flags_withOpcode (op op' : Opcode) (i : OpcodeInfo) :
    (isa.withOpcode op i).flags op' = if op = op' then i.flags else isa.flags op' := by
  by_cases h : op = op'
  · rw [if_pos h, ← h, flags, info_withOpcode_self]
  · rw [if_neg h, flags, info_withOpcode_ne _ _ h]
    rfl

/-- How an operand is packed is not told by the flags. -/
theorem flags_withPacking (op op' : Opcode) (p : FlagPacking) :
    (isa.withPacking op p).flags op' = isa.flags op' := by
  rw [withPacking, flags_withOpcode]
  split
  · rename_i heq
    rw [← heq]
    rfl
  · rfl

end InstructionSet

end Wordcode
