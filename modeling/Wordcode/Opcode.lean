/-
# Opcodes and what their flags say

An opcode is the number in the first byte of a code unit. What the number
means is up to an instruction set; this module has the vocabulary in which an
instruction set speaks about it: the flags that govern control flow and
encoding, the kinds of operand, and the two edges by which control leaves an
instruction.

Key definitions: `Opcode`, `Flags`, `Flags.ofBits`, `OperandKind`, `Edge`.
Key theorems: `Flags.ofBits_toBits`.
-/

namespace Wordcode

/-- The number in the opcode byte of a code unit. -/
structure Opcode where
  number : UInt8
deriving DecidableEq, Inhabited

/-- The opcode of a number below 256 (higher numbers wrap). -/
def Opcode.ofNat (n : Nat) : Opcode := ⟨n.toUInt8⟩

/-- The number of an opcode. -/
def Opcode.toNat (op : Opcode) : Nat := op.number.toNat

theorem Opcode.toNat_lt (op : Opcode) : op.toNat < 256 := op.number.toNat_lt

/-- Control flow and encoding properties of an opcode. -/
structure Flags where
  /-- The argument byte is meaningful. -/
  hasArgument : Bool := false
  /-- The operand is the address of the branch target. -/
  jumpAbsolute : Bool := false
  /-- The operand is a distance from the end of the instruction. -/
  jumpRelative : Bool := false
  /-- The distance of a relative jump is measured backwards. -/
  jumpBackward : Bool := false
  /-- A jump that is always taken. -/
  unconditional : Bool := false
  /-- Execution ends here (a return, a raise). -/
  stopsFlow : Bool := false
  /-- Leaves the function normally. -/
  returns : Bool := false
  /-- An extension unit: it carries high digits of the next instruction's
  operand. -/
  extension : Bool := false
  /-- Does nothing. -/
  noOp : Bool := false
  /-- Opens an exception block whose handler is the branch target. -/
  handlerSetup : Bool := false
  /-- Closes the innermost exception block. -/
  blockExit : Bool := false
deriving DecidableEq, Inhabited

namespace Flags

/-- The flags of a bit set, lowest bit first. Bits from 11 on mean nothing. -/
def ofBits (bits : Nat) : Flags where
  hasArgument := bits.testBit 0
  jumpAbsolute := bits.testBit 1
  jumpRelative := bits.testBit 2
  jumpBackward := bits.testBit 3
  unconditional := bits.testBit 4
  stopsFlow := bits.testBit 5
  returns := bits.testBit 6
  extension := bits.testBit 7
  noOp := bits.testBit 8
  handlerSetup := bits.testBit 9
  blockExit := bits.testBit 10

/-- The flags as a bit set. -/
def toBits (f : Flags) : Nat :=
  f.hasArgument.toNat + 2 * f.jumpAbsolute.toNat + 4 * f.jumpRelative.toNat +
    8 * f.jumpBackward.toNat + 16 * f.unconditional.toNat + 32 * f.stopsFlow.toNat +
    64 * f.returns.toNat + 128 * f.extension.toNat + 256 * f.noOp.toNat +
    512 * f.handlerSetup.toNat + 1024 * f.blockExit.toNat

/-- Reading a bit set of flags gives the flags back. -/
theorem ofBits_toBits (f : Flags) : ofBits f.toBits = f := by
  obtain ⟨a, b, c, d, e, g, h, i, j, k, l⟩ := f
  revert a b c d e g h i j k l
  decide +kernel

/-- Has the opcode a branch target? -/
def isJump (f : Flags) : Bool := f.jumpAbsolute || f.jumpRelative

/-- Can execution go on at the successor? -/
def fallsThrough (f : Flags) : Bool := !(f.stopsFlow || f.unconditional)

end Flags

/-- What the operand of an opcode refers to. -/
inductive OperandKind where
  /-- No operand. -/
  | none
  /-- Index into the constants. -/
  | constant
  /-- Index into the names. -/
  | name
  /-- Index into the local variables. -/
  | local
  /-- Index into the cell variables followed by the free variables. -/
  | cell
  /-- Distance of a jump. -/
  | relativeJump
  /-- Address of a jump. -/
  | absoluteJump
  /-- A plain number. -/
  | raw
deriving DecidableEq, Inhabited

/-- Is the operand computed from a branch target? -/
def OperandKind.isJump : OperandKind → Bool
  | .relativeJump | .absoluteJump => true
  | _ => false

/-- The edge by which control leaves an instruction. -/
inductive Edge where
  /-- On to the successor. -/
  | fallthrough
  /-- Off to the branch target. -/
  | branch
deriving DecidableEq, Hashable, Inhabited

end Wordcode
