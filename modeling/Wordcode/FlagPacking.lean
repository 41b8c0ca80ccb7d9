/-
# Flag bits packed next to a pool index

Some load instructions keep a few flag bits in the same operand as their pool
index. Reading an operand splits it into index and flags; writing joins them,
and fails when the index would run into the flag bits. Operands are 32 bits
wide, and all numbers here are below `UInt32.size`.

Key definitions: `FlagPacking`, `FlagPacking.split`, `FlagPacking.join`.
-/

namespace Wordcode

/-- How an operand shares its bits between a pool index and flags. -/
inductive FlagPacking where
  /-- All bits are the index. -/
  | none
  /-- The low `bits` bits are flags, the index is above them. -/
  | lowBits (bits : Nat)
  /-- Bit `bit` is a flag, the other bits are the index. -/
  | highBit (bit : Nat)
deriving DecidableEq, Inhabited

namespace FlagPacking

/-- Index and flags of an operand. -/
def split : FlagPacking → Nat → Nat × Nat
  | .none, argument => (argument, 0)
  | .lowBits n, argument => (argument >>> n, argument % 1 <<< n)
  | .highBit b, argument =>
    if argument.testBit b then (argument - 1 <<< b, 1 <<< b) else (argument, 0)

/-- The operand of an index and flags, if the index leaves the flag bits
free: it must fit above `n` low flag bits in 32 bits, or lie below the flag
bit. -/
def join : FlagPacking → Nat → Nat → Option Nat
  | .none, index, _ => some index
  | .lowBits n, index, flags =>
    if UInt32.size ≤ index <<< n then Option.none else some (index <<< n ||| flags)
  | .highBit b, index, flags =>
    if 1 <<< b ≤ index then Option.none else some (index ||| flags)

end FlagPacking

end Wordcode
