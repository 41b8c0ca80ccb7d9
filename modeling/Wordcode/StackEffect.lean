/-
# What an instruction does to the value stack

An effect pops some values and pushes others. Some of the pushed values may
be copies of popped ones (`dup`, `rot` and the like): `forwards` says, for
each output depth, which input depth it copies, and the traces of
`Wordcode.Trace` see through such instructions by it.

The effect may depend on the operand or on the edge taken; a rule for an
opcode resolves to an effect once both are given, and an opcode the
instruction set does not know has none.

Key definitions: `StackEffect`, `StackEffect.sourceOf`, `StackEffect.copiesOf`,
`EffectRule`, `EffectRule.resolve`.
Key theorems: `StackEffect.mem_copiesOf`.
-/
import Wordcode.Opcode

namespace Wordcode

/-- Values popped, then values pushed. Entry `d` of `forwards` is the depth,
counted from the top before the instruction, of the value of which the pushed
value at depth `d` is a copy. -/
structure StackEffect where
  pushed : Nat
  popped : Nat
  forwards : List (Option Nat) := []
deriving DecidableEq, Inhabited

namespace StackEffect

/-- Nothing happens to the stack. -/
def nothing : StackEffect := ⟨0, 0, []⟩

/-- The change of the stack's height. -/
def net (e : StackEffect) : Int := (e.pushed : Int) - (e.popped : Int)

/-- The input depth that the pushed value at `depth` copies, if it is a copy. -/
def sourceOf (e : StackEffect) (depth : Nat) : Option Nat := (e.forwards[depth]?).join

/-- The output depths of the entries of `forwards`, from depth `out` on, that
copy the input at `depth`. -/
def copiesFrom (depth : Nat) : List (Option Nat) → Nat → List Nat
  | [], _ => []
  | source :: rest, out =>
    if source = some depth then out :: copiesFrom depth rest (out + 1)
    else copiesFrom depth rest (out + 1)

/-- The output depths that hold a copy of the input at `depth`, ascending. -/
def copiesOf (e : StackEffect) (depth : Nat) : List Nat := copiesFrom depth e.forwards 0

theorem mem_copiesFrom (depth : Nat) : ∀ (fs : List (Option Nat)) (out d : Nat),
    d ∈ copiesFrom depth fs out ↔ out ≤ d ∧ (fs[d - out]?).join = some depth
  | [], out, d => by simp [copiesFrom]
  | source :: rest, out, d => by
    rw [copiesFrom]
    have ih := mem_copiesFrom depth rest (out + 1) d
    rcases Nat.lt_trichotomy d out with h | h | h
    · split
      · rw [List.mem_cons, ih]; omega
      · rw [ih]; omega
    · subst h
      split
      · simp [*]
      · rw [ih]
        have : ¬ d + 1 ≤ d := by omega
        simp [*]
    · obtain ⟨k, rfl⟩ : ∃ k, d = out + 1 + k := ⟨d - (out + 1), by omega⟩
      have e1 : out + 1 + k - out = k + 1 := by omega
      have e2 : out + 1 + k - (out + 1) = k := by omega
      have h1 : out ≤ out + 1 + k := by omega
      have h2 : out + 1 ≤ out + 1 + k := by omega
      have h3 : out + 1 + k ≠ out := by omega
      rw [e2] at ih
      rw [e1, List.getElem?_cons_succ]
      split
      · simp only [List.mem_cons, ih, h1, h2, h3, true_and, false_or]
      · simp only [ih, h1, h2, true_and]

/-- The copies of an input are the outputs that have it as their source. -/
theorem mem_copiesOf (e : StackEffect) (depth d : Nat) :
    d ∈ e.copiesOf depth ↔ e.sourceOf d = some depth := by
  simp [copiesOf, sourceOf, mem_copiesFrom]

end StackEffect

/-- How the stack effect of an opcode is found. -/
inductive EffectRule where
  /-- The same effect whatever the operand and the edge. -/
  | fixed (effect : StackEffect)
  /-- The effect depends on the operand (how many elements to collect). -/
  | computed (effect : Nat → StackEffect)
  /-- The effect depends on the edge taken. -/
  | branching (fallthrough branch : StackEffect)
  /-- The opcode is not known. -/
  | unknown
deriving Inhabited

namespace EffectRule

/-- The effect with operand `argument` when control leaves by `edge`. -/
def resolve (argument : Nat) (edge : Edge) : EffectRule → Option StackEffect
  | .fixed e => some e
  | .computed f => some (f argument)
  | .branching f b => some (match edge with | .fallthrough => f | .branch => b)
  | .unknown => none

/-- Is there a rule at all? -/
def isKnown : EffectRule → Bool
  | .unknown => false
  | _ => true

/-- A known rule gives an effect for every operand and edge. -/
theorem isSome_resolve (r : EffectRule) (argument : Nat) (edge : Edge) :
    (r.resolve argument edge).isSome = r.isKnown := by
  cases r <;> rfl

end EffectRule

end Wordcode
