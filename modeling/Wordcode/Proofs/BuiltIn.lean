/-
# What the built-in instruction sets have in common

A table of opcodes has, under each number, one of the descriptions listed for
it, or else that of an unknown opcode. So what holds of every listed description
and of unknown opcodes holds of the whole table, and a listing is short enough
to be gone through.

What comes out is `InstructionSet.Regular`: the extension unit and the two jumps
that the assembler writes are what they should be, no jump counts backwards,
extension units and no-ops do nothing but fall through, and an operand is a
branch target exactly for jumps. Blocks are opened and closed by instructions that go on
(`InstructionSet.Blocks`), and returns do not. The stack effects are well-formed: only pushed
values are said to be copies, and only of popped ones.

Key definitions: `OpcodeInfo.Regular`, `InstructionSet.Regular`, `InstructionSet.Directed`,
`InstructionSet.Blocks`, `StackEffect.WellFormed`, `InstructionSet.BuiltIn`.
Key theorems: `InstructionSet.getElem_tableOf`, `InstructionSet.BuiltIn.of_listed`,
`InstructionSet.BuiltIn.regular`, `InstructionSet.BuiltIn.blocks`,
`InstructionSet.BuiltIn.wellFormed_effect`.
-/
import Wordcode.InstructionSet.Tables

namespace Wordcode

/-- What a description has to say about an opcode, when `isExtension` tells whether
it is the extension unit. -/
structure OpcodeInfo.Regular (isExtension : Bool) (info : OpcodeInfo) : Prop where
  /-- The extension unit is one, and there is no other. -/
  extension_eq : info.flags.extension = isExtension
  idle : info.flags.extension = true ∨ info.flags.noOp = true →
    info.flags.fallsThrough = true ∧ info.flags.isJump = false
  forward : info.flags.jumpBackward = false
  addressing : info.flags.jumpRelative = true → info.flags.jumpAbsolute = false
  /-- Jumps have branch targets for operands, and no other opcode has. -/
  jump_operand : info.operand.isJump = info.flags.isJump
  /-- Apart from the extension unit an opcode has an argument if it has an operand. -/
  argument : info.flags.extension = true ∨ (info.flags.hasArgument = true ↔ info.operand ≠ .none)
  packing : info.packing = .none

instance (isExtension : Bool) (info : OpcodeInfo) : Decidable (info.Regular isExtension) :=
  decidable_of_iff
    (info.flags.extension = isExtension ∧
      (info.flags.extension = true ∨ info.flags.noOp = true →
        info.flags.fallsThrough = true ∧ info.flags.isJump = false) ∧
      info.flags.jumpBackward = false ∧
      (info.flags.jumpRelative = true → info.flags.jumpAbsolute = false) ∧
      info.operand.isJump = info.flags.isJump ∧
      (info.flags.extension = true ∨ (info.flags.hasArgument = true ↔ info.operand ≠ .none)) ∧
      info.packing = .none)
    ⟨fun ⟨a, b, c, d, e, f, g⟩ => ⟨a, b, c, d, e, f, g⟩,
      fun h => ⟨h.1, h.2, h.3, h.4, h.5, h.6, h.7⟩⟩

theorem OpcodeInfo.Regular.hasArgument_of_isJump {isExtension : Bool} {info : OpcodeInfo}
    (h : info.Regular isExtension) (hj : info.flags.isJump = true) :
    info.flags.hasArgument = true := by
  rcases h.argument with hext | hiff
  · rw [(h.idle (Or.inl hext)).2] at hj
    cases hj
  · refine hiff.mpr fun hnone => ?_
    have hkind := h.jump_operand
    rw [hnone, hj] at hkind
    cases hkind

theorem Opcode.eq_of_toNat {a b : Opcode} (h : a.toNat = b.toNat) : a = b := by
  obtain ⟨a⟩ := a
  obtain ⟨b⟩ := b
  exact congrArg Opcode.mk (UInt8.toNat_inj.mp h)

namespace InstructionSet

/-- What the rest of the theory asks of an instruction set. -/
structure Regular (isa : InstructionSet) : Prop where
  opcodes : ∀ op, (isa.info op).Regular (op == isa.extension)
  /-- The jump ahead is relative and always taken. -/
  jumpForward : (isa.flags isa.jumpForward).jumpRelative = true ∧
    (isa.flags isa.jumpForward).unconditional = true
  /-- The jump anywhere is absolute and always taken. -/
  jumpAbsolute : (isa.flags isa.jumpAbsolute).jumpAbsolute = true ∧
    (isa.flags isa.jumpAbsolute).unconditional = true

/-- What laying out asks of an instruction set. Jumps may count backwards, except for the jump
ahead. -/
structure Directed (isa : InstructionSet) : Prop where
  idle : ∀ op, (isa.flags op).extension = true →
    (isa.flags op).fallsThrough = true ∧ (isa.flags op).isJump = false
  addressing : ∀ op, (isa.flags op).jumpRelative = true → (isa.flags op).jumpAbsolute = false
  /-- The jump ahead is relative, counts forwards and is always taken. -/
  jumpForward : (isa.flags isa.jumpForward).jumpRelative = true ∧
    (isa.flags isa.jumpForward).jumpBackward = false ∧
    (isa.flags isa.jumpForward).unconditional = true
  jumpAbsolute : (isa.flags isa.jumpAbsolute).jumpAbsolute = true ∧
    (isa.flags isa.jumpAbsolute).unconditional = true

theorem Regular.directed {isa : InstructionSet} (h : isa.Regular) : isa.Directed where
  idle := fun op hext => (h.opcodes op).idle (Or.inl hext)
  addressing := fun op => (h.opcodes op).addressing
  jumpForward := ⟨h.jumpForward.1, (h.opcodes _).forward, h.jumpForward.2⟩
  jumpAbsolute := h.jumpAbsolute

theorem Directed.written {isa : InstructionSet} (h : isa.Directed) {op : Opcode}
    (hop : op = isa.jumpForward ∨ op = isa.jumpAbsolute) :
    (isa.flags op).isJump = true ∧ (isa.flags op).unconditional = true ∧
      (isa.flags op).fallsThrough = false ∧ (isa.flags op).extension = false := by
  have hjump : (isa.flags op).isJump = true ∧ (isa.flags op).unconditional = true := by
    rcases hop with rfl | rfl
    · exact ⟨by simp [Flags.isJump, h.jumpForward.1], h.jumpForward.2.2⟩
    · exact ⟨by simp [Flags.isJump, h.jumpAbsolute.1], h.jumpAbsolute.2⟩
  refine ⟨hjump.1, hjump.2, by simp [Flags.fallsThrough, hjump.2], ?_⟩
  cases he : (isa.flags op).extension with
  | false => rfl
  | true =>
    have hfalse : (isa.flags op).isJump = false := (h.idle op he).2
    rw [hjump.1] at hfalse
    cases hfalse

theorem Regular.written {isa : InstructionSet} (h : isa.Regular) {op : Opcode}
    (hop : op = isa.jumpForward ∨ op = isa.jumpAbsolute) :
    (isa.flags op).isJump = true ∧ (isa.flags op).unconditional = true ∧
      (isa.flags op).fallsThrough = false ∧ (isa.flags op).extension = false :=
  h.directed.written hop

theorem Directed.jumpAbsolute_not_relative {isa : InstructionSet} (h : isa.Directed) :
    (isa.flags isa.jumpAbsolute).jumpRelative = false := by
  cases hr : (isa.flags isa.jumpAbsolute).jumpRelative with
  | false => rfl
  | true =>
    have hfalse : (isa.flags isa.jumpAbsolute).jumpAbsolute = false :=
      h.addressing isa.jumpAbsolute hr
    rw [h.jumpAbsolute.1] at hfalse
    cases hfalse

/-- One of the instruction sets that come with the library. -/
def BuiltIn (isa : InstructionSet) : Prop := isa = python38 ∨ isa = python310

/-- A table with listed descriptions put in, the last one if there are several. -/
def filled (entries : List (Nat × OpcodeInfo)) (table : Vector OpcodeInfo 256) :
    Vector OpcodeInfo 256 :=
  entries.foldl (fun table entry => table.setIfInBounds entry.1 entry.2) table

theorem getElem_filled (n : Nat) (hn : n < 256) : ∀ (entries : List (Nat × OpcodeInfo))
    (table : Vector OpcodeInfo 256), (filled entries table)[n] =
      ((entries.findRev? (·.1 == n)).map (·.2)).getD table[n]
  | [], _ => rfl
  | (m, info) :: entries, table => by
    have hstep : filled ((m, info) :: entries) table =
        filled entries (table.setIfInBounds m info) := rfl
    rw [hstep, getElem_filled n hn entries, List.findRev?]
    cases entries.findRev? (·.1 == n) with
    | some e => rfl
    | none =>
      by_cases hm : m = n
      · subst hm
        simp
      · simp [hm]

/-- A table has under each number the last description listed for it. -/
theorem getElem_tableOf (entries : List (Nat × OpcodeInfo)) (n : Nat) (hn : n < 256) :
    (tableOf entries)[n] = ((entries.findRev? (·.1 == n)).map (·.2)).getD .unknown := by
  have h := getElem_filled n hn entries (Vector.replicate 256 .unknown)
  rwa [Vector.getElem_replicate] at h

theorem info_eq {isa : InstructionSet} {entries : List (Nat × OpcodeInfo)}
    (htable : isa.opcodes = tableOf entries) (op : Opcode) :
    isa.info op = ((entries.findRev? (·.1 == op.toNat)).map (·.2)).getD .unknown := by
  simp only [info, htable]
  exact getElem_tableOf entries op.toNat op.toNat_lt

/-- An instruction set given by a listing is regular if the listed descriptions
are. -/
theorem regular_of_table {isa : InstructionSet} {entries : List (Nat × OpcodeInfo)}
    (htable : isa.opcodes = tableOf entries)
    (hlisted : ∀ e ∈ entries, e.2.Regular (e.1 == isa.extension.toNat))
    (hextension : (entries.findRev? (·.1 == isa.extension.toNat)).isSome) (op : Opcode) :
    (isa.info op).Regular (op == isa.extension) := by
  rw [info_eq htable op]
  cases he : entries.findRev? (·.1 == op.toNat) with
  | some e =>
    have hmem := List.mem_of_find?_eq_some (List.findRev?_eq_find?_reverse ▸ he)
    have hnum := List.find?_some (List.findRev?_eq_find?_reverse ▸ he)
    have heq : (e.1 == isa.extension.toNat) = (op == isa.extension) := by
      rw [beq_iff_eq.mp hnum]
      by_cases h : op = isa.extension
      · simp [h]
      · rw [beq_false_of_ne h, beq_false_of_ne fun hn => h (Opcode.eq_of_toNat hn)]
    rw [← heq]
    exact hlisted e (List.mem_reverse.mp hmem)
  | none =>
    have hne : op ≠ isa.extension := by
      rintro rfl
      rw [he] at hextension
      cases hextension
    rw [beq_false_of_ne hne]
    decide

theorem of_table {isa : InstructionSet} {entries : List (Nat × OpcodeInfo)} {Q : OpcodeInfo → Prop}
    (htable : isa.opcodes = tableOf entries) (hlisted : ∀ e ∈ entries, Q e.2)
    (hunknown : Q .unknown) (op : Opcode) : Q (isa.info op) := by
  rw [info_eq htable op]
  cases he : entries.findRev? (·.1 == op.toNat) with
  | some e =>
    have hmem := List.mem_of_find?_eq_some (List.findRev?_eq_find?_reverse ▸ he)
    exact hlisted e (List.mem_reverse.mp hmem)
  | none => exact hunknown

theorem info_python38 (op : Opcode) : python38.info op =
    (((shared ++ only38).findRev? (·.1 == op.toNat)).map (·.2)).getD .unknown := info_eq rfl op

theorem regular_python38 : python38.Regular where
  opcodes := regular_of_table rfl (by decide +kernel) (by decide +kernel)
  jumpForward := by rw [flags, info_eq rfl]; decide +kernel
  jumpAbsolute := by rw [flags, info_eq rfl]; decide +kernel

theorem regular_python310 : python310.Regular where
  opcodes := regular_of_table rfl (by decide +kernel) (by decide +kernel)
  jumpForward := by rw [flags, info_eq rfl]; decide +kernel
  jumpAbsolute := by rw [flags, info_eq rfl]; decide +kernel

theorem BuiltIn.extension {isa : InstructionSet} (h : isa.BuiltIn) :
    (isa.flags isa.extension).hasArgument = true ∧
      ∀ argument edge, isa.effect isa.extension argument edge = some .nothing := by
  rcases h with rfl | rfl
  · exact ⟨by rw [flags, info_eq rfl]; rfl, fun _ _ => by rw [effect, info_eq rfl]; rfl⟩
  · exact ⟨by rw [flags, info_eq rfl]; rfl, fun _ _ => by rw [effect, info_eq rfl]; rfl⟩

theorem BuiltIn.regular {isa : InstructionSet} (h : isa.BuiltIn) : isa.Regular := by
  rcases h with rfl | rfl
  · exact regular_python38
  · exact regular_python310

theorem only310_listed : ∀ e ∈ shared ++ only310, e ∈ shared ++ only38 ++ only310 := by
  intro e he
  rcases List.mem_append.mp he with he | he
  · exact List.mem_append_left _ (List.mem_append_left _ he)
  · exact List.mem_append_right _ he

/-- What holds of everything that is listed holds of the built-in instruction sets. -/
theorem BuiltIn.of_listed {isa : InstructionSet} (h : isa.BuiltIn) {Q : OpcodeInfo → Prop}
    (hlisted : ∀ e ∈ shared ++ only38 ++ only310, Q e.2) (hunknown : Q .unknown) (op : Opcode) :
    Q (isa.info op) := by
  rcases h with rfl | rfl
  · have htable : python38.opcodes = tableOf (shared ++ only38) := rfl
    exact of_table htable (fun e he => hlisted e (List.mem_append_left _ he)) hunknown op
  · have htable : python310.opcodes = tableOf (shared ++ only310) := rfl
    exact of_table htable (fun e he => hlisted e (only310_listed e he)) hunknown op

/-! ### Blocks -/

/-- What writing exception regions asks of an instruction set. -/
structure Blocks (isa : InstructionSet) : Prop where
  /-- The opener of a block goes on inside it, or branches to the handler. -/
  setup : (isa.flags isa.handlerSetup).fallsThrough = true ∧
    (isa.flags isa.handlerSetup).isJump = true ∧ (isa.flags isa.handlerSetup).handlerSetup = true ∧
    (isa.flags isa.handlerSetup).blockExit = false ∧ (isa.flags isa.handlerSetup).returns = false
  exit : (isa.flags isa.blockExit).fallsThrough = true ∧ (isa.flags isa.blockExit).isJump = false ∧
    (isa.flags isa.blockExit).handlerSetup = false ∧ (isa.flags isa.blockExit).blockExit = true ∧
    (isa.flags isa.blockExit).returns = false
  /-- A return goes nowhere. -/
  returns : ∀ op, (isa.flags op).returns = true →
    (isa.flags op).fallsThrough = false ∧ (isa.flags op).isJump = false

theorem returns_listed : ∀ e ∈ shared ++ only38 ++ only310, e.2.flags.returns = true →
    e.2.flags.fallsThrough = false ∧ e.2.flags.isJump = false := by
  decide +kernel

theorem BuiltIn.returns {isa : InstructionSet} (h : isa.BuiltIn) (op : Opcode) :
    (isa.flags op).returns = true →
      (isa.flags op).fallsThrough = false ∧ (isa.flags op).isJump = false :=
  h.of_listed (Q := fun info => info.flags.returns = true →
    info.flags.fallsThrough = false ∧ info.flags.isJump = false) returns_listed (by decide) op

theorem blocks_python38 : python38.Blocks where
  setup := by rw [flags, info_eq rfl]; decide +kernel
  exit := by rw [flags, info_eq rfl]; decide +kernel
  returns := BuiltIn.returns (Or.inl rfl)

theorem blocks_python310 : python310.Blocks where
  setup := by rw [flags, info_eq rfl]; decide +kernel
  exit := by rw [flags, info_eq rfl]; decide +kernel
  returns := BuiltIn.returns (Or.inr rfl)

theorem setup_listed : ∀ e ∈ shared ++ only38 ++ only310, e.2.flags.handlerSetup = true →
    e.2.flags.isJump = true := by
  decide +kernel

theorem BuiltIn.isJump_of_setup {isa : InstructionSet} (h : isa.BuiltIn) {op : Opcode}
    (hsetup : (isa.flags op).handlerSetup = true) : (isa.flags op).isJump = true :=
  h.of_listed (Q := fun info => info.flags.handlerSetup = true → info.flags.isJump = true)
    setup_listed (by decide) op hsetup

theorem BuiltIn.blocks {isa : InstructionSet} (h : isa.BuiltIn) : isa.Blocks := by
  rcases h with rfl | rfl
  · exact blocks_python38
  · exact blocks_python310

end InstructionSet

/-! ### Stack effects -/

/-- Copies are among the pushed values, and what they copy among the popped ones. -/
structure StackEffect.WellFormed (effect : StackEffect) : Prop where
  copies : effect.forwards.length ≤ effect.pushed
  copied : ∀ depth, some depth ∈ effect.forwards → depth < effect.popped

instance (effect : StackEffect) : Decidable effect.WellFormed :=
  decidable_of_iff (effect.forwards.length ≤ effect.pushed ∧
      ∀ source ∈ effect.forwards, ∀ depth ∈ source, depth < effect.popped)
    ⟨fun h => ⟨h.1, fun depth hmem => h.2 _ hmem depth rfl⟩,
      fun h => ⟨h.1, fun _ hmem depth heq => h.2 depth (heq ▸ hmem)⟩⟩

/-- The effect is well-formed whatever the operand and the edge. -/
inductive EffectRule.WellFormed : EffectRule → Prop
  | fixed {effect : StackEffect} (h : effect.WellFormed) : WellFormed (.fixed effect)
  | computed {effect : Nat → StackEffect} (h : ∀ argument, (effect argument).WellFormed) :
      WellFormed (.computed effect)
  | branching {fallthrough branch : StackEffect} (hf : fallthrough.WellFormed)
      (hb : branch.WellFormed) : WellFormed (.branching fallthrough branch)
  | unknown : WellFormed .unknown

theorem EffectRule.WellFormed.of_resolve {rule : EffectRule} (h : rule.WellFormed) {argument : Nat}
    {edge : Edge} {effect : StackEffect} (hresolve : rule.resolve argument edge = some effect) :
    effect.WellFormed := by
  cases h with
  | fixed h =>
    obtain rfl := Option.some.inj hresolve
    exact h
  | computed h =>
    obtain rfl := Option.some.inj hresolve
    exact h argument
  | branching hf hb =>
    obtain rfl := Option.some.inj hresolve
    cases edge with
    | fallthrough => exact hf
    | branch => exact hb
  | unknown => cases hresolve

namespace InstructionSet

theorem wellFormed_pushPop (pushed popped : Nat) : (pushPop pushed popped).WellFormed :=
  ⟨Nat.zero_le _, fun _ h => absurd h List.not_mem_nil⟩

theorem wellFormed_collect (count : Nat) : (collect count).WellFormed := wellFormed_pushPop _ _

theorem wellFormed_nothing : StackEffect.nothing.WellFormed := wellFormed_pushPop 0 0

theorem wellFormed_peek : peek.WellFormed := by decide

theorem wellFormed_listed : ∀ e ∈ shared ++ only38 ++ only310, e.2.effect.WellFormed := by
  simp only [shared, stackMoves, unaries, binaries, statements, poolAccesses, numbered, jumps, only38,
    only310, List.map_cons, List.map_nil, List.forall_mem_append, List.forall_mem_cons,
    List.not_mem_nil, false_implies, implies_true, and_true, true_and, OpcodeInfo.plain,
    OpcodeInfo.number, OpcodeInfo.counted, OpcodeInfo.pooled, OpcodeInfo.jump, popUnlessTaken,
    EffectRule.WellFormed.fixed, EffectRule.WellFormed.computed, EffectRule.WellFormed.branching,
    wellFormed_collect, wellFormed_pushPop, wellFormed_nothing, wellFormed_peek]
  -- left are the instructions that move and copy the top of the stack
  exact ⟨.fixed (by decide), .fixed (by decide), .fixed (by decide), .fixed (by decide),
    .fixed (by decide)⟩

/-- The effects of a built-in instruction set are well-formed. -/
theorem BuiltIn.wellFormed_effect {isa : InstructionSet} (h : isa.BuiltIn) {op : Opcode}
    {argument : Nat} {edge : Edge} {effect : StackEffect}
    (heffect : isa.effect op argument edge = some effect) : effect.WellFormed := by
  have hrule : (isa.info op).effect.WellFormed :=
    h.of_listed (Q := fun info => info.effect.WellFormed) wellFormed_listed .unknown op
  exact hrule.of_resolve heffect

end InstructionSet

end Wordcode
