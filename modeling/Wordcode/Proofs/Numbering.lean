/-
# What operands are numbered with

Interning an operand only adds to the pools (`Pools.Grows`), so what an index or a
place holds when it is given out, it holds in the pools as they end up. There, a
collected operand has a number, and the number read back with the pools is the
operand again (`Assembly.readNode_of_holds`).

A hint that is good makes interning give the hinted index back and add nothing, for
cells too, whose indices count the cells before the free variables.

Key definitions: `Pools.Grows`, `Assembly.Holds`, `Assembly.Collects`,
`Assembly.Numbers`.
Key theorems: `Assembly.collectOperand_spec`, `Assembly.collect_spec`,
`Assembly.number_spec`, `Assembly.collect_of_kept`, `Assembly.exists_number`,
`Assembly.readNode_of_holds`.
-/
import Mathlib.Data.List.Forall2
import Wordcode.Assembly
import Wordcode.Stream
import Wordcode.Proofs.BuiltIn
import Wordcode.Proofs.SameCode

namespace Wordcode

/-! ### Pools that grow -/

section Grows

variable {α : Type}

theorem getElem?_of_prefix {p q : Array α} (h : p.toList <+: q.toList) {i : Nat} {x : α}
    (hi : p[i]? = some x) : q[i]? = some x := by
  rw [← Array.getElem?_toList] at hi ⊢
  obtain ⟨rest, hq⟩ := h
  obtain ⟨hlt, -⟩ := List.getElem?_eq_some_iff.mp hi
  rw [← hq, List.getElem?_append_left hlt, hi]

variable [DecidableEq α]

theorem Pool.prefix_intern (pool : Array α) (x : α) :
    pool.toList <+: (Pool.intern pool x).2.toList := by
  unfold Pool.intern
  split
  · exact List.prefix_refl _
  · rw [Array.toList_push]
    exact List.prefix_append _ _

theorem Pool.prefix_internHinted (pool : Array α) (x : α) (hint : Option Nat) :
    pool.toList <+: (Pool.internHinted pool x hint).2.toList := by
  unfold Pool.internHinted
  split
  · split
    · exact List.prefix_refl _
    · exact Pool.prefix_intern pool x
  · exact Pool.prefix_intern pool x

theorem Pool.internHinted_of_hint {pool : Array α} {x : α} {hint : Nat}
    (h : pool[hint]? = some x) : Pool.internHinted pool x (some hint) = (hint, pool) := by
  simp only [Pool.internHinted, h, if_true]

/-- The pools `q` are `p` with entries added, and with the same free variables. -/
structure Pools.Grows (p q : Pools) : Prop where
  constants : p.constants.toList <+: q.constants.toList
  names : p.names.toList <+: q.names.toList
  locals : p.locals.toList <+: q.locals.toList
  cells : p.cells.toList <+: q.cells.toList
  free : q.free = p.free

theorem Pools.Grows.refl (p : Pools) : p.Grows p :=
  ⟨List.prefix_refl _, List.prefix_refl _, List.prefix_refl _, List.prefix_refl _, rfl⟩

theorem Pools.Grows.trans {p q r : Pools} (h : p.Grows q) (h' : q.Grows r) : p.Grows r :=
  ⟨h.constants.trans h'.constants, h.names.trans h'.names, h.locals.trans h'.locals,
    h.cells.trans h'.cells, h'.free.trans h.free⟩

/-- Every index into the pools is a 32 bit number. -/
structure Pools.Indexable (p : Pools) : Prop where
  constants : p.constants.size ≤ UInt32.size
  names : p.names.size ≤ UInt32.size
  locals : p.locals.size ≤ UInt32.size
  cells : p.cellCount ≤ UInt32.size

theorem Pools.Indexable.lt {p : Pools} (h : p.Indexable) {pool : PoolKind} {index : Nat}
    {operand : Operand} (he : Stream.entry? p pool index = some operand) : index < UInt32.size := by
  cases pool with
  | constants =>
    obtain ⟨c, hc, -⟩ := Option.map_eq_some_iff.mp he
    exact Nat.lt_of_lt_of_le (Array.getElem?_eq_some_iff.mp hc).1 h.constants
  | names =>
    obtain ⟨s, hs, -⟩ := Option.map_eq_some_iff.mp he
    exact Nat.lt_of_lt_of_le (Array.getElem?_eq_some_iff.mp hs).1 h.names
  | locals =>
    obtain ⟨s, hs, -⟩ := Option.map_eq_some_iff.mp he
    exact Nat.lt_of_lt_of_le (Array.getElem?_eq_some_iff.mp hs).1 h.locals
  | cells =>
    obtain ⟨s, hs, -⟩ := Option.map_eq_some_iff.mp he
    rw [Pools.cellName?_eq] at hs
    have hlt := (Array.getElem?_eq_some_iff.mp hs).1
    rw [Array.size_append] at hlt
    exact Nat.lt_of_lt_of_le hlt h.cells

end Grows

namespace Assembly

variable {isa : InstructionSet}

/-! ### What a collected operand stands for -/

section Holds

/-- The collected operand stands for `operand`, with the pools `pools`. -/
def Holds (pools : Pools) : Operand → Collected → Prop
  | .none, .ready value | .jump, .ready value => value = 0
  | .raw value, .ready value' => value' = value
  | .constant c, .pooled i _ => pools.constants[i]? = some c
  | .name s, .pooled i _ => pools.names[i]? = some s
  | .local s, .pooled i _ => pools.locals[i]? = some s
  | .cell s, .cell (.cell i) _ => pools.cells[i]? = some s
  | .cell s, .cell (.free i) _ => pools.free[i]? = some s
  | _, _ => False

theorem Holds.mono {p q : Pools} (hg : p.Grows q) {operand : Operand} {c : Collected}
    (h : Holds p operand c) : Holds q operand c := by
  cases operand <;> cases c <;> try exact h
  case constant.pooled => exact getElem?_of_prefix hg.constants h
  case name.pooled => exact getElem?_of_prefix hg.names h
  case «local».pooled => exact getElem?_of_prefix hg.locals h
  case cell.cell place _ =>
    cases place with
    | cell i => exact getElem?_of_prefix hg.cells h
    | free i =>
      simp only [Holds] at h ⊢
      rw [hg.free]
      exact h

theorem placeCell_spec (growth : PoolGrowth) (s : String) (flags : Nat) :
    Holds (growth.placeCell s).2.pools (.cell s) (.cell (growth.placeCell s).1 flags) ∧
      growth.pools.Grows (growth.placeCell s).2.pools := by
  unfold PoolGrowth.placeCell
  split
  · rename_i i h
    exact ⟨Pool.getElem?_of_find? h, .refl _⟩
  · split
    · rename_i i h
      exact ⟨Pool.getElem?_of_find? h, .refl _⟩
    · constructor
      · simp [Holds]
      · refine ⟨List.prefix_refl _, List.prefix_refl _, List.prefix_refl _, ?_, rfl⟩
        rw [Array.toList_push]
        exact List.prefix_append _ _

/-- Interning an operand gives something that stands for it. -/
theorem collectOperand_spec (node : Node) (growth : PoolGrowth) :
    Holds (collectOperand node growth).2.pools node.operand (collectOperand node growth).1 ∧
      growth.pools.Grows (collectOperand node growth).2.pools := by
  unfold collectOperand
  cases node.operand with
  | none => exact ⟨rfl, .refl _⟩
  | raw value => exact ⟨rfl, .refl _⟩
  | jump => exact ⟨rfl, .refl _⟩
  | constant c =>
    exact ⟨Pool.getElem?_internHinted .., Pool.prefix_internHinted .., List.prefix_refl _,
      List.prefix_refl _, List.prefix_refl _, rfl⟩
  | name s =>
    exact ⟨Pool.getElem?_internHinted .., List.prefix_refl _, Pool.prefix_internHinted ..,
      List.prefix_refl _, List.prefix_refl _, rfl⟩
  | «local» s =>
    exact ⟨Pool.getElem?_internHinted .., List.prefix_refl _, List.prefix_refl _,
      Pool.prefix_internHinted .., List.prefix_refl _, rfl⟩
  | cell s =>
    simp only [PoolGrowth.internCell]
    cases hh : node.poolHint.bind (growth.hintedCell? s) with
    | none => exact placeCell_spec growth s node.operandFlags
    | some place =>
      refine ⟨?_, .refl _⟩
      obtain ⟨hint, -, hplace⟩ := Option.bind_eq_some_iff.mp hh
      unfold PoolGrowth.hintedCell? at hplace
      split at hplace
      · split at hplace
        · obtain rfl := Option.some.inj hplace
          assumption
        · cases hplace
      · split at hplace
        · obtain rfl := Option.some.inj hplace
          assumption
        · cases hplace

end Holds

/-! ### All operands of a layout -/

section Collect

/-- The operand of each instruction fits its opcode and was collected; extension units
have none. -/
def Collects (isa : InstructionSet) (g : Graph) (pools : Pools) (n : Nat) (c : Collected) : Prop :=
  if (g.node n).isExtension isa then c = .ready 0
  else (g.node n).operand.fits (isa.info (g.node n).opcode).operand = true ∧
    Holds pools (g.node n).operand c

/-- The pools that are there when all is collected serve for each operand. -/
theorem collect_spec {g : Graph} : ∀ {layout : List Nat} {growth growth' : PoolGrowth}
    {done operands : Array Collected},
    collect isa g layout growth done = .ok (operands, growth') →
    growth.pools.Grows growth'.pools ∧ ∃ later, operands = done ++ later.toArray ∧
      List.Forall₂ (Collects isa g growth'.pools) layout later
  | [], growth, growth', done, operands, h => by
    simp only [collect, Except.ok.injEq, Prod.mk.injEq] at h
    obtain ⟨rfl, rfl⟩ := h
    exact ⟨.refl _, [], by simp, .nil⟩
  | n :: rest, growth, growth', done, operands, h => by
    simp only [collect] at h
    split at h
    · rename_i hext
      obtain ⟨hgrows, later, rfl, hall⟩ := collect_spec h
      refine ⟨hgrows, .ready 0 :: later, by simp, .cons ?_ hall⟩
      rw [Collects, if_pos hext]
    · rename_i hext
      split at h
      · rename_i hfits
        obtain ⟨hholds, hfirst⟩ := collectOperand_spec (g.node n) growth
        obtain ⟨hgrows, later, rfl, hall⟩ := collect_spec h
        refine ⟨hfirst.trans hgrows, (collectOperand (g.node n) growth).1 :: later, by simp,
          .cons ?_ hall⟩
        rw [Collects, if_neg hext]
        exact ⟨hfits, hholds.mono hgrows⟩
      · cases h

/-- Operands that are already in the pools leave them as they are. -/
theorem collect_of_kept {g : Graph} {growth : PoolGrowth} : ∀ {layout : List Nat}
    {done : Array Collected}, (∀ n ∈ layout, (g.node n).isExtension isa = false →
      (g.node n).operand.fits (isa.info (g.node n).opcode).operand = true ∧
        (collectOperand (g.node n) growth).2 = growth) →
    collect isa g layout growth done = .ok (done ++ (layout.map fun n =>
      if (g.node n).isExtension isa then .ready 0
      else (collectOperand (g.node n) growth).1).toArray, growth)
  | [], done, _ => by simp [collect]
  | n :: rest, done, h => by
    have hrest : ∀ done : Array Collected, collect isa g rest growth done =
        .ok (done ++ (rest.map fun n => if (g.node n).isExtension isa then .ready 0
          else (collectOperand (g.node n) growth).1).toArray, growth) :=
      fun _ => collect_of_kept fun m hm => h m (List.mem_cons_of_mem n hm)
    cases hext : (g.node n).isExtension isa with
    | true => simp [collect, hext, hrest]
    | false =>
      obtain ⟨hfits, hkept⟩ := h n List.mem_cons_self hext
      simp [collect, hext, hfits, hkept, hrest]

end Collect

section Number

/-- The argument that an operand is written with. -/
def Numbers (isa : InstructionSet) (growth : PoolGrowth) (opcode : Opcode) (c : Collected)
    (argument : Nat) : Prop :=
  match c with
  | .ready value => argument = value
  | c => ∃ index flags, poolIndex? growth c = some (index, flags) ∧
    (isa.info opcode).packing.join index flags = some argument

theorem number_ready {growth : PoolGrowth} {n value : Nat} {rest : List (Nat × Collected)}
    {g : Graph} {done : Array Nat} : number isa growth ((n, .ready value) :: rest) g done =
      number isa growth rest g (done.push value) := by
  simp only [number]

theorem number_indexed {growth : PoolGrowth} {n index flags : Nat} {c : Collected}
    (h : poolIndex? growth c = some (index, flags)) (rest : List (Nat × Collected)) (g : Graph)
    (done : Array Nat) : number isa growth ((n, c) :: rest) g done =
      match (isa.info (g.node n).opcode).packing.join index flags with
      | some argument =>
        number isa growth rest (g.modify n ({ · with poolHint := some index })) (done.push argument)
      | none => (g.modify n ({ · with poolHint := some index }),
          .error (.operandOverflow (g.node n).opcode index)) := by
  cases c with
  | ready value => cases h
  | pooled i f | cell place f =>
    cases hjoin : (isa.info (g.node n).opcode).packing.join index flags with
    | none => simp only [number, h, hjoin]
    | some argument => simp only [number, h, hjoin]

theorem numbers_indexed {growth : PoolGrowth} {opcode : Opcode} {c : Collected}
    {index flags argument : Nat} (h : poolIndex? growth c = some (index, flags))
    (hjoin : (isa.info opcode).packing.join index flags = some argument) :
    Numbers isa growth opcode c argument := by
  cases c with
  | ready value => cases h
  | pooled i f => exact ⟨index, flags, h, hjoin⟩
  | cell place f => exact ⟨index, flags, h, hjoin⟩

/-- Numbering gives an argument for each operand, and leaves the code alone. -/
theorem number_spec {growth : PoolGrowth} : ∀ {items : List (Nat × Collected)} {g g' : Graph}
    {done : Array Nat} {arguments : List Nat},
    number isa growth items g done = (g', .ok arguments) →
    g.SameCode g' ∧ ∃ later, arguments = done.toList ++ later ∧
      List.Forall₂ (fun item => Numbers isa growth (g.node item.1).opcode item.2) items later
  | [], g, g', done, arguments, h => by
    simp only [number, Prod.mk.injEq, Except.ok.injEq] at h
    obtain ⟨rfl, rfl⟩ := h
    exact ⟨.refl _, [], by simp, .nil⟩
  | (n, c) :: rest, g, g', done, arguments, h => by
    cases hc : poolIndex? growth c with
    | none =>
      cases c with
      | ready value =>
        rw [number_ready] at h
        obtain ⟨hsame, later, rfl, hall⟩ := number_spec h
        exact ⟨hsame, value :: later, by simp, .cons rfl hall⟩
      | pooled i f => cases hc
      | cell place f => cases hc
    | some p =>
      obtain ⟨index, flags⟩ := p
      rw [number_indexed hc] at h
      split at h
      · rename_i argument hjoin
        have hone : g.SameCode (g.modify n ({ · with poolHint := some index })) :=
          g.sameCode_modify n fun _ => rfl
        obtain ⟨hsame, later, rfl, hall⟩ := number_spec h
        simp only [hone.opcode] at hall
        exact ⟨hone.trans hsame, argument :: later, by simp, .cons (numbers_indexed hc hjoin) hall⟩
      · cases h

/-- Indices that share their bits with nothing can all be written. -/
theorem exists_number {growth : PoolGrowth} (hpacking : ∀ op, (isa.info op).packing = .none) :
    ∀ (items : List (Nat × Collected)) (g : Graph) (done : Array Nat),
    ∃ g' arguments, number isa growth items g done = (g', .ok arguments)
  | [], g, done => ⟨g, done.toList, rfl⟩
  | (n, c) :: rest, g, done => by
    cases hc : poolIndex? growth c with
    | none =>
      cases c with
      | ready value =>
        rw [number_ready]
        exact exists_number hpacking rest g _
      | pooled i f => cases hc
      | cell place f => cases hc
    | some p =>
      rw [number_indexed hc]
      simp only [hpacking, FlagPacking.join]
      exact exists_number hpacking rest _ _

end Number

/-! ### Reading the number back -/

section Read

theorem kind_of_fits {operand : Operand} {kind : OperandKind} (hjump : kind.isJump = false)
    (h : operand.fits kind = true) : operand.kind = kind := by
  cases operand with
  | jump =>
    rw [Operand.fits, hjump] at h
    cases h
  | _ => exact beq_iff_eq.mp h

theorem jump_of_fits {operand : Operand} {kind : OperandKind} (hjump : kind.isJump = true)
    (h : operand.fits kind = true) : operand = .jump := by
  cases operand with
  | jump => rfl
  | _ =>
    rw [← beq_iff_eq.mp h] at hjump
    cases hjump

theorem exists_raw {operand : Operand} (hnone : operand.kind ≠ .none)
    (hjump : operand.kind.isJump = false) (hpool : Stream.poolOf? operand.kind = none) :
    ∃ value, operand = .raw value := by
  cases operand with
  | raw value => exact ⟨value, rfl⟩
  | none => exact absurd rfl hnone
  | jump => cases hjump
  | _ => cases hpool

/-- An operand from a pool is written with an index that points at it. -/
theorem entry?_of_holds {growth : PoolGrowth} {opcode : Opcode} {operand : Operand} {c : Collected}
    {argument : Nat} {pool : PoolKind} (hpacking : (isa.info opcode).packing = .none)
    (h : Holds growth.pools operand c) (hn : Numbers isa growth opcode c argument)
    (hpool : Stream.poolOf? operand.kind = some pool) :
    Stream.entry? growth.pools pool argument = some operand := by
  have hindex : ∀ index flags, poolIndex? growth c = some (index, flags) → argument = index := by
    intro index flags hi
    cases c with
    | ready value => cases hi
    | pooled i f | cell place f =>
      obtain ⟨index', flags', hi', hjoin⟩ := hn
      rw [hi'] at hi
      rw [hpacking] at hjoin
      obtain ⟨rfl, -⟩ := Prod.mk.inj (Option.some.inj hi)
      exact (Option.some.inj hjoin).symm
  cases operand <;> cases hpool <;> cases c <;> first | cases h | skip
  case constant.refl.pooled x i f | name.refl.pooled x i f | local.refl.pooled x i f =>
    rw [hindex i f rfl]
    simpa [Stream.entry?, Holds] using h
  case cell.refl.cell x place f =>
    rw [hindex _ f rfl]
    simp only [Stream.entry?, Pools.cellName?]
    cases place with
    | cell i =>
      have hlt : i < growth.pools.cells.size := (Array.getElem?_eq_some_iff.mp h).1
      simpa [PoolGrowth.cellIndex, hlt, Holds] using h
    | free i => simpa [PoolGrowth.cellIndex, Holds] using h

theorem argument_lt {growth : PoolGrowth} {opcode : Opcode} {operand : Operand} {c : Collected}
    {argument : Nat} (hpacking : (isa.info opcode).packing = .none)
    (hpools : growth.pools.Indexable) (hraw : ∀ value, operand = .raw value → value < UInt32.size)
    (h : Holds growth.pools operand c) (hn : Numbers isa growth opcode c argument) :
    argument < UInt32.size := by
  cases hpool : Stream.poolOf? operand.kind with
  | some pool => exact hpools.lt (entry?_of_holds hpacking h hn hpool)
  | none =>
    have hready : ∀ value, c = .ready value → argument = value := by
      rintro value rfl
      exact hn
    cases operand <;> cases c <;> first | cases h | cases hpool
    · rw [hready _ rfl]
      decide
    · rw [hready _ rfl]
      exact hraw _ rfl
    · rw [hready _ rfl]
      decide

variable {growth : PoolGrowth} {opcode : Opcode} {operand : Operand} {c : Collected}
  {argument : Nat}

theorem readOperand_of_jump {info : OpcodeInfo} (pools : Pools) (argument offset : Nat) (node : Node)
    (hjump : info.operand.isJump = true) (hfits : operand.fits info.operand = true) :
    ∃ node', Stream.readOperand pools info argument offset node = .ok node' ∧
      node'.operand = operand := by
  rw [jump_of_fits hjump hfits]
  unfold Stream.readOperand
  cases hk : info.operand with
  | relativeJump | absoluteJump => exact ⟨_, rfl, rfl⟩
  | _ =>
    rw [hk] at hjump
    cases hjump

theorem readOperand_of_holds (hpacking : (isa.info opcode).packing = .none)
    (hnone : (isa.info opcode).operand ≠ .none) (hjump : (isa.info opcode).operand.isJump = false)
    (hfits : operand.fits (isa.info opcode).operand = true)
    (h : Holds growth.pools operand c) (hn : Numbers isa growth opcode c argument) (offset : Nat)
    (node : Node) :
    ∃ node', Stream.readOperand growth.pools (isa.info opcode) argument offset node = .ok node' ∧
      node'.operand = operand := by
  have hkind := kind_of_fits hjump hfits
  unfold Stream.readOperand
  cases hpool : Stream.poolOf? (isa.info opcode).operand with
  | some pool =>
    have hentry := entry?_of_holds hpacking h hn (hkind.symm ▸ hpool)
    simp only [hpacking, FlagPacking.split, hentry]
    exact ⟨_, rfl, rfl⟩
  | none =>
    refine ⟨_, rfl, ?_⟩
    rw [← hkind] at hnone hjump hpool ⊢
    obtain ⟨value, rfl⟩ := exists_raw hnone hjump hpool
    cases c with
    | ready value' =>
      have hargument : argument = value' := hn
      have hvalue : value' = value := h
      rw [hargument, hvalue]
      rfl
    | pooled i f => cases h
    | cell place f => cases h

/-- **The number that an operand is written with is read as the operand.** For a jump this
holds of every number. -/
theorem readNode_of_holds (hisa : isa.Regular) {g : Graph} {n : Nat}
    (hext : (g.node n).isExtension isa = false) (hc : Collects isa g growth.pools n c)
    (hn : (g.node n).isJump isa = false → Numbers isa growth (g.node n).opcode c argument)
    {word : Word} (hop : word.opcode = (g.node n).opcode) (offset : Nat) :
    ∃ node, Stream.readNode isa growth.pools word argument offset = .ok node ∧
      node.operand = (g.node n).operand := by
  have hreg := hisa.opcodes (g.node n).opcode
  have hext' : (isa.info (g.node n).opcode).flags.extension = false := hext
  rw [Collects, if_neg (by rw [hext]; exact Bool.false_ne_true)] at hc
  obtain ⟨hfits, hholds⟩ := hc
  have hargument := hreg.argument.resolve_left (by rw [hext']; exact Bool.false_ne_true)
  unfold Stream.readNode
  simp only [hop, hext', Bool.not_false, Bool.true_and]
  by_cases hnone : (isa.info (g.node n).opcode).operand = .none
  · have hno : ¬ (isa.info (g.node n).opcode).flags.hasArgument = true := fun harg =>
      hargument.mp harg hnone
    rw [if_neg hno]
    refine ⟨_, rfl, ?_⟩
    rw [hnone] at hfits
    have hkind := kind_of_fits rfl hfits
    cases hoperand : (g.node n).operand <;> rw [hoperand] at hkind <;> first | rfl | cases hkind
  · rw [if_pos (hargument.mpr hnone)]
    cases hjump : (isa.info (g.node n).opcode).operand.isJump with
    | true => exact readOperand_of_jump _ _ _ _ hjump hfits
    | false =>
      have hn' := hn (hreg.jump_operand.symm.trans hjump)
      exact readOperand_of_holds hreg.packing hnone hjump hfits hholds hn' _ _

end Read

end Assembly

end Wordcode
