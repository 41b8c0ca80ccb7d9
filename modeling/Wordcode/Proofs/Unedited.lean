/-
# Graphs as they were read

The nodes of a decoded graph are what the units of the code are read as. Those that
execution gets to are laid out in the order of the units and nothing needs repair, and
every operand is found at the pool index it was read from. If execution gets to all of
them and instructions without an operand have argument zero, all arguments are again what
they were.

Key definitions: `Stream.Unedited`.
Key theorems: `Assembly.collectOperand_of_readNode`, `Stream.Unedited.exists_linearize`,
`Stream.Unedited.collect_eq`, `Stream.Unedited.number_eq`,
`Stream.Unedited.exists_arguments`, `Graph.exists_unedited`.
-/
import Wordcode.Proofs.Emits
import Wordcode.Proofs.InOrder

namespace Wordcode

namespace Assembly

variable {isa : InstructionSet} {pools : Pools}

/-! ### Operands that were read -/

/-- A cell or free variable is found at the index it was read from. -/
theorem hintedCell?_of_cellName? {index : Nat} {name : String}
    (h : pools.cellName? index = some name) : ∃ place,
    (PoolGrowth.ofPools pools).hintedCell? name index = some place ∧
      (PoolGrowth.ofPools pools).cellIndex place = index := by
  unfold Pools.cellName? at h
  unfold PoolGrowth.hintedCell?
  by_cases hlt : index < pools.cells.size
  · rw [if_pos hlt] at h
    have hlt' : index < (PoolGrowth.ofPools pools).seedCells := hlt
    have hcell : (PoolGrowth.ofPools pools).pools.cells[index]? = some name := h
    rw [if_pos hlt', if_pos hcell]
    exact ⟨_, rfl, rfl⟩
  · rw [if_neg hlt] at h
    have hlt' : ¬ index < (PoolGrowth.ofPools pools).seedCells := hlt
    have hfree : (PoolGrowth.ofPools pools).pools.free[index -
        (PoolGrowth.ofPools pools).seedCells]? = some name := h
    rw [if_neg hlt', if_pos hfree]
    refine ⟨_, rfl, ?_⟩
    show pools.cells.size + (index - pools.cells.size) = index
    omega

/-- The entry at an index is collected from the index it was read from. -/
theorem collectOperand_of_entry {node : Node} {pool : PoolKind} {index : Nat} {operand : Operand}
    (hentry : Stream.entry? pools pool index = some operand) (hop : node.operand = operand)
    (hhint : node.poolHint = some index) :
    ∃ c, collectOperand node (.ofPools pools) = (c, .ofPools pools) ∧
      poolIndex? (.ofPools pools) c = some (index, node.operandFlags) := by
  unfold collectOperand
  rw [hop, hhint]
  cases pool with
  | constants =>
    obtain ⟨x, hx, rfl⟩ := Option.map_eq_some_iff.mp hentry
    have hkept : Pool.internHinted (PoolGrowth.ofPools pools).pools.constants x (some index) =
        (index, pools.constants) := Pool.internHinted_of_hint hx
    simp only [PoolGrowth.internConstant, hkept]
    exact ⟨_, rfl, rfl⟩
  | names =>
    obtain ⟨x, hx, rfl⟩ := Option.map_eq_some_iff.mp hentry
    have hkept : Pool.internHinted (PoolGrowth.ofPools pools).pools.names x (some index) =
        (index, pools.names) := Pool.internHinted_of_hint hx
    simp only [PoolGrowth.internName, hkept]
    exact ⟨_, rfl, rfl⟩
  | locals =>
    obtain ⟨x, hx, rfl⟩ := Option.map_eq_some_iff.mp hentry
    have hkept : Pool.internHinted (PoolGrowth.ofPools pools).pools.locals x (some index) =
        (index, pools.locals) := Pool.internHinted_of_hint hx
    simp only [PoolGrowth.internLocal, hkept]
    exact ⟨_, rfl, rfl⟩
  | cells =>
    obtain ⟨x, hx, rfl⟩ := Option.map_eq_some_iff.mp hentry
    obtain ⟨place, hplace, hindex⟩ := hintedCell?_of_cellName? hx
    simp only [PoolGrowth.internCell, Option.bind_some, hplace]
    refine ⟨_, rfl, ?_⟩
    simp only [poolIndex?, hindex]

theorem fits_of_entry {kind : OperandKind} {pool : PoolKind} {index : Nat} {operand : Operand}
    (hentry : Stream.entry? pools pool index = some operand)
    (hpool : Stream.poolOf? kind = some pool) : operand.fits kind = true := by
  cases kind <;> cases hpool <;>
    obtain ⟨x, -, rfl⟩ := Option.map_eq_some_iff.mp hentry <;> rfl

section ReadNode

variable (hisa : isa.Regular) {node : Node} {opcode : Opcode} {argument : Nat}
include hisa

theorem collectOperand_of_pool {pool : PoolKind} {operand : Operand}
    (hpool : Stream.poolOf? (isa.info opcode).operand = some pool)
    (hentry : Stream.entry? pools pool argument = some operand) (hop : node.operand = operand)
    (hhint : node.poolHint = some argument) :
    node.operand.fits (isa.info opcode).operand = true ∧
      ∃ c, collectOperand node (.ofPools pools) = (c, .ofPools pools) ∧
        ∀ number, Numbers isa (.ofPools pools) opcode c number → number = argument := by
  obtain ⟨c, hc, hindex⟩ := collectOperand_of_entry hentry hop hhint
  have hfits : node.operand.fits (isa.info opcode).operand = true := by
    rw [hop]
    exact fits_of_entry hentry hpool
  refine ⟨hfits, c, hc, fun number hn => ?_⟩
  cases c with
  | ready value => cases hindex
  | pooled i f | cell place f =>
    obtain ⟨index, flags, hi, hjoin⟩ := hn
    rw [hindex] at hi
    rw [(hisa.opcodes opcode).packing] at hjoin
    obtain ⟨rfl, -⟩ := Prod.mk.inj (Option.some.inj hi)
    exact (Option.some.inj hjoin).symm

/-- An operand without a pool is its argument, unless it is that of a jump. -/
theorem collectOperand_of_plain (hpool : Stream.poolOf? (isa.info opcode).operand = none)
    (hop : node.operand = Stream.plainOperand (isa.info opcode).operand argument) :
    node.operand.fits (isa.info opcode).operand = true ∧
      ∃ c, collectOperand node (.ofPools pools) = (c, .ofPools pools) ∧
        ((isa.flags opcode).isJump = false → ∀ number, Numbers isa (.ofPools pools) opcode c number →
          number = if (isa.info opcode).operand = .none then 0 else argument) := by
  unfold collectOperand
  rw [hop]
  cases hk : (isa.info opcode).operand with
  | none => exact ⟨rfl, .ready 0, rfl, fun _ number hn => hn⟩
  | raw => exact ⟨rfl, .ready argument, rfl, fun _ number hn => hn⟩
  | relativeJump | absoluteJump =>
    refine ⟨rfl, .ready 0, rfl, fun hjump => ?_⟩
    have hkind := (hisa.opcodes opcode).jump_operand
    have hjump' : (isa.info opcode).flags.isJump = false := hjump
    rw [hk, hjump'] at hkind
    cases hkind
  | _ =>
    rw [hk] at hpool
    cases hpool

/-- **An operand that was read fits, is found again, and has the number it was read from**,
or zero if the instruction has no operand. -/
theorem collectOperand_of_readNode {word : Word} {offset : Nat}
    (h : Stream.readNode isa pools word argument offset = .ok node)
    (hext : (isa.flags word.opcode).extension = false) :
    node.operand.fits (isa.info word.opcode).operand = true ∧
      ∃ c, collectOperand node (.ofPools pools) = (c, .ofPools pools) ∧
        ((isa.flags word.opcode).isJump = false →
          ∀ number, Numbers isa (.ofPools pools) word.opcode c number →
            number = if (isa.flags word.opcode).hasArgument then argument else 0) := by
  have hreg := hisa.opcodes word.opcode
  have hargument : (isa.flags word.opcode).hasArgument = true ↔
      (isa.info word.opcode).operand ≠ .none :=
    hreg.argument.resolve_left fun h => Bool.false_ne_true (hext.symm.trans h)
  cases Stream.readAs_of_readNode h with
  | entry pool hindexes hpool hentry hhint hflags =>
    rw [hreg.packing] at hentry hhint
    obtain ⟨hfits, c, hc, hnumber⟩ := collectOperand_of_pool hisa hpool hentry rfl hhint
    rw [if_pos hindexes.2.1]
    exact ⟨hfits, c, hc, fun _ => hnumber⟩
  | plain hhas hpool hoperand =>
    obtain ⟨hfits, c, hc, hnumber⟩ := collectOperand_of_plain hisa hpool hoperand
    rw [if_neg (hargument.mp hhas)] at hnumber
    rw [if_pos hhas]
    exact ⟨hfits, c, hc, hnumber⟩
  | nothing hno hoperand =>
    have hnot : ¬ (isa.flags word.opcode).hasArgument = true := Bool.eq_false_iff.mp (hno hext)
    have hkind : (isa.info word.opcode).operand = .none := by
      by_contra hne
      exact hnot (hargument.mpr hne)
    have hplain : node.operand = Stream.plainOperand (isa.info word.opcode).operand argument := by
      rw [hkind, hoperand]
      rfl
    obtain ⟨hfits, c, hc, hnumber⟩ := collectOperand_of_plain hisa (by rw [hkind]; rfl) hplain
    rw [if_pos hkind] at hnumber
    rw [if_neg hnot]
    exact ⟨hfits, c, hc, hnumber⟩

end ReadNode

end Assembly

namespace Stream

/-- The nodes of the graph are what the units are read as, at positions of their own. -/
structure Unedited (isa : InstructionSet) (words : List Word) (pools : Pools) (g : Graph) :
    Prop where
  size_eq : g.size = words.length
  narrow : ∀ a ∈ folded isa words 0, a < UInt32.size
  unit : ∀ k word argument, words[k]? = some word → (folded isa words 0)[k]? = some argument →
    ∃ node linked position, readNode isa pools word argument (2 * k) = .ok node ∧
      linkNode isa words.length k node argument = .ok linked ∧
      g.node k = { linked with position }

theorem Reads.unedited {isa : InstructionSet} {words : List Word} {pools : Pools} {g : Graph}
    (h : Reads isa words pools g) : Unedited isa words pools g where
  size_eq := h.size_eq
  narrow := h.narrow
  unit := fun k word argument hw ha => by
    obtain ⟨node, hread, hlink⟩ := h.unit k word argument hw ha
    exact ⟨node, g.node k, _, hread, hlink, rfl⟩

open Assembly in
/-- The operands of the nodes of a layout, each collected from the pools. -/
def collectedOf (isa : InstructionSet) (pools : Pools) (g : Graph) (layout : List NodeId) :
    List Collected :=
  layout.map fun n =>
    if (g.node n).isExtension isa then .ready 0
    else (collectOperand (g.node n) (.ofPools pools)).1

namespace Unedited

open Assembly

variable {isa : InstructionSet} {words : List Word} {pools : Pools} {g : Graph}
  (h : Unedited isa words pools g)
include h

/-! ### What a unit was read as -/

section Unit

theorem at_lt {k : Nat} (hk : k < g.size) : ∃ word argument, words[k]? = some word ∧
    (folded isa words 0)[k]? = some argument := by
  have hword : k < words.length := h.size_eq ▸ hk
  have hfolded : k < (folded isa words 0).length := by
    rw [length_folded]
    exact hword
  exact ⟨_, _, List.getElem?_eq_getElem hword, List.getElem?_eq_getElem hfolded⟩

variable {k argument : Nat} {word : Word} (hw : words[k]? = some word)
  (ha : (folded isa words 0)[k]? = some argument)
include hw ha

theorem opcode : (g.node k).opcode = word.opcode := by
  obtain ⟨node, linked, position, hread, hlink, hnode⟩ := h.unit k word argument hw ha
  rw [hnode, (linkNode_eq_ok_iff.mp hlink).2.2]
  exact (readNode_fields hread).1

theorem flags : (g.node k).flags isa = isa.flags word.opcode := by
  rw [Node.flags, h.opcode hw ha]

theorem offset : (g.node k).offset = some (2 * k) := by
  obtain ⟨node, linked, position, hread, hlink, hnode⟩ := h.unit k word argument hw ha
  rw [hnode, (linkNode_eq_ok_iff.mp hlink).2.2]
  exact (readNode_fields hread).2.1

theorem successor : (g.node k).successor =
    if (g.node k).fallsThrough isa then some (k + 1) else none := by
  obtain ⟨node, linked, position, hread, hlink, hnode⟩ := h.unit k word argument hw ha
  rw [hnode, (linkNode_eq_ok_iff.mp hlink).2.2]
  rfl

theorem falls (hf : (g.node k).fallsThrough isa = true) : k + 1 < g.size := by
  obtain ⟨node, linked, position, hread, hlink, hnode⟩ := h.unit k word argument hw ha
  rw [h.size_eq]
  apply (linkNode_eq_ok_iff.mp hlink).1
  rw [hnode, (linkNode_eq_ok_iff.mp hlink).2.2] at hf
  exact hf

theorem branch : (g.node k).branch = if (g.node k).isJump isa then
    jumpTarget? isa ((g.node k).flags isa) argument (k * 2) (words.length * 2) else none := by
  obtain ⟨node, linked, position, hread, hlink, hnode⟩ := h.unit k word argument hw ha
  rw [hnode, (linkNode_eq_ok_iff.mp hlink).2.2]
  rfl

/-- The argument of a jump is the distance to where it lands. -/
theorem jumps (hj : (g.node k).isJump isa = true) : ∃ t < g.size, (g.node k).branch = some t ∧
    ∀ start width, k = start + width → Relaxation.distance isa ((g.node k).flags isa)
      (g.node k).opcode start width t = .ok argument := by
  obtain ⟨node, linked, position, hread, hlink, hnode⟩ := h.unit k word argument hw ha
  have hlinked := (linkNode_eq_ok_iff.mp hlink).2.2
  have hsome : (jumpTarget? isa ((g.node k).flags isa) argument (k * 2)
      (words.length * 2)).isSome = true := by
    have hland := (linkNode_eq_ok_iff.mp hlink).2.1
    rw [hnode, hlinked] at hj ⊢
    exact hland hj
  obtain ⟨t, ht⟩ := Option.isSome_iff_exists.mp hsome
  have hnarrow := h.narrow argument (List.mem_of_getElem? ha)
  have hdistance : ∀ start width, k = start + width → Relaxation.distance isa
      ((g.node k).flags isa) (g.node k).opcode start width t = .ok argument ∧
        t < words.length := by
    rintro start width rfl
    exact Relaxation.distance_of_jumpTarget? hnarrow ht
  refine ⟨t, ?_, ?_, fun start width hk => (hdistance start width hk).1⟩
  · rw [h.size_eq]
    exact (hdistance k 0 rfl).2
  · rw [h.branch hw ha, if_pos hj, ht]

theorem collects (hisa : isa.Regular) (hext : (g.node k).isExtension isa = false) :
    (g.node k).operand.fits (isa.info (g.node k).opcode).operand = true ∧
      ∃ c, collectOperand (g.node k) (.ofPools pools) = (c, .ofPools pools) ∧
        ((g.node k).isJump isa = false →
          ∀ number, Numbers isa (.ofPools pools) (g.node k).opcode c number →
            number = if (isa.flags word.opcode).hasArgument then argument else 0) := by
  obtain ⟨node, linked, position, hread, hlink, hnode⟩ := h.unit k word argument hw ha
  rw [Node.isExtension, h.flags hw ha] at hext
  rw [Node.isJump, h.flags hw ha, h.opcode hw ha]
  obtain ⟨hfits, c, hc, hnumber⟩ := collectOperand_of_readNode hisa hread hext
  rw [hnode, (linkNode_eq_ok_iff.mp hlink).2.2]
  exact ⟨hfits, c, hc, hnumber⟩

end Unit

theorem offset_of_lt {k : Nat} (hk : k < g.size) : (g.node k).offset = some (2 * k) := by
  obtain ⟨word, argument, hw, ha⟩ := h.at_lt hk
  exact h.offset hw ha

/-! ### The graph -/

section Whole

theorem closed : g.Closed := by
  intro k hk
  obtain ⟨word, argument, hw, ha⟩ := h.at_lt hk
  constructor
  · intro s hs
    rw [h.successor hw ha] at hs
    split at hs
    · rename_i hf
      obtain rfl := Option.some.inj hs
      exact h.falls hw ha hf
    · cases hs
  · intro t ht
    by_cases hj : (g.node k).isJump isa = true
    · obtain ⟨t', hlt, hb, -⟩ := h.jumps hw ha hj
      obtain rfl : t' = t := Option.some.inj (hb.symm.trans ht)
      exact hlt
    · rw [h.branch hw ha, if_neg hj] at ht
      cases ht

theorem hasEdges {k : Nat} (hk : k < g.size) : g.HasEdges isa k := by
  obtain ⟨word, argument, hw, ha⟩ := h.at_lt hk
  constructor
  · intro hf
    rw [h.successor hw ha, if_pos hf]
    exact Option.some_ne_none _
  · intro hj
    obtain ⟨t, -, ht, -⟩ := h.jumps hw ha hj
    rw [ht]
    exact Option.some_ne_none t

theorem next {k s : Nat} (hs : g.fallthrough? isa k = some s) : s = k + 1 ∧ k + 1 < g.size := by
  obtain ⟨hf, hs⟩ := Graph.fallthrough?_eq_some.mp hs
  by_cases hk : k < g.size
  · obtain ⟨word, argument, hw, ha⟩ := h.at_lt hk
    rw [h.successor hw ha, if_pos hf] at hs
    exact ⟨(Option.some.inj hs).symm, h.falls hw ha hf⟩
  · rw [Graph.node_of_size_le (Nat.not_lt.mp hk)] at hs
    cases hs

theorem isJump_of_branch {k t : Nat} (ht : (g.node k).branch = some t) :
    (g.node k).isJump isa = true := by
  by_cases hk : k < g.size
  · obtain ⟨word, argument, hw, ha⟩ := h.at_lt hk
    by_contra hno
    rw [h.branch hw ha, if_neg hno] at ht
    cases ht
  · rw [Graph.node_of_size_le (Nat.not_lt.mp hk)] at ht
    cases ht

theorem ahead (hisa : isa.Regular) {k t : Nat} (hk : k < g.size)
    (hr : ((g.node k).flags isa).jumpRelative = true) (ht : (g.node k).branch = some t) : k < t := by
  obtain ⟨word, argument, hw, ha⟩ := h.at_lt hk
  have hj : (g.node k).isJump isa = true := by
    rw [Node.isJump, Flags.isJump, hr, Bool.or_true]
  have habs : ((g.node k).flags isa).jumpAbsolute = false := (hisa.opcodes _).addressing hr
  have hback : ((g.node k).flags isa).jumpBackward = false := (hisa.opcodes _).forward
  obtain ⟨t', -, hb, hdistance⟩ := h.jumps hw ha hj
  obtain rfl : t' = t := Option.some.inj (hb.symm.trans ht)
  rcases (Relaxation.distance_eq_ok_iff.mp (hdistance k 0 rfl)).2 habs with ⟨hno, -⟩ | ⟨-, hle⟩
  · rw [hback] at hno
    cases hno
  · exact hle

variable {handlers : List NodeId}

/-- **The layout is the units that execution gets to, in their order.** -/
theorem exists_linearize (hisa : isa.Regular) (hroots : ∀ r ∈ 0 :: handlers, r < g.size) :
    ∃ layout, g.linearize isa 0 handlers = .ok (Layout.bindOffsets layout 0 g, layout) ∧
      layout.Pairwise (· < ·) ∧ ∀ n, n ∈ layout ↔ g.Live isa (0 :: handlers) n := by
  have hmem : ∀ n, n ∈ Layout.order isa g 0 (g.reachable isa (0 :: handlers)) ↔
      g.Live isa (0 :: handlers) n := fun n => Layout.mem_order h.closed hroots
  have hascending := Layout.pairwise_order h.closed hroots (fun _ => h.offset_of_lt) fun n s hs => (h.next hs).1
  refine ⟨_, Graph.linearize_of_order hisa h.closed hroots
    (fun n hn => h.hasEdges (h.closed.lt_of_live hroots hn)) rfl (fun n hn s hs => ?_)
    fun n hn hr t ht => ?_, hascending, hmem⟩
  · have hlive := ((hmem n).mp hn).step (Graph.mem_targets.mpr (Or.inl hs))
    obtain ⟨rfl, -⟩ := h.next hs
    exact Layout.pair_infix_of_pairwise_lt hascending hn ((hmem _).mpr hlive)
  · have hlt := h.closed.lt_of_live hroots ((hmem n).mp hn)
    have hj : (g.node n).isJump isa = true := by
      rw [Node.isJump, Flags.isJump, hr, Bool.or_true]
    have hlive := ((hmem n).mp hn).step
      (Graph.mem_targets.mpr (Or.inr (Graph.branch?_eq_some.mpr ⟨hj, ht⟩)))
    exact Layout.pair_sublist_of_pairwise_lt hascending hn ((hmem t).mpr hlive)
      (h.ahead hisa hlt hr ht)

theorem linearize (hisa : isa.Regular) (hroots : ∀ r ∈ 0 :: handlers, r < g.size)
    (hlive : ∀ k < g.size, g.Live isa (0 :: handlers) k) :
    g.linearize isa 0 handlers = .ok (g, List.range g.size) := by
  obtain ⟨layout, hlin, hascending, hmem⟩ := h.exists_linearize hisa hroots
  have hrange : layout = List.range g.size :=
    Layout.eq_of_pairwise_lt hascending List.pairwise_lt_range fun n => by
      rw [hmem, List.mem_range]
      exact ⟨h.closed.lt_of_live hroots, hlive n⟩
  rw [hlin, hrange, Layout.bindOffsets_of_offset]
  intro i n hn
  obtain ⟨hlt, rfl⟩ := List.getElem?_eq_some_iff.mp hn
  rw [List.length_range] at hlt
  rw [List.getElem_range, h.offset_of_lt hlt, Nat.zero_add, Nat.mul_comm]

end Whole

/-! ### The operands -/

section Operands

variable (hisa : isa.Regular)
include hisa

/-- The operands of units, collected from the pools that they were read with. -/
theorem collect_eq {layout : List NodeId} (hlt : ∀ n ∈ layout, n < g.size) :
    collect isa g layout (.ofPools pools) #[] =
      .ok ((collectedOf isa pools g layout).toArray, .ofPools pools) := by
  have hkept : ∀ n ∈ layout, (g.node n).isExtension isa = false →
      (g.node n).operand.fits (isa.info (g.node n).opcode).operand = true ∧
        (collectOperand (g.node n) (.ofPools pools)).2 = .ofPools pools := by
    intro n hn hext
    obtain ⟨word, argument, hw, ha⟩ := h.at_lt (hlt n hn)
    obtain ⟨hfits, c, hc, -⟩ := h.collects hw ha hisa hext
    rw [hc]
    exact ⟨hfits, rfl⟩
  rw [collect_of_kept hkept, Array.empty_append]
  rfl

/-- The number of an operand is the argument that it was read from, or zero if the
instruction has none. -/
theorem number_eq {layout : List NodeId} {k number : Nat} {c : Collected}
    (hc : (k, c) ∈ layout.zip (collectedOf isa pools g layout)) (hk : k < g.size)
    (hext : (g.node k).isExtension isa = false) (hj : (g.node k).isJump isa = false)
    (hn : Numbers isa (.ofPools pools) (g.node k).opcode c number) :
    ∃ argument, (folded isa words 0)[k]? = some argument ∧
      number = if ((g.node k).flags isa).hasArgument then argument else 0 := by
  obtain ⟨word, argument, hw, ha⟩ := h.at_lt hk
  obtain ⟨-, c', hcollect, hnumber⟩ := h.collects hw ha hisa hext
  have hc' : c = c' := by
    obtain ⟨i, hi, hzip⟩ := List.mem_iff_getElem.mp hc
    simp only [collectedOf, List.getElem_zip, List.getElem_map, Prod.mk.injEq] at hzip
    obtain ⟨hat, hvalue⟩ := hzip
    rw [hat, hext, hcollect] at hvalue
    exact hvalue.symm
  refine ⟨argument, ha, ?_⟩
  rw [h.flags hw ha]
  exact hnumber hj number (hc' ▸ hn)

variable (hzero : ∀ (k : Nat) (word : Word), words[k]? = some word →
  (isa.flags word.opcode).hasArgument = false → (folded isa words 0)[k]? = some 0)
include hzero

/-- **Every operand gets the argument that it was read with, and nothing is added to the
pools**, if instructions without an operand have argument zero. -/
theorem exists_arguments : ∃ operands g₂ arguments,
    collect isa g (List.range g.size) (.ofPools pools) #[] = .ok (operands, .ofPools pools) ∧
    number isa (.ofPools pools) ((List.range g.size).zip operands.toList) g #[] =
      (g₂, .ok arguments) ∧
    g.SameCode g₂ ∧ arguments.length = g.size ∧
    ∀ k argument : Nat, (folded isa words 0)[k]? = some argument →
      (g.node k).isExtension isa = false → (g.node k).isJump isa = false →
      arguments[k]? = some argument := by
  have hpacking : ∀ op, (isa.info op).packing = .none := fun op => (hisa.opcodes op).packing
  have hcollected : (collectedOf isa pools g (List.range g.size)).length = g.size := by
    unfold collectedOf
    rw [List.length_map, List.length_range]
  obtain ⟨g₂, arguments, hnum⟩ := exists_number hpacking
    ((List.range g.size).zip (collectedOf isa pools g (List.range g.size))) g #[]
  obtain ⟨hsame, later, hlater, hall⟩ := number_spec hnum
  obtain rfl : arguments = later := hlater
  have hlen : arguments.length = g.size := by
    rw [← hall.length_eq, List.length_zip, hcollected, List.length_range, Nat.min_self]
  refine ⟨_, g₂, arguments, h.collect_eq hisa fun n hn => List.mem_range.mp hn, hnum, hsame, hlen, ?_⟩
  intro k argument ha hext hj
  have hk : k < g.size := by
    have hlt := (List.getElem?_eq_some_iff.mp ha).1
    rw [length_folded] at hlt
    rw [h.size_eq]
    exact hlt
  obtain ⟨word, -, hw, -⟩ := h.at_lt hk
  have hitem := hall.get (i := k) (by rw [List.length_zip, hcollected, List.length_range]; omega)
    (by omega)
  simp only [List.get_eq_getElem, List.getElem_zip, List.getElem_range] at hitem
  obtain ⟨argument', ha', hnumber⟩ := h.number_eq hisa (List.mem_iff_getElem.mpr
    ⟨k, by rw [List.length_zip, hcollected, List.length_range]; omega, by
      rw [List.getElem_zip, List.getElem_range]⟩) hk hext hj hitem
  obtain rfl : argument = argument' := Option.some.inj (ha.symm.trans ha')
  have hargument : (if ((g.node k).flags isa).hasArgument then argument else 0) = argument := by
    rw [h.flags hw ha]
    cases harg : (isa.flags word.opcode).hasArgument with
    | true => rfl
    | false => exact Option.some.inj ((hzero k word hw harg).symm.trans ha)
  rw [List.getElem?_eq_getElem (by omega), hnumber, hargument]

end Operands

end Unedited

end Stream

namespace Graph

variable {isa : InstructionSet}

/-- What was read is a graph as it was read, and its nodes look as they were seen to. -/
theorem exists_unedited {β : Type} {view : Node → β} {code : List UInt8} {pools : Pools}
    {found : Array β}
    (h : (Stream.decode isa code pools).toOption.map (·.nodes.map view) = some found) :
    ∃ g words, Stream.decode isa code pools = .ok g ∧ Stream.Unedited isa words pools g ∧
      0 < g.size ∧ ∀ n, view (g.node n) = found.getD n (view default) := by
  cases hd : Stream.decode isa code pools with
  | error e =>
    rw [hd] at h
    cases h
  | ok g =>
    rw [hd] at h
    obtain ⟨words, hne, -, hreads⟩ := Stream.decode_eq_ok_iff.mp hd
    refine ⟨g, words, rfl, hreads.unedited, ?_, fun n => ?_⟩
    · rw [hreads.size_eq]
      exact List.length_pos_iff.mpr hne
    · rw [← Option.some.inj h, node, Array.getD_eq_getD_getElem?, Array.getD_eq_getD_getElem?,
        Array.getElem?_map]
      cases g.nodes[n]? <;> rfl

end Graph

end Wordcode
