/-
# Operands with flag bits, read and written again

An operand that was read keeps its index as a hint and its flags beside it, so encoding joins
what reading split. The entry is still at the hint, and the instructions that laying out adds
are jumps, which index nothing. So encoding code as it was read refuses an index exactly where
`join` does not undo `split` (`Wordcode.Proofs.FlagBits`): at an instruction that execution gets
to and whose argument has bits above its flag bit.

The built-in instruction sets pack nothing; what is meant here are these sets with packings put
into them (`InstructionSet.unpacked`).

Key definitions: `InstructionSet.unpacked`, `Node.content`, `Stream.CrowdedAt`.
Key theorems: `Graph.linearize_content`, `Assembly.collectOperand_of_readAs`,
`Assembly.number_eq_error`, `Stream.Unedited.assemble_overflow`,
`Stream.Unedited.exists_assemble_overflow`, `CodeUnit.encode_packed`.
-/
import Wordcode.Proofs.FlagBits
import Wordcode.Proofs.RoundTrip

namespace Wordcode

/-! ### Instruction sets with other packings -/

namespace InstructionSet

/-- The instruction set without packings. -/
def unpacked (isa : InstructionSet) : InstructionSet :=
  { isa with opcodes := isa.opcodes.map fun info => { info with packing := .none } }

variable {isa : InstructionSet} {op : Opcode}

theorem info_unpacked (isa : InstructionSet) (op : Opcode) :
    isa.unpacked.info op = { isa.info op with packing := .none } := by
  simp [info, unpacked]

theorem unpacked_withPacking (isa : InstructionSet) (op : Opcode) (p : FlagPacking) :
    (isa.withPacking op p).unpacked = isa.unpacked := by
  have hset : (isa.opcodes.set op.toNat { isa.info op with packing := p } op.toNat_lt).map
      (fun info => { info with packing := FlagPacking.none }) =
      isa.opcodes.map fun info => { info with packing := FlagPacking.none } := by
    refine Vector.ext fun i hi => ?_
    rw [Vector.getElem_map, Vector.getElem_map, Vector.getElem_set]
    split
    · rename_i heq
      subst heq
      rfl
    · rfl
  unfold unpacked withPacking withOpcode
  rw [hset]

theorem BuiltIn.unpacked (h : isa.BuiltIn) : isa.unpacked = isa := by
  have hmap : isa.opcodes.map (fun info => { info with packing := FlagPacking.none }) =
      isa.opcodes := by
    refine Vector.ext fun i hi => ?_
    have hop : (Opcode.ofNat i).toNat = i := UInt8.toNat_ofNat_of_lt hi
    have hpacking : isa.opcodes[i].packing = .none := by
      have hinfo := (h.regular.opcodes (Opcode.ofNat i)).packing
      simp only [info, hop] at hinfo
      exact hinfo
    rw [Vector.getElem_map, ← hpacking]
  rw [InstructionSet.unpacked, hmap]

theorem hasArgument_iff_of_unpacked (h : isa.unpacked.BuiltIn)
    (hext : (isa.flags op).extension = false) :
    (isa.flags op).hasArgument = true ↔ (isa.info op).operand ≠ .none := by
  have hargument := (h.regular.opcodes op).argument
  rw [info_unpacked] at hargument
  exact hargument.resolve_left (by rw [flags] at hext; rw [hext]; exact Bool.false_ne_true)

theorem fits_jump_of_unpacked (h : isa.unpacked.BuiltIn)
    (hop : op = isa.jumpAbsolute ∨ op = isa.jumpForward) :
    Operand.jump.fits (isa.info op).operand = true := by
  have hjump : (isa.unpacked.flags op).isJump = true := (h.regular.written hop.symm).1
  have hkind := (h.regular.opcodes op).jump_operand
  rw [flags, info_unpacked] at hjump
  rw [info_unpacked] at hkind
  exact hkind.trans hjump

/-- The 3.8 interpreter with a flag in bit 7 of the operand of opcode 116. -/
def flagged : InstructionSet := python38.withPacking ⟨116⟩ (.highBit 7)

theorem flags_flagged (op : Opcode) : flagged.flags op = python38.flags op :=
  flags_withPacking ..

theorem builtIn_flagged : flagged.unpacked.BuiltIn := by
  rw [flagged, unpacked_withPacking, BuiltIn.unpacked (Or.inl rfl)]
  exact Or.inl rfl

end InstructionSet

/-! ### What laying out keeps -/

/-- A node without its place in the code and its edges. -/
def Node.content (node : Node) : Node :=
  { node with offset := none, successor := none, branch := none }

namespace Node

theorem content_withEdge (node : Node) (edge : Edge) (target : Option NodeId) :
    (node.withEdge edge target).content = node.content := by
  cases edge <;> rfl

variable {a b : Node} (h : a.content = b.content)
include h

theorem opcode_of_content : a.opcode = b.opcode := (congrArg Node.opcode h :)

theorem operand_of_content : a.operand = b.operand := (congrArg Node.operand h :)

theorem collectOperand_of_content (growth : PoolGrowth) :
    Assembly.collectOperand a growth = Assembly.collectOperand b growth := by
  have hhint : a.poolHint = b.poolHint := (congrArg Node.poolHint h :)
  have hflags : a.operandFlags = b.operandFlags := (congrArg Node.operandFlags h :)
  unfold Assembly.collectOperand
  rw [operand_of_content h, hhint, hflags]

end Node

namespace Layout

variable {isa : InstructionSet} {g g₁ : Graph} {order closed nodes laid : List Nat} {n : Nat}

theorem content_bindOffsets (n : Nat) : ∀ (nodes : List NodeId) (i : Nat) (g : Graph),
    ((bindOffsets nodes i g).node n).content = (g.node n).content
  | [], _, _ => rfl
  | m :: rest, i, g => by
    rw [bindOffsets, content_bindOffsets n rest, Graph.node_modify]
    split <;> rfl

theorem GapsClosed.content (h : GapsClosed isa g g₁ order closed) (hn : n < g.size) :
    (g₁.node n).content = (g.node n).content := by
  by_cases ho : n ∈ order
  · rcases h.node n ho with ⟨heq, -⟩ | ⟨j, -, heq⟩
    · rw [heq]
    · rw [heq, Node.content_withEdge]
  · rw [h.frame n hn ho]

theorem Trampolines.content (h : Trampolines isa g g₁ nodes laid) (hn : n < g.size) :
    (g₁.node n).content = (g.node n).content := by
  by_cases ho : n ∈ nodes
  · rcases h.node n ho with ⟨heq, -⟩ | ⟨j, t, -, heq⟩
    · rw [heq]
    · rw [heq, Node.content_withEdge]
  · rw [h.frame n hn ho]

end Layout

namespace Graph

variable {isa : InstructionSet} {g g' : Graph} {entry n : NodeId} {handlers layout : List NodeId}

/-- The node is a jump that laying out adds. -/
def IsAdded (isa : InstructionSet) (node : Node) : Prop :=
  node.operand = .jump ∧ (node.opcode = isa.jumpAbsolute ∨ node.opcode = isa.jumpForward)

theorem IsAdded.of_content {a b : Node} (h : a.content = b.content) (hb : IsAdded isa b) :
    IsAdded isa a := by
  rw [IsAdded, Node.operand_of_content h, Node.opcode_of_content h]
  exact hb

/-- **What is laid out** is what execution can get to, with the operands it has, and jumps. -/
theorem linearize_content (hg : g.Closed) (hroots : ∀ r ∈ entry :: handlers, r < g.size)
    (h : g.linearize isa entry handlers = .ok (g', layout)) :
    (∀ n, g.Live isa (entry :: handlers) n → n ∈ layout) ∧
      (∀ n, g.Live isa (entry :: handlers) n → (g'.node n).content = (g.node n).content) ∧
      ∀ n ∈ layout, g.Live isa (entry :: handlers) n ∨ IsAdded isa (g'.node n) := by
  unfold linearize at h
  cases hf : g.reachable? isa (entry :: handlers) with
  | error e => simp [hf] at h
  | ok found =>
    obtain ⟨rfl, -⟩ := (reachable?_eq_ok_iff hg hroots).mp hf
    obtain ⟨g₁, closed, g₂, laid, hclose, hadd, hgaps, htrampolines⟩ :=
      Layout.exists_repairs isa hg hroots
    simp only [hf, hclose, hadd, Except.ok.injEq, Prod.mk.injEq] at h
    obtain ⟨rfl, rfl⟩ := h
    have hmem : ∀ n, n ∈ Layout.order isa g entry (g.reachable isa (entry :: handlers)) ↔
        g.Live isa (entry :: handlers) n := fun n => Layout.mem_order hg hroots
    have hle : g.size ≤ g₁.size := by
      obtain ⟨count, hcount, -⟩ := hgaps.added
      omega
    refine ⟨fun n hn => ?_, fun n hn => ?_, fun n hn => ?_⟩
    · exact htrampolines.prefix_laid.subset (hgaps.in_order.subset ((hmem n).mpr hn))
    · have hlt := hg.lt_of_live hroots hn
      rw [Layout.content_bindOffsets, htrampolines.content (Nat.lt_of_lt_of_le hlt hle),
        hgaps.content hlt]
    · have hoffsets := Layout.content_bindOffsets n laid 0 g₂
      rcases Nat.lt_or_ge n g₁.size with hlt | hge
      · have hn' := (htrampolines.mem_iff hlt).mp hn
        rcases Nat.lt_or_ge n g.size with hold | hnew
        · exact Or.inl ((hmem n).mp ((hgaps.mem_iff hold).mp hn'))
        · obtain ⟨m, -, hgap⟩ := hgaps.jump n hn' hnew
          obtain ⟨s, opcode, -, hnode, hopcode⟩ := hgap.jump
          refine Or.inr (IsAdded.of_content (hoffsets.trans (htrampolines.content hlt)) ?_)
          rw [hnode]
          exact ⟨rfl, hopcode.imp_right And.left⟩
      · obtain ⟨m, -, t, ht⟩ := htrampolines.jump n hn hge
        refine Or.inr (IsAdded.of_content hoffsets ?_)
        rw [ht.jump]
        exact ⟨rfl, Or.inl rfl⟩

end Graph

/-! ### Operands that were read -/

namespace Assembly

variable {isa : InstructionSet} {pools : Pools} {node : Node} {word : Word} {argument : Nat}

theorem collectOperand_of_plainOperand {kind : OperandKind} (growth : PoolGrowth)
    (hoperand : node.operand = Stream.plainOperand kind argument) :
    ∃ value, collectOperand node growth = (.ready value, growth) := by
  unfold collectOperand
  rw [hoperand]
  cases kind <;> exact ⟨_, rfl⟩

theorem fits_plainOperand {kind : OperandKind} (hpool : Stream.poolOf? kind = none) :
    (Stream.plainOperand kind argument).fits kind = true := by
  cases kind with
  | none | raw | relativeJump | absoluteJump => rfl
  | constant | name | «local» | cell => cases hpool

/-- **An operand that was read is collected with its index and flags**, if it has any. -/
theorem collectOperand_of_readAs (h : Stream.ReadAs isa pools word argument node) :
    ∃ c, collectOperand node (.ofPools pools) = (c, .ofPools pools) ∧
      ∀ index flags, poolIndex? (.ofPools pools) c = some (index, flags) ↔
        isa.Indexes word.opcode ∧
          (isa.info word.opcode).packing.split argument = (index, flags) := by
  -- what is ready has no index
  have hready : ∀ value, ¬ isa.Indexes word.opcode → ∀ index flags,
      poolIndex? (.ofPools pools) (.ready value) = some (index, flags) ↔
        isa.Indexes word.opcode ∧ (isa.info word.opcode).packing.split argument = (index, flags) :=
    fun value hno index flags => iff_of_false (by intro h; cases h) fun h => hno h.1
  cases h with
  | entry pool hindexes hpool hentry hhint hflags =>
    obtain ⟨c, hc, hindex⟩ := collectOperand_of_entry hentry rfl hhint
    refine ⟨c, hc, fun index flags => ?_⟩
    rw [hindex, hflags, Option.some_inj]
    exact ⟨fun heq => ⟨hindexes, heq⟩, fun h => h.2⟩
  | plain hargument hpool hoperand =>
    obtain ⟨value, hc⟩ := collectOperand_of_plainOperand (.ofPools pools) hoperand
    refine ⟨.ready value, hc, hready value ?_⟩
    rintro ⟨-, -, hsome⟩
    rw [hpool] at hsome
    cases hsome
  | nothing hargument hoperand =>
    have hplain : node.operand = Stream.plainOperand .none argument := hoperand
    obtain ⟨value, hc⟩ := collectOperand_of_plainOperand (.ofPools pools) hplain
    refine ⟨.ready value, hc, hready value ?_⟩
    rintro ⟨hext, hhas, -⟩
    rw [hargument hext] at hhas
    cases hhas

theorem fits_of_readAs (h : Stream.ReadAs isa pools word argument node)
    (hargument : (isa.flags word.opcode).hasArgument = true ↔
      (isa.info word.opcode).operand ≠ .none)
    (hext : (isa.flags word.opcode).extension = false) :
    node.operand.fits (isa.info word.opcode).operand = true := by
  cases h with
  | entry pool hindexes hpool hentry hhint hflags => exact fits_of_entry hentry hpool
  | plain hhas hpool hoperand =>
    rw [hoperand]
    exact fits_plainOperand hpool
  | nothing hno hoperand =>
    have hnone : (isa.info word.opcode).operand = .none := by
      by_contra hne
      have hhas := hargument.mpr hne
      rw [hno hext] at hhas
      cases hhas
    rw [hoperand, hnone]
    rfl

end Assembly

/-! ### Indices that are refused -/

namespace Assembly

variable {isa : InstructionSet} {growth : PoolGrowth}

/-- Collecting fails at operands of the wrong kind only. -/
theorem collect_ne_overflow {g : Graph} {opcode : Opcode} {index : Nat} :
    ∀ (layout : List NodeId) (growth : PoolGrowth) (done : Array Collected),
      collect isa g layout growth done ≠ .error (.operandOverflow opcode index) := by
  intro layout
  induction layout with
  | nil =>
    intro growth done h
    cases h
  | cons n rest ih =>
    intro growth done
    rw [collect]
    dsimp only
    split
    · exact ih _ _
    · split
      · exact ih _ _
      · intro h
        cases h

theorem collect_eq_of_kept {g : Graph} {layout : List NodeId} {growth growth' : PoolGrowth}
    {operands : Array Collected} (h : collect isa g layout growth #[] = .ok (operands, growth'))
    (hkept : ∀ n ∈ layout, (collectOperand (g.node n) growth).2 = growth) :
    growth' = growth ∧ operands.toList = layout.map fun n =>
      if (g.node n).isExtension isa then .ready 0 else (collectOperand (g.node n) growth).1 := by
  obtain ⟨-, later, -, hall⟩ := collect_spec h
  have hfits : ∀ n ∈ layout, (g.node n).isExtension isa = false →
      (g.node n).operand.fits (isa.info (g.node n).opcode).operand = true := by
    intro n hn hext
    obtain ⟨i, hi, rfl⟩ := List.mem_iff_getElem.mp hn
    have hcollects := hall.get hi (hall.length_eq ▸ hi)
    rw [Collects, List.get_eq_getElem, if_neg (by rw [hext]; exact Bool.false_ne_true)] at hcollects
    exact hcollects.1
  rw [collect_of_kept fun n hn hext => ⟨hfits n hn hext, hkept n hn⟩] at h
  obtain ⟨rfl, rfl⟩ := Prod.mk.inj (Except.ok.inj h)
  exact ⟨rfl, by simp⟩

/-- Numbering fails at an index that is not joined with its flags. -/
theorem number_eq_error : ∀ {items : List (NodeId × Collected)} {g g' : Graph} {done : Array Nat}
    {e : Error}, number isa growth items g done = (g', .error e) →
    ∃ n c index flags, (n, c) ∈ items ∧ poolIndex? growth c = some (index, flags) ∧
      (isa.info (g.node n).opcode).packing.join index flags = none ∧
      e = .operandOverflow (g.node n).opcode index
  | [], _, _, _, _, h => by cases (Prod.mk.inj h).2
  | (n, c) :: rest, g, g', done, e, h => by
    cases hc : poolIndex? growth c with
    | none =>
      cases c with
      | ready value =>
        rw [number_ready] at h
        obtain ⟨m, c, index, flags, hmem, hfound⟩ := number_eq_error h
        exact ⟨m, c, index, flags, List.mem_cons_of_mem _ hmem, hfound⟩
      | pooled i f => cases hc
      | cell place f => cases hc
    | some p =>
      obtain ⟨index, flags⟩ := p
      rw [number_indexed hc] at h
      split at h
      · have hone : g.SameCode (g.modify n ({ · with poolHint := some index })) :=
          g.sameCode_modify n fun _ => rfl
        obtain ⟨m, c, index, flags, hmem, hfound⟩ := number_eq_error h
        rw [hone.opcode] at hfound
        exact ⟨m, c, index, flags, List.mem_cons_of_mem _ hmem, hfound⟩
      · rename_i hjoin
        obtain ⟨-, herror⟩ := Prod.mk.inj h
        exact ⟨n, c, index, flags, List.mem_cons_self, hc, hjoin, (Except.error.inj herror).symm⟩

theorem exists_number_error {items : List (NodeId × Collected)} {g : Graph} (done : Array Nat)
    {n : NodeId} {c : Collected} {index flags : Nat} (hmem : (n, c) ∈ items)
    (hc : poolIndex? growth c = some (index, flags))
    (hjoin : (isa.info (g.node n).opcode).packing.join index flags = none) :
    ∃ g' e, number isa growth items g done = (g', .error e) := by
  cases hn : number isa growth items g done with
  | mk g' result =>
    cases result with
    | error e => exact ⟨g', e, rfl⟩
    | ok arguments =>
      obtain ⟨-, later, -, hall⟩ := number_spec hn
      obtain ⟨i, hi, hitem⟩ := List.mem_iff_getElem.mp hmem
      have hnumbers := hall.get hi (hall.length_eq ▸ hi)
      rw [List.get_eq_getElem, hitem] at hnumbers
      cases c with
      | ready value => cases hc
      | pooled i f | cell place f =>
        obtain ⟨index', flags', hc', hjoin'⟩ := hnumbers
        rw [hc] at hc'
        obtain ⟨rfl, rfl⟩ := Prod.mk.inj (Option.some.inj hc')
        rw [hjoin] at hjoin'
        cases hjoin'

end Assembly

theorem Relaxation.settle_ne_overflow {isa : InstructionSet} {g : Graph} {opcode : Opcode}
    {index : Nat} (owner : Std.HashMap NodeId Nat) (runs : List Run)
    (left iteration : Nat) (widths : List Nat) : settle isa g owner runs left iteration widths ≠
      .error (.operandOverflow opcode index) := by
  fun_induction settle isa g owner runs left iteration widths with
  | case1 | case2 | case3 =>
    intro h
    cases h
  | case4 _ _ _ _ _ _ _ ih => exact ih

theorem relax_ne_overflow {isa : InstructionSet} {g : Graph} {layout : List NodeId}
    {arguments : List Nat} {opcode : Opcode} {index : Nat} :
    relax isa g layout arguments ≠ .error (.operandOverflow opcode index) := by
  unfold relax
  split
  · intro h
    cases h
  · dsimp only
    split
    · rename_i e hsettle
      rintro h
      rw [Except.error.inj h] at hsettle
      exact Relaxation.settle_ne_overflow _ _ _ _ _ hsettle
    · intro h
      cases h

open Assembly in
/-- An index is refused when operands are numbered. -/
theorem Graph.assemble_eq_overflow {isa : InstructionSet} {g g' : Graph} {entry : NodeId}
    {handlers : List NodeId} {pools : Pools} {opcode : Opcode} {index : Nat}
    (h : g.assemble isa entry handlers pools = (g', .error (.operandOverflow opcode index))) :
    ∃ g₁ layout operands growth, g.linearize isa entry handlers = .ok (g₁, layout) ∧
      collect isa g₁ layout (.ofPools pools) #[] = .ok (operands, growth) ∧
      number isa growth (layout.zip operands.toList) g₁ #[] =
        (g', .error (.operandOverflow opcode index)) := by
  unfold assemble at h
  cases hlin : g.linearize isa entry handlers with
  | error e =>
    rw [hlin] at h
    cases (Prod.mk.inj h).2
  | ok laid =>
    simp only [hlin] at h
    cases hcollect : collect isa laid.1 laid.2 (.ofPools pools) #[] with
    | error e =>
      simp only [hcollect] at h
      rw [Except.error.inj (Prod.mk.inj h).2] at hcollect
      exact absurd hcollect (collect_ne_overflow _ _ _)
    | ok collected =>
      simp only [hcollect] at h
      refine ⟨laid.1, laid.2, collected.1, collected.2, rfl, hcollect, ?_⟩
      cases hnumber : number isa collected.2 (laid.2.zip collected.1.toList) laid.1 #[] with
      | mk g₂ result =>
        cases result with
        | error e =>
          simp only [hnumber, Prod.mk.injEq, Except.error.injEq] at h
          rw [h.1, h.2]
        | ok arguments =>
          simp only [hnumber] at h
          cases hrelax : relax isa g₂ laid.2 arguments with
          | error e =>
            simp only [hrelax] at h
            rw [Except.error.inj (Prod.mk.inj h).2] at hrelax
            exact absurd hrelax relax_ne_overflow
          | ok relaxed =>
            simp only [hrelax] at h
            cases (Prod.mk.inj h).2

/-! ### Code as it was read -/

namespace Stream

open Assembly

/-- Unit `k` has an operand from a pool, with an argument that has bits above its flag bit:
`index` is the index that is split off it. -/
def CrowdedAt (isa : InstructionSet) (words : List Word) (k : Nat) (opcode : Opcode) (index : Nat) :
    Prop :=
  ∃ word argument, words[k]? = some word ∧ (folded isa words 0)[k]? = some argument ∧
    word.opcode = opcode ∧ isa.Indexes opcode ∧ (isa.info opcode).packing.Crowded argument ∧
    ((isa.info opcode).packing.split argument).1 = index

/-- With one packing put into a built-in instruction set, only its opcode can be in question. -/
theorem crowdedAt_withPacking {isa : InstructionSet} {words : List Word} {op opcode : Opcode}
    {p : FlagPacking} {k index : Nat} (hisa : isa.BuiltIn) :
    CrowdedAt (isa.withPacking op p) words k opcode index ↔
      ∃ word argument, words[k]? = some word ∧
        (folded (isa.withPacking op p) words 0)[k]? = some argument ∧ word.opcode = opcode ∧
        op = opcode ∧ (isa.withPacking op p).Indexes opcode ∧ p.Crowded argument ∧
        (p.split argument).1 = index := by
  refine exists_congr fun word => exists_congr fun argument => and_congr_right fun _ =>
    and_congr_right fun _ => and_congr_right fun _ => ?_
  by_cases hop : op = opcode
  · subst hop
    simp only [InstructionSet.withPacking, InstructionSet.info_withOpcode_self, true_and]
  · have hpacking : ((isa.withPacking op p).info opcode).packing = .none := by
      rw [InstructionSet.withPacking, InstructionSet.info_withOpcode_ne _ _ hop]
      exact (hisa.regular.opcodes opcode).packing
    rw [hpacking]
    exact iff_of_false (fun h => h.2.1) fun h => hop h.1

namespace Unedited

variable {isa : InstructionSet} {words : List Word} {pools : Pools} {g g' : Graph}
  (h : Unedited isa words pools g)
include h

theorem collects_packed {k argument : Nat} {word : Word} (hw : words[k]? = some word)
    (ha : (folded isa words 0)[k]? = some argument) :
    ∃ c, collectOperand (g.node k) (.ofPools pools) = (c, .ofPools pools) ∧
      ∀ index flags, poolIndex? (.ofPools pools) c = some (index, flags) ↔
        isa.Indexes word.opcode ∧
          (isa.info word.opcode).packing.split argument = (index, flags) := by
  obtain ⟨node, linked, position, hread, hlink, hnode⟩ := h.unit k word argument hw ha
  obtain ⟨c, hc, hindexed⟩ := collectOperand_of_readAs (readAs_of_readNode hread)
  rw [hnode, (linkNode_eq_ok_iff.mp hlink).2.2]
  exact ⟨c, hc, hindexed⟩

theorem fits_packed {k argument : Nat} {word : Word} (hw : words[k]? = some word)
    (ha : (folded isa words 0)[k]? = some argument)
    (hargument : (isa.flags word.opcode).hasArgument = true ↔
      (isa.info word.opcode).operand ≠ .none)
    (hext : (isa.flags word.opcode).extension = false) :
    (g.node k).operand.fits (isa.info word.opcode).operand = true := by
  obtain ⟨node, linked, position, hread, hlink, hnode⟩ := h.unit k word argument hw ha
  have hfits := fits_of_readAs (readAs_of_readNode hread) hargument hext
  rw [hnode, (linkNode_eq_ok_iff.mp hlink).2.2]
  exact hfits

theorem isExtension_of_indexes {k : Nat} {word : Word} {argument : Nat} (hw : words[k]? = some word)
    (ha : (folded isa words 0)[k]? = some argument) (hindexes : isa.Indexes word.opcode) :
    (g.node k).isExtension isa = false := by
  rw [Node.isExtension, h.flags hw ha]
  exact hindexes.1

section Linearized

variable {handlers layout : List NodeId} (hroots : ∀ r ∈ 0 :: handlers, r < g.size)
  (hlin : g.linearize isa 0 handlers = .ok (g', layout))
include hroots hlin

/-- Collecting the operands of the layout adds nothing to the pools. -/
theorem growth_eq {n : NodeId} (hn : n ∈ layout) :
    (collectOperand (g'.node n) (.ofPools pools)).2 = .ofPools pools := by
  obtain ⟨-, hcontent, hmem⟩ := Graph.linearize_content h.closed hroots hlin
  rcases hmem n hn with hlive | ⟨hoperand, -⟩
  · obtain ⟨word, argument, hw, ha⟩ := h.at_lt (h.closed.lt_of_live hroots hlive)
    obtain ⟨c, hc, -⟩ := h.collects_packed hw ha
    rw [Node.collectOperand_of_content (hcontent n hlive), hc]
  · unfold collectOperand
    rw [hoperand]

/-- The items of the layout that have an index are the units that index a pool, with the index and
flags that they were read with. -/
theorem indexed_iff {n : NodeId} {index flags : Nat} :
    (∃ c, (n, c) ∈ layout.zip (collectedOf isa pools g' layout) ∧
      poolIndex? (.ofPools pools) c = some (index, flags)) ↔
    g.Live isa (0 :: handlers) n ∧ ∃ word argument, words[n]? = some word ∧
      (folded isa words 0)[n]? = some argument ∧ word.opcode = (g'.node n).opcode ∧
      isa.Indexes word.opcode ∧ (isa.info word.opcode).packing.split argument = (index, flags) := by
  obtain ⟨hlaid, hcontent, hmem⟩ := Graph.linearize_content h.closed hroots hlin
  rw [collectedOf, ← List.map_prod_left_eq_zip]
  constructor
  · rintro ⟨c, hitem, hc⟩
    obtain ⟨m, hm, heq⟩ := List.mem_map.mp hitem
    obtain ⟨rfl, rfl⟩ := Prod.mk.inj heq
    cases hext : (g'.node m).isExtension isa with
    | true =>
      rw [hext] at hc
      cases hc
    | false =>
      rw [hext, if_neg Bool.false_ne_true] at hc
      rcases hmem m hm with hlive | ⟨hoperand, -⟩
      · obtain ⟨word, argument, hw, ha⟩ := h.at_lt (h.closed.lt_of_live hroots hlive)
        obtain ⟨c, hcollect, hindexed⟩ := h.collects_packed hw ha
        rw [Node.collectOperand_of_content (hcontent m hlive), hcollect] at hc
        refine ⟨hlive, word, argument, hw, ha, ?_, (hindexed index flags).mp hc⟩
        rw [Node.opcode_of_content (hcontent m hlive), h.opcode hw ha]
      · unfold collectOperand at hc
        rw [hoperand] at hc
        cases hc
  · rintro ⟨hlive, word, argument, hw, ha, -, hindexes⟩
    have hext : (g'.node n).isExtension isa = false := by
      rw [Node.isExtension, Node.flags, Node.opcode_of_content (hcontent n hlive)]
      exact h.isExtension_of_indexes hw ha hindexes.1
    obtain ⟨c, hcollect, hindexed⟩ := h.collects_packed hw ha
    refine ⟨c, List.mem_map.mpr ⟨n, hlaid n hlive, ?_⟩, (hindexed index flags).mpr hindexes⟩
    rw [hext, if_neg Bool.false_ne_true, Node.collectOperand_of_content (hcontent n hlive),
      hcollect]

theorem fits_laid (hisa : isa.unpacked.BuiltIn) {n : NodeId} (hn : n ∈ layout)
    (hext : (g'.node n).isExtension isa = false) :
    (g'.node n).operand.fits (isa.info (g'.node n).opcode).operand = true := by
  obtain ⟨-, hcontent, hmem⟩ := Graph.linearize_content h.closed hroots hlin
  rcases hmem n hn with hlive | ⟨hoperand, hopcode⟩
  · obtain ⟨word, argument, hw, ha⟩ := h.at_lt (h.closed.lt_of_live hroots hlive)
    have hop : (g'.node n).opcode = word.opcode := by
      rw [Node.opcode_of_content (hcontent n hlive), h.opcode hw ha]
    rw [Node.isExtension, Node.flags, hop] at hext
    rw [Node.operand_of_content (hcontent n hlive), hop]
    exact h.fits_packed hw ha (InstructionSet.hasArgument_iff_of_unpacked hisa hext) hext
  · rw [hoperand]
    exact InstructionSet.fits_jump_of_unpacked hisa hopcode

theorem collect_packed (hisa : isa.unpacked.BuiltIn) :
    collect isa g' layout (.ofPools pools) #[] =
      .ok ((collectedOf isa pools g' layout).toArray, .ofPools pools) := by
  rw [collect_of_kept fun n hn hext => ⟨h.fits_laid hroots hlin hisa hn hext,
    h.growth_eq hroots hlin hn⟩, Array.empty_append]
  rfl

end Linearized

section Assembled

variable {handlers : List NodeId} (hroots : ∀ r ∈ 0 :: handlers, r < g.size)
include hroots

/-- **Only an argument that has bits above its flag bit makes an index too large.** -/
theorem assemble_overflow {opcode : Opcode} {index : Nat}
    (hasm : g.assemble isa 0 handlers pools = (g', .error (.operandOverflow opcode index))) :
    ∃ k, g.Live isa (0 :: handlers) k ∧ CrowdedAt isa words k opcode index := by
  obtain ⟨g₁, layout, operands, growth, hlin, hcollect, hnumber⟩ := Graph.assemble_eq_overflow hasm
  obtain ⟨rfl, hoperands⟩ := collect_eq_of_kept hcollect fun n hn => h.growth_eq hroots hlin hn
  obtain ⟨n, c, i, flags, hitem, hc, hjoin, herror⟩ := number_eq_error hnumber
  obtain ⟨rfl, rfl⟩ := Error.operandOverflow.inj herror
  rw [hoperands] at hitem
  obtain ⟨hlive, word, argument, hw, ha, hop, hindexes, hsplit⟩ :=
    (h.indexed_iff hroots hlin).mp ⟨c, hitem, hc⟩
  have hback := FlagPacking.join_split (isa.info word.opcode).packing
    (h.narrow argument (List.mem_of_getElem? ha))
  rw [← hop] at hjoin ⊢
  rw [hsplit, hjoin] at hback
  refine ⟨n, hlive, word, argument, hw, ha, rfl, hindexes, ?_, by rw [hsplit]⟩
  by_contra hno
  rw [if_neg hno] at hback
  cases hback

theorem exists_laid : ∃ g₁ layout, g.linearize isa 0 handlers = .ok (g₁, layout) := by
  cases hlin : g.linearize isa 0 handlers with
  | ok laid => exact ⟨laid.1, laid.2, rfl⟩
  | error e =>
    have hfound := (Graph.reachable?_eq_ok_iff h.closed hroots).mpr
      ⟨rfl, fun n hn => h.hasEdges (h.closed.lt_of_live hroots hn)⟩
    rw [Graph.linearize_eq_error_iff.mp hlin] at hfound
    cases hfound

/-- **An argument with bits above its flag bit is refused at an instruction that execution gets to**,
by the built-in instruction sets with other packings. -/
theorem exists_assemble_overflow (hisa : isa.unpacked.BuiltIn) {k : Nat} {opcode : Opcode}
    {index : Nat} (hlive : g.Live isa (0 :: handlers) k)
    (hcrowded : CrowdedAt isa words k opcode index) :
    ∃ g' opcode index,
      g.assemble isa 0 handlers pools = (g', .error (.operandOverflow opcode index)) := by
  obtain ⟨g₁, layout, hlin⟩ := h.exists_laid hroots
  have hcollect := h.collect_packed hroots hlin hisa
  obtain ⟨-, hcontent, -⟩ := Graph.linearize_content h.closed hroots hlin
  obtain ⟨word, argument, hw, ha, rfl, hindexes, hwide, -⟩ := hcrowded
  obtain ⟨i, flags, hsplit⟩ : ∃ i flags,
      (isa.info word.opcode).packing.split argument = (i, flags) := ⟨_, _, rfl⟩
  have hop : word.opcode = (g₁.node k).opcode := by
    rw [Node.opcode_of_content (hcontent k hlive), h.opcode hw ha]
  obtain ⟨c, hitem, hc⟩ := (h.indexed_iff hroots hlin).mpr
    ⟨hlive, word, argument, hw, ha, hop, hindexes, hsplit⟩
  have hjoin := FlagPacking.join_split (isa.info word.opcode).packing
    (h.narrow argument (List.mem_of_getElem? ha))
  rw [if_pos hwide, hsplit, hop] at hjoin
  obtain ⟨g₂, e, hnumber⟩ := exists_number_error #[] hitem hc hjoin
  obtain ⟨n, c, i, flags, -, -, -, rfl⟩ := number_eq_error hnumber
  refine ⟨g₂, (g₁.node n).opcode, i, ?_⟩
  unfold Graph.assemble
  simp only [hlin, hcollect, hnumber]

end Assembled

end Unedited

end Stream

namespace CodeUnit

variable {isa : InstructionSet} {object : CodeObject} {u : CodeUnit} {words : List Word}
  {lines : List LineTable.Line}

theorem encode_error_iff (hopened : u.exceptions.Opened) {e : Error} : u.encode.2 = .error e ↔
    ∃ g', u.graph.assemble u.isa u.entry u.exceptions.handlers u.pools = (g', .error e) := by
  unfold encode
  rw [flatten_of_opened hopened]
  dsimp only
  cases u.graph.assemble u.isa u.entry u.exceptions.handlers u.pools with
  | mk g' result => cases result <;> simp

namespace Decoded

variable (hd : Decoded isa object words lines u)
include hd

theorem encode_error_iff {e : Error} : u.encode.2 = .error e ↔
    ∃ g', u.graph.assemble isa 0 u.exceptions.handlers object.pools = (g', .error e) := by
  rw [CodeUnit.encode_error_iff hd.opened, hd.isa_eq, hd.entry_eq, hd.pools_eq]

theorem roots_eq : u.roots = 0 :: u.exceptions.handlers := by
  rw [roots, hd.entry_eq]

/-- An index that is refused was split off an argument that has bits above its flag bit. -/
theorem encode_overflow {opcode : Opcode} {index : Nat}
    (h : u.encode.2 = .error (.operandOverflow opcode index)) :
    ∃ k, u.graph.Live isa u.roots k ∧ Stream.CrowdedAt isa words k opcode index := by
  obtain ⟨g', hasm⟩ := hd.encode_error_iff.mp h
  rw [hd.roots_eq]
  exact hd.unedited.assemble_overflow hd.roots_lt hasm

theorem exists_encode_overflow (hisa : isa.unpacked.BuiltIn) {k : Nat} {opcode : Opcode}
    {index : Nat} (hlive : u.graph.Live isa u.roots k)
    (hcrowded : Stream.CrowdedAt isa words k opcode index) :
    ∃ opcode index, u.encode.2 = .error (.operandOverflow opcode index) := by
  rw [hd.roots_eq] at hlive
  obtain ⟨g', opcode, index, hasm⟩ :=
    hd.unedited.exists_assemble_overflow hd.roots_lt hisa hlive hcrowded
  exact ⟨opcode, index, hd.encode_error_iff.mpr ⟨g', hasm⟩⟩

end Decoded

/-- **Flags that were split off are joined again, unless the argument has bits above its flag bit.**
Every other argument comes back, and what is joined is split as it was. So encoding code as it was
read refuses an index only at an instruction that execution gets to whose argument has such bits,
and built-in instruction sets with any packings refuse it there. -/
theorem encode_packed (p : FlagPacking) (isa : InstructionSet) (object : CodeObject) :
    (∀ argument, argument < UInt32.size →
      p.join (p.split argument).1 (p.split argument).2 =
        if p.Crowded argument then none else some argument) ∧
    (∀ index flags argument, p.IsFlags flags →
      p.join index flags = some argument → p.split argument = (index, flags)) ∧
    ∀ (u : CodeUnit) (words : List Word),
      decode isa object = .ok u → object.code = words.flatMap Word.toBytes →
      (∀ opcode index, u.encode.2 = .error (.operandOverflow opcode index) →
        ∃ k, u.graph.Live isa u.roots k ∧ Stream.CrowdedAt isa words k opcode index) ∧
      (isa.unpacked.BuiltIn →
        ((∃ opcode index, u.encode.2 = .error (.operandOverflow opcode index)) ↔
          ∃ k opcode index, u.graph.Live isa u.roots k ∧
            Stream.CrowdedAt isa words k opcode index)) := by
  refine ⟨fun argument h => p.join_split h, fun index flags argument hflags h =>
    FlagPacking.split_of_join hflags h, fun u words hu hwords => ?_⟩
  obtain ⟨words', lines, hd⟩ := exists_decoded hu
  obtain rfl : words = words' := eq_of_flatMap_toBytes (hwords.symm.trans hd.code_eq)
  refine ⟨fun opcode index h => hd.encode_overflow h, fun hisa => ⟨?_, ?_⟩⟩
  · rintro ⟨opcode, index, h⟩
    obtain ⟨k, hlive, hcrowded⟩ := hd.encode_overflow h
    exact ⟨k, opcode, index, hlive, hcrowded⟩
  · rintro ⟨k, opcode, index, hlive, hcrowded⟩
    exact hd.exists_encode_overflow hisa hlive hcrowded

/-- A flag next to index 5. -/
theorem encode_packed_flagged :
    (FlagPacking.highBit 7).join 5 128 = some 133 ∧
    (FlagPacking.highBit 7).split 133 = (5, 128) ∧
    ∃ u, decode .flagged
        { code := [116, 133, 83, 0], pools := { names := Array.replicate 6 "" } } = .ok u ∧
      ∀ opcode index, u.encode.2 ≠ .error (.operandOverflow opcode index) := by
  obtain ⟨hjoin, hsplit, hencode⟩ := encode_packed (.highBit 7) .flagged
    { code := [116, 133, 83, 0], pools := { names := Array.replicate 6 "" } }
  have hjoined : (FlagPacking.highBit 7).join 5 128 = some 133 :=
    (hjoin 133 (by decide)).trans (if_neg (by decide))
  refine ⟨hjoined, hsplit 5 128 133 (Or.inr rfl) hjoined, ?_⟩
  obtain ⟨u, lines, hu, -⟩ := exists_decoded_of_code .flagged
    { code := [116, 133, 83, 0], pools := { names := Array.replicate 6 "" } }
    [⟨⟨116⟩, 133⟩, ⟨⟨83⟩, 0⟩] (by decide +kernel) rfl
  refine ⟨u, hu, fun opcode index h => ?_⟩
  obtain ⟨k, -, hcrowded⟩ := (hencode u [⟨⟨116⟩, 133⟩, ⟨⟨83⟩, 0⟩] hu rfl).1 opcode index h
  obtain ⟨word, argument, hw, ha, rfl, hop, -, hwide, -⟩ :=
    (Stream.crowdedAt_withPacking (Or.inl rfl)).mp hcrowded
  rcases k with _ | _ | k
  · obtain rfl := Option.some.inj ha
    exact absurd hwide (by decide)
  · obtain rfl := Option.some.inj hw
    cases hop
  · cases hw

/-- **An argument that was read is not always written again.** Index 256 does not touch bit 7, but
it is not below it, and is refused. -/
theorem encode_refuses :
    (FlagPacking.highBit 7).split 256 = (256, 0) ∧ (FlagPacking.highBit 7).join 256 0 = none ∧
    ∃ u, decode .flagged
        { code := [144, 1, 116, 0, 83, 0], pools := { names := Array.replicate 257 "" } } = .ok u ∧
      ∃ opcode index, u.encode.2 = .error (.operandOverflow opcode index) := by
  refine ⟨by decide, by decide, ?_⟩
  obtain ⟨u, lines, hu, hd⟩ := exists_decoded_of_code .flagged
    { code := [144, 1, 116, 0, 83, 0], pools := { names := Array.replicate 257 "" } }
    [⟨⟨144⟩, 1⟩, ⟨⟨116⟩, 0⟩, ⟨⟨83⟩, 0⟩] (by decide +kernel) rfl
  have hprefix : (InstructionSet.flagged.flags ⟨144⟩).extension = true ∧
      (InstructionSet.flagged.flags ⟨144⟩).fallsThrough = true := by
    rw [InstructionSet.flags_flagged, InstructionSet.flags, InstructionSet.info_python38]
    decide +kernel
  have hload : InstructionSet.flagged.Indexes ⟨116⟩ := by
    rw [InstructionSet.Indexes, InstructionSet.flags_flagged, InstructionSet.flagged,
      InstructionSet.withPacking, InstructionSet.info_withOpcode_self, InstructionSet.flags,
      InstructionSet.info_python38]
    decide +kernel
  have hfolded : (Stream.folded .flagged [⟨⟨144⟩, 1⟩, ⟨⟨116⟩, 0⟩, ⟨⟨83⟩, 0⟩] 0)[1]? = some 256 := by
    rw [Stream.getElem?_folded_succ .flagged rfl rfl (Stream.getElem?_folded_zero .flagged 0 rfl),
      hprefix.1]
    rfl
  have hnext : u.graph.fallthrough? .flagged 0 = some 1 := by
    have hzero : (Stream.folded .flagged [⟨⟨144⟩, 1⟩, ⟨⟨116⟩, 0⟩, ⟨⟨83⟩, 0⟩] 0)[0]? = some 1 := rfl
    have hfalls : (u.graph.node 0).fallsThrough .flagged = true := by
      rw [Node.fallsThrough, hd.unedited.flags rfl hzero]
      exact hprefix.2
    rw [Graph.fallthrough?, if_pos hfalls, hd.unedited.successor rfl hzero, if_pos hfalls]
  have hlive : u.graph.Live .flagged u.roots 1 :=
    (Reach.root (List.mem_cons.mpr (Or.inl hd.entry_eq.symm))).step
      (Graph.mem_targets.mpr (Or.inl hnext))
  have hcrowded : Stream.CrowdedAt .flagged [⟨⟨144⟩, 1⟩, ⟨⟨116⟩, 0⟩, ⟨⟨83⟩, 0⟩] 1 ⟨116⟩ 256 :=
    (Stream.crowdedAt_withPacking (Or.inl rfl)).mpr
      ⟨_, 256, rfl, hfolded, rfl, rfl, hload, by decide, by decide⟩
  exact ⟨u, hu, hd.exists_encode_overflow InstructionSet.builtIn_flagged hlive hcrowded⟩

end CodeUnit

end Wordcode
