/-
# A second encode changes nothing

The first encode changes nearly everything in a unit: regions are written, edges are led
over jumps, operands get new pool indices, nodes new offsets, and pools and header grow.
All of this is a fixed point. The offsets go up along the layout, so that the same layout
comes out; every operand stands at the index that its node was given, also a free variable
whose index was shifted by new cells; and what widening does depends on the code alone. So
encoding a second time gives the same code object, in as many rounds and with as many new
extension units, and leaves the unit exactly as it is.

Key theorems: `Graph.Emits.ascending`, `Assembly.collectOperand_again`,
`Assembly.number_of_hinted`, `Relaxation.relax_of_sameCode`, `Graph.assemble_again`,
`CodeUnit.encode_twice`.
-/
import Wordcode.Proofs.Encoded
import Wordcode.Proofs.LaidAgain

namespace Wordcode

/-! ### Offsets go up along the layout -/

namespace Relaxation

theorem pairwise_offsets : ∀ {placed : List Placed} {start : Nat}, Consecutive start placed →
    (∀ p ∈ placed, p.run.reserved.length ≤ p.width) →
    ((placed.flatMap offsetsOf).map (·.2)).Pairwise (· < ·) ∧
      ∀ o ∈ (placed.flatMap offsetsOf).map (·.2), start * 2 ≤ o
  | [], _, _, _ => ⟨.nil, fun _ h => nomatch h⟩
  | p :: placed, start, ⟨hstart, hrest⟩, hle => by
    obtain ⟨hp, hplaced⟩ := List.forall_mem_cons.mp hle
    obtain ⟨hascending, hfrom⟩ := pairwise_offsets hrest hplaced
    have hoffsets : (offsetsOf p).map (·.2) =
        (List.range p.run.reserved.length).map (fun i => (p.start + i) * 2) ++
          [(p.start + p.width) * 2] := by
      rw [offsetsOf, List.map_append, List.map_map, List.range_eq_range', ← List.zipIdx_map_snd,
        List.map_map]
      rfl
    -- within a run they count its units
    have hrun : ((offsetsOf p).map (·.2)).Pairwise (· < ·) ∧
        ∀ o ∈ (offsetsOf p).map (·.2), start * 2 ≤ o ∧ o < (start + p.width + 1) * 2 := by
      rw [hoffsets]
      refine ⟨List.pairwise_append.mpr ⟨?_, List.pairwise_singleton _ _, fun o ho o' ho' => ?_⟩,
        fun o ho => ?_⟩
      · exact List.pairwise_map.mpr (List.pairwise_lt_range.imp fun h => by omega)
      · obtain ⟨i, hi, rfl⟩ := List.mem_map.mp ho
        rw [List.mem_range] at hi
        rw [List.mem_singleton.mp ho']
        omega
      · rcases List.mem_append.mp ho with ho | ho
        · obtain ⟨i, hi, rfl⟩ := List.mem_map.mp ho
          rw [List.mem_range] at hi
          omega
        · rw [List.mem_singleton.mp ho]
          omega
    rw [List.flatMap_cons, List.map_append]
    refine ⟨List.pairwise_append.mpr ⟨hrun.1, hascending, fun o ho o' ho' => ?_⟩, fun o ho => ?_⟩
    · exact Nat.lt_of_lt_of_le (hrun.2 o ho).2 (hfrom o' ho')
    · rcases List.mem_append.mp ho with ho | ho
      · exact (hrun.2 o ho).1
      · have := hfrom o ho
        omega

end Relaxation

namespace Graph

open Relaxation

variable {isa : InstructionSet} {g : Graph} {a : Assembled} {placed : List Placed}

/-- The offsets of the nodes go up along the layout. -/
theorem Emits.ascending (he : Emits isa g a placed) :
    a.layout.Pairwise fun m n => Layout.offsetLe g n m = false := by
  have hkeys : (placed.flatMap offsetsOf).map (·.1) = a.layout := by
    rw [List.map_flatMap, ← he.nodes_eq]
    exact List.flatMap_congr fun p _ => keys_offsetsOf p
  have hoffset : ∀ q ∈ placed.flatMap offsetsOf, (g.node q.1).offset = some q.2 := by
    intro q hq
    obtain ⟨p, hp, hq⟩ := List.mem_flatMap.mp hq
    exact he.offset p hp q.1 q.2 hq
  have hpairs := List.pairwise_map.mp (pairwise_offsets he.consecutive he.reserved).1
  rw [← hkeys, List.pairwise_map]
  refine hpairs.imp_of_mem fun {q q'} hq hq' hlt => ?_
  simp only [Layout.offsetLe, hoffset q hq, hoffset q' hq', decide_eq_false_iff_not]
  exact Nat.not_le.mpr hlt

end Graph

/-! ### Numbering again -/

namespace Assembly

variable {isa : InstructionSet} {growth : PoolGrowth} {g g' : Graph}

/-- Where indices share their bits with nothing, the number of an operand is its index, or what
it was collected as. -/
theorem Numbers.cases {opcode : Opcode} {c : Collected} {argument : Nat}
    (hpacking : (isa.info opcode).packing = .none) (h : Numbers isa growth opcode c argument) :
    c = .ready argument ∨ ∃ flags, poolIndex? growth c = some (argument, flags) := by
  cases c with
  | ready value =>
    have hvalue : argument = value := h
    exact Or.inl (congrArg _ hvalue.symm)
  | pooled i f | cell place f =>
    obtain ⟨index, flags, hi, hjoin⟩ := h
    rw [hpacking] at hjoin
    obtain rfl : index = argument := Option.some.inj hjoin
    exact Or.inr ⟨flags, hi⟩

/-- **An operand is collected again where its index points at it**, and gets the same number. -/
theorem collectOperand_again (hisa : isa.Regular) {node : Node} {c : Collected} {argument : Nat}
    (hholds : Holds growth.pools node.operand c)
    (hnumber : Numbers isa growth node.opcode c argument)
    (hhint : ∀ index flags, poolIndex? growth c = some (index, flags) →
      node.poolHint = some index) :
    ∃ c', collectOperand node (.ofPools growth.pools) = (c', .ofPools growth.pools) ∧
      Numbers isa (.ofPools growth.pools) node.opcode c' argument ∧
      ∀ index flags, poolIndex? (.ofPools growth.pools) c' = some (index, flags) →
        node.poolHint = some index := by
  have hpacking := (hisa.opcodes node.opcode).packing
  cases hpool : Stream.poolOf? node.operand.kind with
  | some pool =>
    have hentry := entry?_of_holds hpacking hholds hnumber hpool
    have hnot : c ≠ .ready argument := by
      rintro rfl
      cases hop : node.operand <;> rw [hop] at hholds hpool <;> first | exact hholds | cases hpool
    obtain ⟨flags, hindex⟩ := (hnumber.cases hpacking).resolve_left hnot
    obtain ⟨c', hc', hindex'⟩ := collectOperand_of_entry hentry rfl (hhint argument flags hindex)
    refine ⟨c', hc', numbers_indexed hindex' (by rw [hpacking]; rfl), fun index' flags' h => ?_⟩
    rw [hindex'] at h
    obtain ⟨rfl, -⟩ := Prod.mk.inj (Option.some.inj h)
    exact hhint argument flags hindex
  | none =>
    unfold collectOperand
    cases hop : node.operand with
    | none | raw value | jump =>
      rw [hop] at hholds
      cases c with
      | ready value' =>
        have hvalue : value' = _ := hholds
        exact ⟨_, rfl, hvalue ▸ hnumber, fun _ _ h => nomatch h⟩
      | pooled i f => cases hholds
      | cell place f => cases hholds
    | constant x | name x | «local» x | cell x =>
      rw [hop] at hpool
      cases hpool

theorem number_cons_eq_ok {m : NodeId} {d : Collected} {rest : List (NodeId × Collected)}
    {done : Array Nat} {arguments : List Nat}
    (h : number isa growth ((m, d) :: rest) g done = (g', .ok arguments)) :
    ∃ argument g₁, number isa growth rest g₁ (done.push argument) = (g', .ok arguments) ∧
      (poolIndex? growth d = none ∧ g₁ = g ∨ ∃ index flags,
        poolIndex? growth d = some (index, flags) ∧
          g₁ = g.modify m ({ · with poolHint := some index })) := by
  cases hd : poolIndex? growth d with
  | none =>
    cases d with
    | ready value =>
      rw [number_ready] at h
      exact ⟨value, g, h, Or.inl ⟨rfl, rfl⟩⟩
    | pooled i f => cases hd
    | cell place f => cases hd
  | some p =>
    obtain ⟨index, flags⟩ := p
    rw [number_indexed hd] at h
    split at h
    · exact ⟨_, _, h, Or.inr ⟨index, flags, rfl, rfl⟩⟩
    · cases (Prod.mk.inj h).2

theorem node_number : ∀ {items : List (NodeId × Collected)} {g : Graph} {done : Array Nat}
    {arguments : List Nat}, number isa growth items g done = (g', .ok arguments) →
    ∀ {n : NodeId}, n ∉ items.map (·.1) → g'.node n = g.node n
  | [], g, _, _, h, _, _ => by
    rw [number] at h
    rw [(Prod.mk.inj h).1]
  | (m, d) :: rest, g, done, arguments, h, n, hn => by
    rw [List.map_cons, List.mem_cons, not_or] at hn
    obtain ⟨argument, g₁, hrest, ⟨-, rfl⟩ | ⟨index, flags, -, rfl⟩⟩ := number_cons_eq_ok h
    · exact node_number hrest hn.2
    · rw [node_number hrest hn.2, Graph.node_modify, if_neg fun heq => hn.1 heq.1.symm]

theorem hint_of_number : ∀ {items : List (NodeId × Collected)} {g : Graph} {done : Array Nat}
    {arguments : List Nat}, number isa growth items g done = (g', .ok arguments) →
    (items.map (·.1)).Nodup → ∀ {n : NodeId} {index flags : Nat} {c : Collected}, (n, c) ∈ items →
      n < g.size → poolIndex? growth c = some (index, flags) → (g'.node n).poolHint = some index
  | (m, d) :: rest, g, done, arguments, h, hnd, n, index, flags, c, hmem, hn, hc => by
    rw [List.map_cons, List.nodup_cons] at hnd
    obtain ⟨argument, g₁, hrest, hstep⟩ := number_cons_eq_ok h
    have hsize : g₁.size = g.size := by
      rcases hstep with ⟨-, rfl⟩ | ⟨i, f, -, rfl⟩
      · rfl
      · exact Graph.size_modify ..
    rcases List.mem_cons.mp hmem with heq | hmem
    · obtain ⟨rfl, rfl⟩ := Prod.mk.inj heq
      rw [node_number hrest hnd.1]
      rcases hstep with ⟨hnone, -⟩ | ⟨i, f, hsome, rfl⟩
      · rw [hc] at hnone
        cases hnone
      · obtain ⟨rfl, -⟩ := Prod.mk.inj (Option.some.inj (hc.symm.trans hsome))
        rw [Graph.node_modify, if_pos ⟨rfl, hn⟩]
    · exact hint_of_number hrest hnd.2 hmem (hsize ▸ hn) hc

/-- **Numbering operands whose nodes have their indices leaves the graph alone.** -/
theorem number_of_hinted (hpacking : ∀ op, (isa.info op).packing = .none) :
    ∀ {items : List (NodeId × Collected)} {arguments : List Nat} (done : Array Nat),
      List.Forall₂ (fun item => Numbers isa growth (g.node item.1).opcode item.2) items arguments →
      (∀ item ∈ items, ∀ index flags, poolIndex? growth item.2 = some (index, flags) →
        (g.node item.1).poolHint = some index) →
      number isa growth items g done = (g, .ok (done.toList ++ arguments)) := by
  intro items arguments done hnumbers
  induction hnumbers generalizing done with
  | nil =>
    intro _
    rw [number, List.append_nil]
  | @cons item argument rest arguments hfirst _ ih =>
    intro hhints
    obtain ⟨n, c⟩ := item
    obtain ⟨hhint, hhints⟩ := List.forall_mem_cons.mp hhints
    have hlater : ∀ done : Array Nat, number isa growth rest g done =
        (g, .ok (done.toList ++ arguments)) := fun done => ih done hhints
    rcases hfirst.cases (hpacking _) with rfl | ⟨flags, hc⟩
    · rw [number_ready, hlater, Array.toList_push, List.append_assoc, List.singleton_append]
    · have hkept : g.modify n ({ · with poolHint := some argument }) = g :=
        Layout.modify_eq_self (by rw [← hhint argument flags hc])
      rw [number_indexed hc, hpacking, hkept]
      simp only [FlagPacking.join]
      rw [hlater, Array.toList_push, List.append_assoc, List.singleton_append]

/-- **The operands of a layout are collected again where their indices point at them**, without
growing the pools, and get the same numbers. -/
theorem collect_again (hisa : isa.Regular) : ∀ {layout : List NodeId} {later : List Collected}
    {arguments : List Nat} (done : Array Collected),
    List.Forall₂ (Collects isa g growth.pools) layout later →
    List.Forall₂ (fun item => Numbers isa growth (g.node item.1).opcode item.2) (layout.zip later)
      arguments →
    (∀ item ∈ layout.zip later, ∀ index flags, poolIndex? growth item.2 = some (index, flags) →
      (g.node item.1).poolHint = some index) →
    ∃ again : List Collected,
      collect isa g layout (.ofPools growth.pools) done =
        .ok (done ++ again.toArray, .ofPools growth.pools) ∧
      List.Forall₂ (fun item => Numbers isa (.ofPools growth.pools) (g.node item.1).opcode item.2)
        (layout.zip again) arguments ∧
      ∀ item ∈ layout.zip again, ∀ index flags,
        poolIndex? (.ofPools growth.pools) item.2 = some (index, flags) →
          (g.node item.1).poolHint = some index := by
  intro layout later arguments done hcollects
  induction hcollects generalizing arguments done with
  | nil =>
    intro hnumbers _
    cases hnumbers
    exact ⟨[], by rw [collect, Array.append_empty], .nil, List.forall_mem_nil _⟩
  | @cons n c layout later hcollect _ ih =>
    intro hnumbers hhints
    rw [List.zip_cons_cons] at hnumbers hhints
    cases hnumbers with
    | cons hnumber hnumbers =>
      obtain ⟨hhint, hothers⟩ := List.forall_mem_cons.mp hhints
      by_cases hext : (g.node n).isExtension isa = true
      · -- extension units have no operand, before as after
        rw [Collects, if_pos hext] at hcollect
        subst hcollect
        obtain ⟨again, hcol, hagain, hhints'⟩ := ih (done.push (.ready 0)) hnumbers hothers
        refine ⟨.ready 0 :: again, ?_, .cons hnumber hagain,
          List.forall_mem_cons.mpr ⟨hhint, hhints'⟩⟩
        rw [collect, if_pos hext, hcol]
        simp
      · rw [Collects, if_neg hext] at hcollect
        obtain ⟨c', hkept, hnumber', hhint'⟩ :=
          collectOperand_again hisa hcollect.2 hnumber hhint
        obtain ⟨again, hcol, hagain, hhints'⟩ := ih (done.push c') hnumbers hothers
        refine ⟨c' :: again, ?_, .cons hnumber' hagain,
          List.forall_mem_cons.mpr ⟨hhint', hhints'⟩⟩
        rw [collect, if_neg hext, if_pos hcollect.1, hkept]
        simp [hcol]

end Assembly

/-! ### Widening again -/

namespace Relaxation

variable {isa : InstructionSet} {g h : Graph}

section SameCode

variable (s : g.SameCode h)
include s

theorem runsOf_of_sameCode {layout arguments : List Nat} {runs : List Run}
    (hruns : runsOf isa g layout arguments = .ok runs) :
    runsOf isa h layout arguments = .ok runs := by
  have hadd : addToRuns isa h = addToRuns isa g := by
    funext item later
    simp only [addToRuns, s.isExtension]
  unfold runsOf at hruns ⊢
  rw [hadd]
  split at hruns
  · exact hruns
  · cases hruns

variable {owner : Std.HashMap NodeId Nat} {starts : Array Nat}

theorem operandOf_of_sameCode {r : Run} {start width operand : Nat}
    (hop : operandOf isa g owner starts r start width = .ok operand) :
    operandOf isa h owner starts r start width = .ok operand := by
  unfold operandOf at hop ⊢
  simp only [s.isJump, s.branch, s.flags, s.opcode]
  by_cases hjump : (g.node r.instruction).isJump isa = true
  · simp only [hjump, if_true] at hop ⊢
    cases hb : (g.node r.instruction).branch.bind (owner[·]?) with
    | none =>
      simp only [hb] at hop
      cases hop
    | some i =>
      simp only [hb] at hop ⊢
      exact hop
  · simp only [hjump, Bool.false_eq_true, if_false] at hop ⊢
    exact hop

theorem operandsFrom_of_sameCode : ∀ {runs : List Run} {later widths operands : List Nat},
    operandsFrom isa g owner starts runs later widths = .ok operands →
      operandsFrom isa h owner starts runs later widths = .ok operands
  | r :: runs, start :: later, width :: widths, operands, hops => by
    rw [operandsFrom] at hops ⊢
    obtain ⟨operand, hop, hops⟩ := bind_eq_ok_iff.mp hops
    obtain ⟨rest, hrest, hops⟩ := bind_eq_ok_iff.mp hops
    rw [operandOf_of_sameCode s hop, operandsFrom_of_sameCode hrest]
    exact hops
  | [], _, _, _, hops => by simpa only [operandsFrom] using hops
  | _ :: _, [], _, _, hops => hops
  | _ :: _, _ :: _, [], _, hops => hops

theorem settle_of_sameCode {runs : List Run} {r : Settled} : ∀ (left iteration : Nat)
    (widths : List Nat), settle isa g owner runs left iteration widths = .ok r →
      settle isa h owner runs left iteration widths = .ok r
  | left, iteration, widths, hsettle => by
    unfold settle at hsettle ⊢
    cases hops : operandsFor isa g owner runs widths with
    | error e =>
      simp only [hops] at hsettle
      cases hsettle
    | ok operands =>
      have hops' : operandsFor isa h owner runs widths = .ok operands :=
        operandsFrom_of_sameCode s hops
      simp only [hops] at hsettle
      simp only [hops']
      split at hsettle
      · exact hsettle
      · cases hsettle
      · exact settle_of_sameCode _ _ _ hsettle

/-- **Relaxation gives the same code for a graph with the same code**, and binds the nodes of the
layout to the same offsets. -/
theorem relax_of_sameCode {layout arguments : List Nat} {g' : Graph} {r : Relaxed}
    (hlen : arguments.length = layout.length)
    (hrelax : relax isa g layout arguments = .ok (g', r)) :
    ∃ offsets, offsets.map (·.1) = layout ∧ g' = bind g offsets ∧
      relax isa h layout arguments = .ok (bind h offsets, r) := by
  unfold relax at hrelax ⊢
  cases hruns : runsOf isa g layout arguments with
  | error e =>
    simp only [hruns] at hrelax
    cases hrelax
  | ok runs =>
    simp only [hruns] at hrelax
    simp only [runsOf_of_sameCode s hruns]
    cases hsettle : settle isa g (owners runs) runs (3 * runs.length + 1) 1
        (runs.map (·.reserved.length)) with
    | error e =>
      simp only [hsettle] at hrelax
      cases hrelax
    | ok settled =>
      simp only [hsettle, Except.ok.injEq, Prod.mk.injEq] at hrelax
      obtain ⟨rfl, rfl⟩ := hrelax
      have hwords : wordsOf isa h = wordsOf isa g := funext (wordsOf_of_sameCode s)
      obtain ⟨hleast, hops, -⟩ := settle_spec (List.length_map _) _ _ _ hsettle
        (List.forall₂_same.mpr fun _ _ => Nat.le_refl _)
      have hw : settled.widths.length = runs.length := by
        rw [← hleast.length_eq, List.length_map]
      obtain ⟨ho, -⟩ := (operandsFrom_eq_ok_iff 0 hw).mp hops
      simp only [settle_of_sameCode s _ _ _ hsettle, hwords]
      refine ⟨_, ?_, rfl, rfl⟩
      rw [← (runsOf_spec hlen.ge hruns).1, List.map_flatMap]
      conv_rhs => rw [← map_run_place 0 hw ho, List.flatMap_map]
      exact List.flatMap_congr fun p _ => keys_offsetsOf p

end SameCode

theorem exists_node_bind (n : NodeId) : ∀ (offsets : List (NodeId × Nat)) (g : Graph),
    ∃ offset, (bind g offsets).node n = { g.node n with offset }
  | [], g => ⟨(g.node n).offset, rfl⟩
  | p :: rest, g => by
    obtain ⟨offset, hnode⟩ :=
      exists_node_bind n rest (g.modify p.1 ({ · with offset := some p.2 }))
    refine ⟨offset, Eq.trans hnode ?_⟩
    rw [Graph.node_modify]
    split <;> rfl

end Relaxation

/-! ### Assembling again -/

namespace Relaxation

theorem bind_bind {g : Graph} {offsets xs : List (NodeId × Nat)}
    (hnd : (offsets.map (·.1)).Nodup) (hkeys : ∀ n ∈ xs.map (·.1), n ∈ offsets.map (·.1)) :
    bind (bind g xs) offsets = bind g offsets := by
  have hsize : (bind g xs).size = g.size := (sameCode_bind xs g).size_eq
  refine Graph.eq_of_node ?_ fun n hn => ?_
  · rw [(sameCode_bind offsets _).size_eq, (sameCode_bind offsets _).size_eq, hsize]
  · rw [(sameCode_bind offsets _).size_eq] at hn
    by_cases hmem : n ∈ offsets.map (·.1)
    · obtain ⟨⟨n, o⟩, ho, rfl⟩ := List.mem_map.mp hmem
      rw [node_bind_of_mem hnd ho (hsize ▸ hn), node_bind_of_mem hnd ho hn]
      obtain ⟨offset, hnode⟩ := exists_node_bind n xs g
      rw [hnode]
    · rw [node_bind hmem, node_bind hmem, node_bind fun h => hmem (hkeys n h)]

end Relaxation

theorem Layout.bindOffsets_eq_bind : ∀ (nodes : List NodeId) (i : Nat) (g : Graph),
    ∃ places, places.map (·.1) = nodes ∧ bindOffsets nodes i g = Relaxation.bind g places
  | [], _, _ => ⟨[], rfl, rfl⟩
  | n :: nodes, i, g => by
    obtain ⟨places, hkeys, hbound⟩ := bindOffsets_eq_bind nodes (i + 1)
      (g.modify n ({ · with offset := some (i * 2) }))
    exact ⟨(n, i * 2) :: places, congrArg (n :: ·) hkeys, hbound⟩

/-- **Relaxation of relaxed code gives the same code**, and binds the nodes back to their offsets
also where their places in the layout came in between. -/
theorem Relaxation.relax_again {isa : InstructionSet} {g g' : Graph} {layout arguments : List Nat}
    {r : Relaxed} (hnd : layout.Nodup) (hlen : arguments.length = layout.length)
    (hrelax : relax isa g layout arguments = .ok (g', r)) :
    relax isa (Layout.bindOffsets layout 0 g') layout arguments = .ok (g', r) := by
  obtain ⟨offsets, hkeys, rfl, -⟩ := relax_of_sameCode (.refl g) hlen hrelax
  have hsame : g.SameCode (Layout.bindOffsets layout 0 (bind g offsets)) :=
    (sameCode_bind offsets g).trans (Layout.sameCode_bindOffsets ..)
  obtain ⟨offsets', hkeys', hbind, hrelax'⟩ := relax_of_sameCode hsame hlen hrelax
  obtain ⟨places, hplaces, hbound⟩ := Layout.bindOffsets_eq_bind layout 0 (bind g offsets)
  have hnd' : (offsets'.map (·.1)).Nodup := hkeys' ▸ hnd
  have hback : bind (Layout.bindOffsets layout 0 (bind g offsets)) offsets' = bind g offsets := by
    rw [hbound, bind_bind hnd' (by rw [hplaces, hkeys']; exact fun _ h => h), hbind,
      bind_bind hnd' fun _ h => h]
  rw [hrelax', hback]

namespace Graph

open Relaxation Assembly

variable {isa : InstructionSet} {g g' : Graph} {entry : NodeId} {handlers : List NodeId}
  {pools : Pools} {a : Assembled}

section

variable (hisa : isa.Regular) (hg : g.Closed) (hroots : ∀ r ∈ entry :: handlers, r < g.size)
  (h : g.assemble isa entry handlers pools = (g', .ok a))
include hisa hg hroots h

theorem linearize_assembled :
    g'.linearize isa entry handlers = .ok (Layout.bindOffsets a.layout 0 g', a.layout) := by
  obtain ⟨g₁, operands, growth, placed, hlin, -, -, hsame, he, -⟩ := exists_emits hisa hg hroots h
  have hlaid := (laid_of_linearize hisa hg hroots hlin).of_sameCode hsame
  have hclosed := (closed_linearize hg hlin).of_sameCode hsame
  refine hlaid.linearize_again hg hroots (fun j hj hge => ?_) hisa hclosed he.ascending
  obtain ⟨n, hn, hlt, htarget⟩ := led_of_linearize hisa hg hroots hlin hj hge
  exact ⟨n, hn, hlt, hsame.targets isa n ▸ htarget⟩

/-- **What was assembled is assembled again as it is**, and the graph stays the same. -/
theorem assemble_again : g'.assemble isa entry handlers a.pools = (g', .ok a) := by
  have hlin' := linearize_assembled hisa hg hroots h
  obtain ⟨g₁, operands, growth, g₂, arguments, r, hlin, hcol, hnum, hrel, hwords, hunits, hpools,
    hstats⟩ := assemble_eq_ok h
  have hlaid := laid_of_linearize hisa hg hroots hlin
  obtain ⟨-, later, rfl, hcollects⟩ := collect_spec hcol
  rw [Array.empty_append, List.toList_toArray] at hnum
  obtain ⟨hsame₁, numbers, hargs, hnumbers⟩ := number_spec hnum
  rw [Array.toList_empty, List.nil_append] at hargs
  subst hargs
  have hzip : (a.layout.zip later).map (·.1) = a.layout := List.map_fst_zip hcollects.length_eq.le
  have hlen : arguments.length = a.layout.length := by
    rw [← hnumbers.length_eq, ← congrArg List.length hzip, List.length_map]
  -- what came after numbering changed nothing but offsets
  obtain ⟨offsets, -, hbind, -⟩ := relax_of_sameCode (.refl g₂) hlen hrel
  have hsame : g₁.SameCode (Layout.bindOffsets a.layout 0 g') :=
    (hsame₁.trans (hbind ▸ sameCode_bind offsets g₂)).trans (Layout.sameCode_bindOffsets ..)
  have hhints : ∀ item ∈ a.layout.zip later, ∀ index flags,
      poolIndex? growth item.2 = some (index, flags) →
        ((Layout.bindOffsets a.layout 0 g').node item.1).poolHint = some index := by
    intro item hmem index flags hindex
    have hlt : item.1 < g₁.size := hlaid.lt (hzip ▸ List.mem_map_of_mem hmem)
    obtain ⟨o, hnode⟩ := Layout.node_bindOffsets item.1 a.layout 0 g'
    obtain ⟨o', hnode'⟩ := exists_node_bind item.1 offsets g₂
    rw [hnode, hbind, hnode']
    exact hint_of_number hnum (by rw [hzip]; exact hlaid.nodup) hmem hlt hindex
  obtain ⟨again, hcol', hnumbers', hhints'⟩ := collect_again hisa #[]
    (hcollects.imp fun _ _ hc => hc.of_sameCode hsame)
    (hnumbers.imp fun _ _ hn => by rwa [hsame.opcode]) hhints
  have hnum' := number_of_hinted (fun op => (hisa.opcodes op).packing) #[] hnumbers' hhints'
  rw [Array.empty_append] at hcol'
  rw [hpools, assemble_of_steps hlin' hcol' hnum' (relax_again hlaid.nodup hlen hrel)]
  obtain ⟨words, pools', layout, units, stats⟩ := a
  subst hwords hunits hpools hstats
  rfl

end

end Graph

/-! ### Encoding again -/

namespace CodeUnit

variable {u u' v : CodeUnit} {object : CodeObject} {stats : EncodeStats} {a : Assembled}

theorem encodedHeader_idem (g : Graph) (entry : NodeId) (pools : Pools) (h : Header)
    (isa : InstructionSet) :
    encodedHeader g entry pools (encodedHeader g entry pools h isa) isa =
      encodedHeader g entry pools h isa := by
  simp only [encodedHeader, Nat.max_assoc, Nat.max_self]

/-- **An encoded unit is encoded again through the same steps**: there is nothing left to write,
and the code is assembled as it was. -/
theorem Encoded.again (e : Encoded u u' object stats v a) (hisa : u.isa.BuiltIn) (hu : u.Valid) :
    Encoded u' u' object stats u' a := by
  have hv := e.valid hisa.blocks hu
  have hregular : v.isa.Regular := e.isa_eq ▸ hisa.regular
  have hisa' : u'.isa = v.isa := by rw [e.after]
  have hentry : u'.entry = v.entry := by rw [e.after]
  have hexceptions : u'.exceptions = v.exceptions := by rw [e.after]
  have hpools : u'.pools = a.pools := congrArg CodeUnit.pools e.after
  have hheader : u'.header = encodedHeader u'.graph v.entry a.pools v.header v.isa :=
    congrArg CodeUnit.header e.after
  have hfirst : u'.header.firstlineno = v.header.firstlineno := by rw [hheader, encodedHeader]
  have hnone : u'.predecessors? = none :=
    (congrArg CodeUnit.predecessors? e.after).trans e.predecessors_eq
  have hfix : encodedHeader u'.graph u'.entry a.pools u'.header u'.isa = u'.header := by
    rw [hheader, hentry, hisa', encodedHeader_idem]
  refine ⟨?_, ?_, ?_, ?_, e.stats_eq⟩
  · rw [flatten_of_opened (hexceptions ▸ e.opened), ← hnone]
  · rw [hisa', hentry, hexceptions, hpools]
    exact Graph.assemble_again hregular hv.closed hv.roots_lt e.assembled
  · rw [hfix, ← hpools]
  · rw [e.object_eq, written, written, hfix, ← hheader, hisa', hfirst]

/-- **Encoding is idempotent.** After an encode that succeeded a second one gives the same code
object and the same statistics. It writes no region, lays out the same nodes in the same order
and leaves the unit, with its graph, as it is. -/
theorem encode_twice (hisa : u.isa.BuiltIn) (hu : u.Valid)
    (h : u.encode = (u', .ok (object, stats))) : u'.encode = (u', .ok (object, stats)) ∧
      ∃ v a, Encoded u u' object stats v a ∧ Encoded u' u' object stats u' a := by
  obtain ⟨v, a, e⟩ := exists_encoded h
  have e' := e.again hisa hu
  exact ⟨e'.encode_eq, v, a, e, e'⟩

/-- A relative jump that leads back: the first encode leads it over a new jump. -/
theorem encode_twice_backward :
    let u : CodeUnit :=
      { isa := .python38
        graph := ⟨#[{ opcode := ⟨9⟩, successor := some 1 },
          { opcode := ⟨110⟩, operand := .jump, branch := some 0 }]⟩
        entry := 0, pools := {}, header := {} }
    ∃ u' object stats, u.isa.BuiltIn ∧ u.Valid ∧ u.encode = (u', .ok (object, stats)) ∧
      u'.encode = (u', .ok (object, stats)) := by
  intro u
  have hisa : u.isa.BuiltIn := Or.inl rfl
  have hclosed : u.graph.Closed := by decide
  have hvalid : u.Valid :=
    ⟨hclosed, Nat.two_pos, List.forall_mem_nil _, List.forall_mem_nil _⟩
  have hwhole : u.graph.Whole u.isa := by
    refine ⟨hclosed, ?_, ?_⟩
    · unfold Graph.HasEdges
      decide +kernel
    · unfold Graph.Fits
      decide +kernel
  obtain ⟨u', ⟨object, stats⟩, he⟩ :=
    exists_encode hisa.regular (List.forall_mem_nil _) hwhole hvalid.roots_lt
  exact ⟨u', object, stats, hisa, hvalid, he, (encode_twice hisa hvalid he).1⟩

end CodeUnit

end Wordcode
