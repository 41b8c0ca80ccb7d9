/-
# Assembling what was read

Units that were read are laid out in their order: those that execution gets to stay, the
others are left out, and the graph itself does not change (`Graph.InOrder`). So a jump goes
no further than it went, its operand takes no more digits than it took, and each instruction
fits into the extension units that it was read with (`Graph.spanOf`). As relaxation spares
all extension units that it can, it ends with no more than these: code that is read and
assembled again does not get longer, and its jumps can say where they lead to.

Key definitions: `Graph.InOrder`, `Graph.spanOf`.
Key theorems: `Stream.Unedited.exists_inOrder`, `Graph.InOrder.width_le`,
`Graph.InOrder.addressable`, `Graph.InOrder.length_le`.
-/
import Mathlib.Data.List.Perm.Subperm
import Wordcode.Proofs.ReadBack

namespace Wordcode

/-! ### The order of the nodes -/

namespace Layout

variable {g : Graph}

theorem node_bindOffsets (n : NodeId) : ∀ (nodes : List NodeId) (i : Nat) (g : Graph),
    ∃ offset, (bindOffsets nodes i g).node n = { g.node n with offset }
  | [], _, g => ⟨(g.node n).offset, rfl⟩
  | m :: nodes, i, g => by
    obtain ⟨offset, hnode⟩ :=
      node_bindOffsets n nodes (i + 1) (g.modify m ({ · with offset := some (i * 2) }))
    refine ⟨offset, hnode.trans ?_⟩
    rw [Graph.node_modify]
    split <;> rfl

theorem collect_bindOffsets (isa : InstructionSet) (g : Graph) (nodes : List NodeId) (i : Nat) :
    ∀ (layout : List NodeId) (growth : PoolGrowth) (done : Array Assembly.Collected),
      Assembly.collect isa (bindOffsets nodes i g) layout growth done =
        Assembly.collect isa g layout growth done
  | [], _, _ => rfl
  | n :: layout, growth, done => by
    obtain ⟨offset, hnode⟩ := node_bindOffsets n nodes i g
    have hoperand : Assembly.collectOperand { g.node n with offset } growth =
        Assembly.collectOperand (g.node n) growth := rfl
    have hext : Node.isExtension isa { g.node n with offset } = (g.node n).isExtension isa := rfl
    simp only [Assembly.collect, hnode, hoperand, hext, collect_bindOffsets isa g nodes i layout]

end Layout

namespace Graph

open Relaxation

theorem edges_of_extension {isa : InstructionSet} {g : Graph} {n s : NodeId} (hisa : isa.Regular)
    (hext : (g.node n).isExtension isa = true) (hs : (g.node n).successor = some s) :
    g.edges isa n = [(s, .fallthrough)] := by
  have hidle := (hisa.opcodes _).idle (Or.inl hext)
  have hf : g.fallthrough? isa n = some s := fallthrough?_eq_some.mpr ⟨hidle.1, hs⟩
  have hb : g.branch? isa n = none :=
    if_neg (by rw [Node.isJump, Node.flags, InstructionSet.flags, hidle.2]; exact Bool.false_ne_true)
  rw [edges, hf, hb]
  rfl

theorem Emits.edges_reserved {isa : InstructionSet} {g g' : Graph} {entry : NodeId}
    {handlers : List NodeId} {a : Assembled} {placed : List Placed} {p : Placed} {n : NodeId}
    (he : Emits isa g' a placed) (hisa : isa.Regular) (hl : Laid isa g g' entry handlers a.layout)
    (hp : p ∈ placed) (hn : n ∈ p.run.reserved) :
    ∃ s ∈ p.run.nodes, [n, s] <:+: a.layout ∧ g'.edges isa n = [(s, .fallthrough)] := by
  have hext := (he.shaped p hp).reserved n hn
  obtain ⟨s, hs, hinfix⟩ := hl.next n (he.mem_layout hp (List.mem_append_left _ hn))
    ((hisa.opcodes _).idle (Or.inl hext)).1
  exact ⟨s, he.within hl.nodup hp hn hinfix, hinfix, edges_of_extension hisa hext hs⟩

/-- The graph is assembled as `a` in the order of its nodes. Offsets and pool indices apart, it
stays as it is. -/
structure InOrder (isa : InstructionSet) (g g' : Graph) (entry : NodeId) (handlers : List NodeId)
    (a : Assembled) (placed : List Placed) : Prop where
  regular : isa.Regular
  closed : g.Closed
  roots_lt : ∀ r ∈ entry :: handlers, r < g.size
  same : g.SameCode g'
  laid : Laid isa g g' entry handlers a.layout
  ascending : a.layout.Pairwise (· < ·)
  emits : Emits isa g' a placed

namespace InOrder

variable {isa : InstructionSet} {g g' : Graph} {entry : NodeId} {handlers : List NodeId}
  {a : Assembled} {placed : List Placed} {p q : Placed} {n : Nat}
  (o : InOrder isa g g' entry handlers a placed)
include o

theorem mem_layout : n ∈ a.layout ↔ g.Live isa (entry :: handlers) n := by
  constructor
  · intro hn
    have hlt := o.laid.lt hn
    rw [o.same.size_eq] at hlt
    exact (o.laid.mem_iff n hlt).mp hn
  · intro hn
    exact (o.laid.mem_iff n (o.closed.lt_of_live o.roots_lt hn)).mpr hn

theorem not_extension (hp : p ∈ placed) : (g.node p.run.instruction).isExtension isa = false := by
  rw [← o.same.isExtension]
  exact (o.emits.shaped p hp).instruction

theorem mem_nodes (hp : p ∈ placed) (hn : n ∈ p.run.nodes) :
    n ∈ p.run.reserved ∧ (g.node n).isExtension isa = true ∨
      n = p.run.instruction ∧ (g.node n).isExtension isa = false := by
  rcases List.mem_append.mp hn with hn | hn
  · have hext := (o.emits.shaped p hp).reserved n hn
    rw [o.same.isExtension] at hext
    exact Or.inl ⟨hn, hext⟩
  · obtain rfl := List.mem_singleton.mp hn
    exact Or.inr ⟨rfl, o.not_extension hp⟩

theorem edges_reserved (hp : p ∈ placed) (hn : n ∈ p.run.reserved) :
    ∃ s ∈ p.run.nodes, n < s ∧ g.edges isa n = [(s, .fallthrough)] := by
  obtain ⟨s, hs, hinfix, hedges⟩ := o.emits.edges_reserved o.regular o.laid hp hn
  have hpair : [n, s].Pairwise (· < ·) := o.ascending.sublist hinfix.sublist
  rw [o.same.edges] at hedges
  exact ⟨s, hs, by simpa using hpair, hedges⟩

/-- What holds of an instruction, and of each extension unit if of the node that it leads to,
holds of the whole run. -/
theorem run_induct {Q : Nat → Prop} (hp : p ∈ placed) (hlast : Q p.run.instruction)
    (hstep : ∀ n s, (g.node n).isExtension isa = true → g.edges isa n = [(s, .fallthrough)] →
      Q s → Q n) : ∀ n ∈ p.run.nodes, Q n := by
  intro n
  induction hleft : g.size - n using Nat.strong_induction_on generalizing n with
  | h left ih =>
    intro hn
    rcases o.mem_nodes hp hn with ⟨hres, hext⟩ | ⟨rfl, -⟩
    · obtain ⟨s, hs, hlt, hedges⟩ := o.edges_reserved hp hres
      have hbound := o.laid.lt (o.emits.mem_layout hp hs)
      rw [o.same.size_eq] at hbound
      exact hstep n s hext hedges (ih (g.size - s) (by omega) s rfl hs)
    · exact hlast

end InOrder

end Graph

namespace Stream

variable {isa : InstructionSet} {words : List Word} {pools : Pools} {g g' : Graph}
  {handlers : List NodeId} {a : Assembled}

open Relaxation Assembly

/-- The instruction of a run is written with the argument that it was read with, and with zero
if it has none. The operand of a jump is measured anew. -/
def Repeats (isa : InstructionSet) (words : List Word) (g : Graph) (p : Placed) : Prop :=
  (g.node p.run.instruction).isJump isa = false →
    ∃ argument, (folded isa words 0)[p.run.instruction]? = some argument ∧
      p.operand = if ((g.node p.run.instruction).flags isa).hasArgument then argument else 0

/-- An operand is at most what was read. -/
theorem Repeats.operand_le {p : Placed} (h : Repeats isa words g p)
    (hj : (g.node p.run.instruction).isJump isa = false) {argument : Nat}
    (ha : (folded isa words 0)[p.run.instruction]? = some argument) : p.operand ≤ argument := by
  obtain ⟨argument', ha', hoperand⟩ := h hj
  obtain rfl := Option.some.inj (ha.symm.trans ha')
  rw [hoperand]
  split
  · exact Nat.le_refl _
  · exact Nat.zero_le _

theorem Repeats.operand_eq_zero {p : Placed} (h : Repeats isa words g p) (hisa : isa.Regular)
    (hno : ((g.node p.run.instruction).flags isa).hasArgument = false) : p.operand = 0 := by
  cases hj : (g.node p.run.instruction).isJump isa with
  | true =>
    have hyes : ((g.node p.run.instruction).flags isa).hasArgument = true :=
      (hisa.opcodes _).hasArgument_of_isJump hj
    rw [hno] at hyes
    cases hyes
  | false =>
    obtain ⟨argument, -, hoperand⟩ := h hj
    rw [hoperand, hno]
    rfl

/-- **Assembly of units that were read** lays out those that execution gets to, in their order,
and leaves the pools and the arguments as they are. -/
theorem Unedited.exists_inOrder (h : Unedited isa words pools g) (hisa : isa.Regular)
    (hroots : ∀ r ∈ 0 :: handlers, r < g.size)
    (ha : g.assemble isa 0 handlers pools = (g', .ok a)) :
    a.pools = pools ∧ ∃ placed, Graph.InOrder isa g g' 0 handlers a placed ∧
      ∀ p ∈ placed, Repeats isa words g p := by
  obtain ⟨g₁, operands, growth, placed, hlin, hcol, hpools, hsame₁, he, hnumbers⟩ :=
    Graph.exists_emits hisa h.closed hroots ha
  have hlaid := (Graph.laid_of_linearize hisa h.closed hroots hlin).of_sameCode hsame₁
  obtain ⟨layout, hlin', hascending, -⟩ := h.exists_linearize hisa hroots
  obtain ⟨rfl, rfl⟩ := Prod.mk.inj (Except.ok.inj (hlin'.symm.trans hlin))
  have hsame := (Layout.sameCode_bindOffsets a.layout 0 g).trans hsame₁
  have hlt : ∀ n ∈ a.layout, n < g.size := fun n hn => hsame.size_eq ▸ hlaid.lt hn
  rw [Layout.collect_bindOffsets, h.collect_eq hisa hlt] at hcol
  obtain ⟨rfl, rfl⟩ := Prod.mk.inj (Except.ok.inj hcol)
  have horder : Graph.InOrder isa g g' 0 handlers a placed :=
    ⟨hisa, h.closed, hroots, hsame, hlaid, hascending, he⟩
  refine ⟨hpools, placed, horder, fun p hp hj => ?_⟩
  obtain ⟨c, hc, hnumber⟩ := hnumbers p hp
  have hn := hnumber (by rw [hsame.isJump]; exact hj)
  rw [hsame.opcode] at hn
  exact h.number_eq hisa hc (hlt _ (he.instruction_mem hp)) (horder.not_extension hp) hj hn

end Stream

/-! ### Runs that were read -/

namespace Graph

variable {isa : InstructionSet} {g : Graph}

variable (isa g) in
theorem firstOfRun_le : ∀ k : Nat, g.firstOfRun isa k ≤ k
  | 0 => Nat.le_refl 0
  | k + 1 => by
    rw [firstOfRun]
    split
    · exact Nat.le_succ_of_le (firstOfRun_le k)
    · exact Nat.le_refl _

theorem firstOfRun_le_of_extensions {m : Nat} : ∀ {k : Nat}, m ≤ k →
    (∀ i, m ≤ i → i < k → (g.node i).isExtension isa = true) → g.firstOfRun isa k ≤ m
  | 0, _, _ => Nat.zero_le m
  | k + 1, hle, hext => by
    rcases Nat.lt_or_eq_of_le hle with hlt | rfl
    · have hm := Nat.le_of_lt_succ hlt
      rw [firstOfRun, if_pos (hext k hm (Nat.lt_succ_self k))]
      exact firstOfRun_le_of_extensions hm fun i hi hik => hext i hi (Nat.lt_succ_of_lt hik)
    · exact firstOfRun_le isa g _

theorem lt_firstOfRun {n : Nat} (hext : (g.node n).isExtension isa = false) :
    ∀ {k : Nat}, n < k → n < g.firstOfRun isa k
  | k + 1, hlt => by
    rw [firstOfRun]
    split
    · rename_i hk
      refine lt_firstOfRun hext (Nat.lt_of_le_of_ne (Nat.le_of_lt_succ hlt) ?_)
      rintro rfl
      rw [hext] at hk
      cases hk
    · exact hlt

variable (isa g) in
/-- How many extension units an instruction was read with. -/
def spanOf (r : Run) : Nat := r.instruction - g.firstOfRun isa r.instruction

theorem add_firstOfRun_le {r : Run} {width : Nat} (h : width ≤ g.spanOf isa r) :
    width + g.firstOfRun isa r.instruction ≤ r.instruction := by
  have hle := firstOfRun_le isa g r.instruction
  rw [spanOf] at h
  omega

end Graph

namespace Stream.Unedited

variable {isa : InstructionSet} {words : List Word} {pools : Pools} {g : Graph}
  (h : Unedited isa words pools g)
include h

/-- An argument has a digit for each unit of its run. -/
theorem folded_lt : ∀ {k argument : Nat}, (folded isa words 0)[k]? = some argument →
    argument < 256 ^ (k - g.firstOfRun isa k + 1)
  | 0, argument, ha => by
    obtain ⟨word, _, hw, -⟩ := h.at_lt (k := 0) (by
      rw [h.size_eq, ← length_folded isa words 0]
      exact (List.getElem?_eq_some_iff.mp ha).1)
    rw [getElem?_folded_zero isa 0 hw] at ha
    obtain rfl := Option.some.inj ha
    have hdigit : word.arg.toNat < 256 := word.arg.toNat_lt
    simpa [Graph.firstOfRun] using hdigit
  | k + 1, argument, ha => by
    have hlt : k + 1 < g.size := by
      rw [h.size_eq, ← length_folded isa words 0]
      exact (List.getElem?_eq_some_iff.mp ha).1
    obtain ⟨word, _, hw, -⟩ := h.at_lt hlt
    obtain ⟨before, pending, hb, hp⟩ := h.at_lt (Nat.lt_of_succ_lt hlt)
    rw [getElem?_folded_succ isa hb hw hp] at ha
    obtain rfl := Option.some.inj ha
    have hdigit : word.arg.toNat < 256 := word.arg.toNat_lt
    have hext : (g.node k).isExtension isa = (isa.flags before.opcode).extension := by
      rw [Node.isExtension, h.flags hb hp]
    rw [Graph.firstOfRun, hext]
    split
    · have hle := Graph.firstOfRun_le isa g k
      have hpending := folded_lt hp
      rw [Nat.succ_sub hle, Nat.pow_succ]
      omega
    · simpa using hdigit

theorem reach_eq {k t argument : Nat} (ha : (folded isa words 0)[k]? = some argument)
    (hj : (g.node k).isJump isa = true) (ht : (g.node k).branch = some t) :
    Relaxation.reach ((g.node k).flags isa) k 0 t * 2 = argument * isa.jumpUnit.size := by
  obtain ⟨word, _, hw, -⟩ := h.at_lt (k := k) (by
    rw [h.size_eq, ← length_folded isa words 0]
    exact (List.getElem?_eq_some_iff.mp ha).1)
  rw [h.branch hw ha, if_pos hj, ← Nat.add_zero k] at ht
  exact (Relaxation.reach_of_jumpTarget? ht).1

end Stream.Unedited

/-! ### Places for runs that are no wider -/

namespace Relaxation

variable {first last : Placed → Nat}

/-- Runs that fit between two numbers each, with these going up, stand no further apart than
the numbers are. -/
theorem Consecutive.start_le : ∀ {placed : List Placed} {start base : Nat},
    Consecutive start placed → (∀ p ∈ placed, p.width + first p ≤ last p) →
    placed.Pairwise (fun p q => last p < first q) → (∀ p ∈ placed, base ≤ first p) →
    ∀ q ∈ placed, q.start + base ≤ first q + start
  | p :: placed, start, base, ⟨hstart, hrest⟩, hfit, hpair, hbase, q, hq => by
    have hfirst := hbase p List.mem_cons_self
    have hwidth := hfit p List.mem_cons_self
    obtain ⟨hlater, hpair⟩ := List.pairwise_cons.mp hpair
    rcases List.mem_cons.mp hq with rfl | hq
    · omega
    · have ih := hrest.start_le (fun p hp => hfit p (List.mem_cons_of_mem _ hp)) hpair hlater q hq
      have := hlater q hq
      omega

theorem Consecutive.apart_le : ∀ {placed : List Placed} {start : Nat},
    Consecutive start placed → (∀ p ∈ placed, p.width + first p ≤ last p) →
    placed.Pairwise (fun p q => last p < first q) → ∀ p ∈ placed, ∀ q ∈ placed,
      p.start + p.width + 1 ≤ q.start →
        q.start + (last p + 1) ≤ first q + (p.start + p.width + 1)
  | x :: placed, start, ⟨hstart, hrest⟩, hfit, hpair, p, hp, q, hq, hle => by
    have hfit' : ∀ p ∈ placed, p.width + first p ≤ last p :=
      fun p hp => hfit p (List.mem_cons_of_mem _ hp)
    obtain ⟨hlater, hpair'⟩ := List.pairwise_cons.mp hpair
    rcases List.mem_cons.mp hp with rfl | hp' <;> rcases List.mem_cons.mp hq with rfl | hq'
    · omega
    · have hbound := hrest.start_le hfit' hpair' hlater q hq'
      omega
    · have := hrest.le hp'
      omega
    · exact hrest.apart_le hfit' hpair' p hp' q hq' hle

end Relaxation

namespace Graph.InOrder

open Relaxation

variable {isa : InstructionSet} {words : List Word} {pools : Pools} {g g' : Graph}
  {handlers : List NodeId} {a : Assembled} {placed other : List Placed} {p q : Placed} {n : Nat}
  (o : InOrder isa g g' 0 handlers a placed) (h : Stream.Unedited isa words pools g)
include o

theorem pairwise_runs : (placed.map (·.run)).Pairwise fun r s =>
    r.instruction < g.firstOfRun isa s.instruction := by
  have hascending := o.ascending
  rw [← o.emits.nodes_eq, List.pairwise_flatMap] at hascending
  refine List.pairwise_map.mpr (hascending.2.imp_of_mem fun hp hq hlt => ?_)
  refine lt_firstOfRun (o.not_extension hp) (hlt _ ?_ _ ?_) <;>
    exact List.mem_append_right _ List.mem_cons_self

include h

theorem extensions (hp : p ∈ placed) : ∀ n ∈ p.run.nodes, n ≤ p.run.instruction ∧
    ∀ i, n ≤ i → i < p.run.instruction → (g.node i).isExtension isa = true := by
  refine o.run_induct hp ⟨Nat.le_refl _, fun i hi hlast => absurd hlast (Nat.not_lt.mpr hi)⟩
    fun n s hext hedges hs => ?_
  have hfall := (mem_edges isa g n s .fallthrough).mp (hedges ▸ List.mem_singleton.mpr rfl)
  obtain ⟨rfl, -⟩ := h.next hfall
  obtain ⟨hle, hexts⟩ := hs
  refine ⟨Nat.le_of_succ_le hle, fun i hi hlast => ?_⟩
  rcases Nat.lt_or_eq_of_le hi with hi | rfl
  · exact hexts i hi hlast
  · exact hext

theorem first_le (hp : p ∈ placed) (hn : n ∈ p.run.nodes) :
    g.firstOfRun isa p.run.instruction ≤ n := by
  obtain ⟨hle, hext⟩ := o.extensions h hp n hn
  exact firstOfRun_le_of_extensions hle hext

/-- What was laid out of a run was read with it. -/
theorem reserved_le (hp : p ∈ placed) : p.run.reserved.length ≤ g.spanOf isa p.run := by
  have hnodup : p.run.reserved.Nodup := by
    obtain ⟨before, after, -, hlay⟩ := o.emits.layout_split hp
    have hnd := o.laid.nodup
    rw [hlay, Run.nodes] at hnd
    exact (List.nodup_append.mp (List.nodup_append.mp (List.nodup_append.mp hnd).2.1).1).1
  have hsub : p.run.reserved ⊆
      List.range' (g.firstOfRun isa p.run.instruction) (g.spanOf isa p.run) := by
    intro n hn
    have hmem : n ∈ p.run.nodes := List.mem_append_left _ hn
    have hfirst := o.first_le h hp hmem
    have hlast := (o.extensions h hp n hmem).1
    have hne : n ≠ p.run.instruction := by
      rintro rfl
      have hext := (o.emits.shaped p hp).reserved _ hn
      rw [(o.emits.shaped p hp).instruction] at hext
      cases hext
    have hlt := Nat.lt_of_le_of_ne hlast hne
    rw [List.mem_range'_1, spanOf]
    omega
  have hlen := (hnodup.subperm hsub).length_le
  rwa [List.length_range'] at hlen

/-- **A jump goes no further than it went**, if no run takes more extension units than it was
read with. -/
theorem reach_le (hruns : other.map (·.run) = placed.map (·.run)) (hplaces : Consecutive 0 other)
    (hwidth : ∀ p ∈ other, p.width ≤ g.spanOf isa p.run) (hp : p ∈ other) (hq : q ∈ other)
    {t : Nat} (ht : t ∈ q.run.nodes) :
    reach ((g.node p.run.instruction).flags isa) p.start p.width q.start ≤
      reach ((g.node p.run.instruction).flags isa) p.run.instruction 0 t := by
  have hpair := o.pairwise_runs
  rw [← hruns, List.pairwise_map] at hpair
  have hfit := fun p hp => add_firstOfRun_le (hwidth p hp)
  obtain ⟨q', hq', hrun⟩ := List.mem_map.mp (hruns ▸ List.mem_map_of_mem hq)
  have hfirst := o.first_le h hq' (hrun ▸ ht)
  rw [hrun] at hfirst
  have habsolute := hplaces.start_le hfit hpair (fun p _ => Nat.zero_le _) q hq
  have hrelative := hplaces.apart_le hfit hpair p hp q hq
  have hback : ((g.node p.run.instruction).flags isa).jumpBackward = false :=
    (o.regular.opcodes _).forward
  unfold reach
  rw [hback]
  split
  · omega
  · simp only [Bool.false_eq_true, if_false]
    omega

theorem exists_argument (hp : p ∈ placed) :
    ∃ argument, (Stream.folded isa words 0)[p.run.instruction]? = some argument ∧
      argument < UInt32.size ∧ extraDigits argument ≤ g.spanOf isa p.run := by
  have hlt := o.laid.lt (o.emits.instruction_mem hp)
  rw [o.same.size_eq] at hlt
  obtain ⟨-, argument, -, ha⟩ := h.at_lt hlt
  exact ⟨argument, ha, h.narrow argument (List.mem_of_getElem? ha),
    extraDigits_le_of_lt (h.folded_lt ha)⟩

theorem jump_le (hruns : other.map (·.run) = placed.map (·.run)) (hplaces : Consecutive 0 other)
    (hwidth : ∀ p ∈ other, p.width ≤ g.spanOf isa p.run) (hp : p ∈ other) (hq : q ∈ other)
    {t argument : Nat} (hj : (g.node p.run.instruction).isJump isa = true)
    (hb : (g.node p.run.instruction).branch = some t) (ht : t ∈ q.run.nodes)
    (ha : (Stream.folded isa words 0)[p.run.instruction]? = some argument) :
    reach ((g.node p.run.instruction).flags isa) p.start p.width q.start * 2 / isa.jumpUnit.size ≤
      argument := by
  have hpos : 0 < isa.jumpUnit.size := by
    cases isa.jumpUnit <;> decide
  have hle := Nat.mul_le_mul_right 2 (o.reach_le h hruns hplaces hwidth hp hq ht)
  rw [h.reach_eq ha hj hb] at hle
  exact (Nat.div_le_div_right hle).trans (Nat.mul_div_cancel argument hpos).le

variable (hargs : ∀ p ∈ placed, Stream.Repeats isa words g p)
include hargs

/-- **No run takes more extension units than it was read with.** -/
theorem width_le : ∀ p ∈ placed, p.width ≤ g.spanOf isa p.run := by
  refine o.emits.narrowest (g.spanOf isa) (fun p hp => o.reserved_le h hp)
    fun other hruns hplaces hasks p hp => ?_
  obtain ⟨hwidth, hrest, hjump⟩ := hasks p hp
  obtain ⟨p', hp', hrun⟩ := List.mem_map.mp (hruns ▸ List.mem_map_of_mem hp)
  obtain ⟨argument, ha, -, hdigits⟩ := o.exists_argument h hp'
  rw [hrun] at ha hdigits
  rw [o.same.isJump] at hrest hjump
  rw [o.same.branch, o.same.flags] at hjump
  suffices hle : p.operand ≤ argument by
    rw [hwidth]
    exact (extraDigits_mono hle).trans hdigits
  cases hj : (g.node p.run.instruction).isJump isa with
  | true =>
    obtain ⟨t, q, hq, hb, ht, hdistance⟩ := hjump hj
    have hle := o.jump_le h hruns hplaces (fun p hp => (hasks p hp).1.le) hp hq hj hb ht ha
    rw [(distance_eq_ok_iff.mp hdistance).1]
    exact (Nat.min_le_left _ _).trans hle
  | false =>
    have hsame : p.operand = p'.operand := by
      rw [hrest hj, (o.emits.asks p' hp').1 (by rw [hrun, o.same.isJump]; exact hj), hrun]
    rw [hsame]
    exact (hargs p' hp').operand_le (by rw [hrun]; exact hj) (by rw [hrun]; exact ha)

/-- **All jumps can say where they lead to.** -/
theorem addressable : Addressable isa g' placed := by
  intro p hp q hq t ht hj hb
  rw [o.same.isJump] at hj
  rw [o.same.branch] at hb
  obtain ⟨argument, ha, hnarrow, -⟩ := o.exists_argument h hp
  rw [o.same.flags]
  exact (o.jump_le h rfl o.emits.consecutive (o.width_le h hargs) hp hq hj hb ht ha).trans_lt hnarrow

theorem operand_lt (hp : p ∈ placed) : p.operand < UInt32.size := by
  cases hj : (g.node p.run.instruction).isJump isa with
  | true =>
    obtain ⟨t, q, -, -, -, hdistance⟩ := (o.emits.asks p hp).2 (by rw [o.same.isJump]; exact hj)
    exact distance_lt hdistance
  | false =>
    obtain ⟨argument, ha, hnarrow, -⟩ := o.exists_argument h hp
    exact ((hargs p hp).operand_le hj ha).trans_lt hnarrow

/-- **The code does not get longer.** -/
theorem length_le : a.words.length ≤ words.length := by
  by_contra hlt
  have hk : a.words.length - 1 < (placed.flatMap (wordsOf isa g')).length := by
    rw [← o.emits.words_eq]
    omega
  obtain ⟨p, hp, j, hj, heq⟩ :=
    exists_of_lt_length o.emits.consecutive (fun p _ => length_wordsOf p) hk
  have hfit := fun p hp => add_firstOfRun_le (o.width_le h hargs p hp)
  have hstart := o.emits.consecutive.start_le hfit (List.pairwise_map.mp o.pairwise_runs)
    (fun p _ => Nat.zero_le _) p hp
  have hspan := hfit p hp
  have hlast := o.laid.lt (o.emits.instruction_mem hp)
  rw [o.same.size_eq, h.size_eq] at hlast
  omega

end Graph.InOrder

end Wordcode
