/-
# A trace backwards finds every producer

`Trace.Carried` says what it means for a slot to get from one instruction to another
along a path: after the first instruction it is so deep, and every instruction on the way
either leaves it where its effect moves it or holds a copy of it. The trace backwards
goes the same way in the other direction. Its states, an instruction left by an edge and
the depth of the slot then, are the slots that are carried to the one asked for, and there
are only so many of them: so it ends, and reports each instruction that pushed one of
them, once.

Key definitions: `StackEffect.Carries`, `Trace.Carried`.
Key theorems: `Trace.reach_back_iff`, `Trace.producers_exact`.
-/
import Mathlib.Data.List.ProdSigma
import Wordcode.Proofs.BuiltIn
import Wordcode.Proofs.Predecessors
import Wordcode.Trace

namespace Wordcode

/-- After an instruction with this effect the slot `after` holds what was in the slot
`before` before it: it is one of the pushed ones and a copy of `before`, or lies below
the pushed ones and was there. -/
def StackEffect.Carries (effect : StackEffect) (before after : Nat) : Prop :=
  after < effect.pushed ∧ effect.sourceOf after = some before ∨
    effect.pushed ≤ after ∧ before = after - effect.pushed + effect.popped

namespace Trace

variable (isa : InstructionSet) (g : Graph)

/-- Along a path of edges between nodes with `indexed`, that leaves `p` by `edge`, the slot
`slot` below the top after `p` is carried to the slot `depth` below the top just before
`n`, and is never deeper than the limit before an instruction. -/
inductive Carried (indexed : NodeId → Prop) (p : NodeId) (edge : Edge) (slot : Nat) :
    (n : NodeId) → (depth : Nat) → Prop
  | left {n : NodeId} (hp : indexed p) (hedge : (n, edge) ∈ g.edges isa p)
      (hlimit : slot ≤ depthLimit) : Carried indexed p edge slot n slot
  | past {m n : NodeId} {e : Edge} {before after : Nat} {effect : StackEffect}
      (h : Carried indexed p edge slot m before) (hm : indexed m) (hedge : (n, e) ∈ g.edges isa m)
      (heffect : (g.node m).effect isa e = some effect) (hcarries : effect.Carries before after)
      (hlimit : after ≤ depthLimit) : Carried indexed p edge slot n after

/-- All slots up to depth `limit`, after each of `size` instructions. -/
def leavings (size limit : Nat) : List Leaving :=
  (List.range size ×ˢ [Edge.fallthrough, Edge.branch] ×ˢ List.range (limit + 1)).map
    fun s => ⟨s.1, s.2.1, s.2.2⟩

theorem length_leavings (size limit : Nat) :
    (leavings size limit).length = size * 2 * (limit + 1) := by
  simp only [leavings, List.length_map, List.length_product, List.length_range, List.length_cons,
    List.length_nil, Nat.mul_assoc]

theorem mem_leavings {size limit : Nat} {s : Leaving} :
    s ∈ leavings size limit ↔ s.node < size ∧ s.depth ≤ limit := by
  obtain ⟨n, e, depth⟩ := s
  have hedge : e ∈ [Edge.fallthrough, Edge.branch] := by cases e <;> simp
  simp only [leavings, List.mem_map, Prod.exists, Leaving.mk.injEq, List.mem_product,
    List.mem_range]
  constructor
  · rintro ⟨n', e', d', ⟨hn, -, hd⟩, rfl, rfl, rfl⟩
    exact ⟨hn, Nat.lt_succ_iff.mp hd⟩
  · rintro ⟨hn, hd⟩
    exact ⟨n, e, depth, ⟨hn, hedge, Nat.lt_succ_iff.mpr hd⟩, rfl, rfl, rfl⟩

variable {isa g} {roots : List NodeId} {n : NodeId} {depth : Nat}

/-! ### One step back -/

section Back

variable (hg : g.Closed) (hroots : ∀ r ∈ roots, r < g.size)
include hg hroots

theorem mem_before {s : Leaving} : s ∈ Leaving.before (.build isa g roots) n depth ↔
    depth ≤ depthLimit ∧ g.Live isa roots s.node ∧ (n, s.edge) ∈ g.edges isa s.node ∧
      s.depth = depth := by
  rw [Leaving.before]
  by_cases hd : depthLimit < depth
  · simp only [if_pos hd, List.not_mem_nil, Nat.not_le.mpr hd, false_and]
  · obtain ⟨p, e, d⟩ := s
    simp only [if_neg hd, List.mem_map, Prod.exists, Leaving.mk.injEq, Nat.not_lt.mp hd, true_and,
      PredecessorIndex.mem_predecessors_build hg hroots]
    constructor
    · rintro ⟨p, e, ⟨hp, hedge⟩, rfl, rfl, rfl⟩
      exact ⟨hp, hedge, rfl⟩
    · rintro ⟨hp, hedge, rfl⟩
      exact ⟨p, e, ⟨hp, hedge⟩, rfl, rfl, rfl⟩

omit hg hroots in
theorem mem_back {index : PredecessorIndex} {s t : Leaving} :
    t ∈ Leaving.back isa g index s ↔ ∃ effect source, (g.node s.node).effect isa s.edge = some effect ∧
      effect.Carries source s.depth ∧ t ∈ Leaving.before index s.node source := by
  rw [Leaving.back]
  cases heffect : (g.node s.node).effect isa s.edge with
  | none => simp
  | some effect =>
    simp only [Option.some.injEq, StackEffect.Carries, exists_and_left, exists_eq_left']
    by_cases hd : s.depth < effect.pushed
    · have hno : ¬ effect.pushed ≤ s.depth := Nat.not_le.mpr hd
      simp only [hd, hno, if_true, true_and, false_and, or_false]
      cases effect.sourceOf s.depth with
      | none => simp
      | some source => simp
    · simp only [hd, Nat.not_lt.mp hd, if_false, true_and, false_and, false_or, exists_eq_left]

/-- **The trace backwards gets to the slots that are carried to the one asked for.** -/
theorem reach_back_iff {s : Leaving} :
    Reach (Leaving.back isa g (.build isa g roots)) (Leaving.before (.build isa g roots) n depth) s ↔
      Carried isa g (g.Live isa roots) s.node s.edge s.depth n depth := by
  constructor
  · rintro ⟨r, hr, hpath⟩
    -- along the path from its far end: where control goes on from a slot is asked anew
    induction hpath using Relation.ReflTransGen.head_induction_on generalizing n depth with
    | refl =>
      obtain ⟨hlimit, hlive, hedge, rfl⟩ := (mem_before hg hroots).mp hr
      exact .left hlive hedge hlimit
    | @head r t hback _ ih =>
      obtain ⟨hlimit, hlive, hedge, rfl⟩ := (mem_before hg hroots).mp hr
      obtain ⟨effect, source, heffect, hcarries, ht⟩ := mem_back.mp hback
      exact .past (ih ht) hlive hedge heffect hcarries hlimit
  · intro h
    induction h with
    | left hp hedge hlimit =>
      exact .root ((mem_before hg hroots).mpr ⟨hlimit, hp, hedge, rfl⟩)
    | @past m n e before after effect _ hm hedge heffect hcarries hlimit ih =>
      obtain ⟨r, hr, hpath⟩ := ih
      refine ⟨⟨m, e, after⟩, (mem_before hg hroots).mpr ⟨hlimit, hm, hedge, rfl⟩, .head ?_ hpath⟩
      exact mem_back.mpr ⟨effect, before, heffect, hcarries, hr⟩

/-! ### The whole trace -/

theorem before_subset_leavings : ∀ s ∈ Leaving.before (.build isa g roots) n depth,
    s ∈ leavings g.size depthLimit := by
  intro s hs
  obtain ⟨hlimit, hlive, -, rfl⟩ := (mem_before hg hroots).mp hs
  exact mem_leavings.mpr ⟨hg.lt_of_live hroots hlive, hlimit⟩

theorem back_subset_leavings (s : Leaving) : ∀ t ∈ Leaving.back isa g (.build isa g roots) s,
    t ∈ leavings g.size depthLimit := by
  intro t ht
  obtain ⟨effect, source, -, -, ht⟩ := mem_back.mp ht
  exact before_subset_leavings hg hroots t ht

omit hg hroots in
theorem isPushed_iff {s : Leaving} : s.isPushed isa g = true ↔
    ∃ effect, (g.node s.node).effect isa s.edge = some effect ∧ s.depth < effect.pushed := by
  rw [Leaving.isPushed]
  cases (g.node s.node).effect isa s.edge <;> simp

theorem mem_producers {p : NodeId} : p ∈ producers isa g (.build isa g roots) n depth ↔
    ∃ edge slot effect, Carried isa g (g.Live isa roots) p edge slot n depth ∧
      (g.node p).effect isa edge = some effect ∧ slot < effect.pushed := by
  rw [producers, mem_firsts]
  simp only [List.mem_map, List.mem_filter, isPushed_iff]
  have hslots : ∀ s : Leaving, s ∈ explore id (Leaving.back isa g (.build isa g roots))
      (g.size * 2 * (depthLimit + 1)) (Leaving.before (.build isa g roots) n depth) ↔
        Carried isa g (g.Live isa roots) s.node s.edge s.depth n depth := fun s => by
    rw [mem_explore (leavings g.size depthLimit) (before_subset_leavings hg hroots)
      (fun s _ => back_subset_leavings hg hroots s) (Nat.le_of_eq (length_leavings g.size depthLimit)),
      reach_back_iff hg hroots]
  constructor
  · rintro ⟨s, ⟨hs, effect, heffect, hpushed⟩, rfl⟩
    exact ⟨s.edge, s.depth, effect, (hslots s).mp hs, heffect, hpushed⟩
  · rintro ⟨edge, slot, effect, hcarried, heffect, hpushed⟩
    exact ⟨⟨p, edge, slot⟩, ⟨(hslots _).mpr hcarried, effect, heffect, hpushed⟩, rfl⟩

/-- **Producer traces are exact.** The trace from the slot `depth` below the top before
`n` ends by itself, it reports no instruction twice, and it reports just those from which
a slot that they pushed is carried to that one along some path of indexed edges. -/
theorem producers_exact (n : NodeId) (depth : Nat) :
    (∃ steps slots,
      Explores id (Leaving.back isa g (.build isa g roots)) steps
        (Leaving.before (.build isa g roots) n depth) ∅ #[] slots ∧
      producers isa g (.build isa g roots) n depth =
        firsts ((slots.toList.filter (Leaving.isPushed isa g)).map (·.node))) ∧
    (producers isa g (.build isa g roots) n depth).Nodup ∧
    ∀ p, p ∈ producers isa g (.build isa g roots) n depth ↔
      ∃ edge slot effect, Carried isa g (g.Live isa roots) p edge slot n depth ∧
        (g.node p).effect isa edge = some effect ∧ slot < effect.pushed := by
  obtain ⟨steps, slots, hsteps, hslots⟩ := exists_explores id
    (Leaving.back isa g (.build isa g roots)) (before_subset_leavings hg hroots)
    (fun s _ => back_subset_leavings hg hroots s) (Nat.le_of_eq (length_leavings g.size depthLimit))
  exact ⟨⟨steps, slots, hsteps, by rw [← hslots, producers]⟩, nodup_firsts _,
    fun p => mem_producers hg hroots⟩

end Back

/-- A constant is copied, and the copies decide whether to copy again: the one that is
looked at was pushed by the copying instruction, and what it copies by the constant. -/
theorem producers_exact_loop :
    let g : Graph := ⟨#[{ opcode := ⟨100⟩, operand := .constant .none, successor := some 1 },
      { opcode := ⟨4⟩, successor := some 2 },
      { opcode := ⟨115⟩, operand := .jump, successor := some 3, branch := some 1 },
      { opcode := ⟨83⟩ }]⟩
    (g.Closed ∧ ∀ r ∈ [0], r < g.size) ∧
      (producers .python38 g (.build .python38 g [0]) 2 0).Nodup ∧
      1 ∈ producers .python38 g (.build .python38 g [0]) 2 0 ∧
      0 ∈ producers .python38 g (.build .python38 g [0]) 2 0 := by
  intro g
  have hclosed : g.Closed := by decide
  have hroots : ∀ r ∈ [0], r < g.size := by decide
  have hnext : (1, Edge.fallthrough) ∈ g.edges .python38 0 := by
    rw [Graph.mem_edges, Graph.fallthrough?, Node.fallsThrough, Node.flags, InstructionSet.flags,
      InstructionSet.info_python38]
    decide +kernel
  have htest : (2, Edge.fallthrough) ∈ g.edges .python38 1 := by
    rw [Graph.mem_edges, Graph.fallthrough?, Node.fallsThrough, Node.flags, InstructionSet.flags,
      InstructionSet.info_python38]
    decide +kernel
  have hconst : (g.node 0).effect .python38 .fallthrough = some ⟨1, 0, []⟩ := by
    rw [Node.effect, InstructionSet.effect, InstructionSet.info_python38]
    decide +kernel
  have hcopy : (g.node 1).effect .python38 .fallthrough = some ⟨2, 1, [some 0, some 0]⟩ := by
    rw [Node.effect, InstructionSet.effect, InstructionSet.info_python38]
    decide +kernel
  have hlive : g.Live .python38 [0] 0 := .root List.mem_cons_self
  have hlive' : g.Live .python38 [0] 1 :=
    hlive.step (Graph.mem_targets_iff.mpr ⟨_, hnext⟩)
  have hlimit : 0 ≤ depthLimit := Nat.zero_le depthLimit
  obtain ⟨-, hnodup, hiff⟩ := @producers_exact .python38 g [0] hclosed hroots 2 0
  refine ⟨⟨hclosed, hroots⟩, hnodup, (hiff 1).mpr ?_, (hiff 0).mpr ?_⟩
  · exact ⟨.fallthrough, 0, _, .left hlive' htest hlimit, hcopy, by decide⟩
  · refine ⟨.fallthrough, 0, _, .past (.left hlive hnext hlimit) hlive' htest hcopy ?_ hlimit,
      hconst, by decide⟩
    exact Or.inl ⟨by decide, rfl⟩

end Trace

end Wordcode
