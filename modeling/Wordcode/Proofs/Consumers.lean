/-
# A trace forwards is a trace backwards read the other way

The trace forwards has other states than the one backwards: an instruction not yet run,
with the depth of the slot before it, and no edge. What it does at an instruction looks
different too: a popped slot goes on at its copies, any other moves with the stack. But
for a well-formed effect the slot that goes to `after` from `before` is the slot that
comes to `after` from `before`, so both traces follow the same relation,
`Trace.Carried`, from its two ends. An instruction consumes some value of another one
exactly when the other one produced some value of it.

Key definitions: `Graph.LeftBy`.
Key theorems: `StackEffect.WellFormed.carries_iff`, `Trace.reach_onward_iff`,
`Trace.mem_consumers`, `Trace.consumers_iff_producers`.
-/
import Wordcode.Proofs.BuiltIn
import Wordcode.Proofs.Producers

namespace Wordcode

/-- Seen from before the instruction: a popped slot goes to its copies, and any other is
moved by the change of height. -/
theorem StackEffect.WellFormed.carries_iff {effect : StackEffect} (h : effect.WellFormed)
    {before after : Nat} : effect.Carries before after ↔
      before < effect.popped ∧ after ∈ effect.copiesOf before ∨
        effect.popped ≤ before ∧ after = before - effect.popped + effect.pushed := by
  rw [StackEffect.mem_copiesOf, StackEffect.Carries]
  have hcopy : effect.sourceOf after = some before →
      after < effect.pushed ∧ before < effect.popped := by
    intro hsource
    obtain ⟨source, hget, rfl⟩ : ∃ source, effect.forwards[after]? = some source ∧
        source = some before := by
      rw [StackEffect.sourceOf] at hsource
      cases hget : effect.forwards[after]? with
      | none => rw [hget] at hsource; cases hsource
      | some source => rw [hget] at hsource; exact ⟨source, rfl, hsource⟩
    have hlt : after < effect.forwards.length := (List.getElem?_eq_some_iff.mp hget).1
    exact ⟨Nat.lt_of_lt_of_le hlt h.copies, h.copied before (List.mem_of_getElem? hget)⟩
  constructor
  · rintro (⟨-, hsource⟩ | ⟨hle, rfl⟩)
    · exact Or.inl ⟨(hcopy hsource).2, hsource⟩
    · exact Or.inr (by omega)
  · rintro (⟨-, hsource⟩ | ⟨hle, rfl⟩)
    · exact Or.inl ⟨(hcopy hsource).1, hsource⟩
    · exact Or.inr (by omega)

/-- Control can leave a node by this edge; a node without edges counts as one that falls
through. -/
def Graph.LeftBy (isa : InstructionSet) (g : Graph) (n : NodeId) (edge : Edge) : Prop :=
  (∃ m, (m, edge) ∈ g.edges isa n) ∨ g.edges isa n = [] ∧ edge = .fallthrough

namespace Trace

/-- All slots up to depth `limit`, before each of `size` instructions. -/
def enterings (size limit : Nat) : List Entering :=
  (List.range size ×ˢ List.range (limit + 1)).map fun s => ⟨s.1, s.2⟩

theorem length_enterings (size limit : Nat) : (enterings size limit).length = size * (limit + 1) := by
  simp only [enterings, List.length_map, List.length_product, List.length_range]

theorem mem_enterings {size limit : Nat} {s : Entering} :
    s ∈ enterings size limit ↔ s.node < size ∧ s.depth ≤ limit := by
  obtain ⟨n, depth⟩ := s
  simp only [enterings, List.mem_map, Prod.exists, Entering.mk.injEq, List.mem_product,
    List.mem_range]
  constructor
  · rintro ⟨n', d', ⟨hn, hd⟩, rfl, rfl⟩
    exact ⟨hn, Nat.lt_succ_iff.mp hd⟩
  · rintro ⟨hn, hd⟩
    exact ⟨n, depth, ⟨hn, Nat.lt_succ_iff.mpr hd⟩, rfl, rfl⟩

variable {isa : InstructionSet} {g : Graph} {roots : List NodeId} {p : NodeId} {depth : Nat}

theorem Carried.live {edge : Edge} {slot n : Nat}
    (h : Carried isa g (g.Live isa roots) p edge slot n depth) : g.Live isa roots n := by
  cases h with
  | left hp hedge => exact hp.step (Graph.mem_targets_iff.mpr ⟨_, hedge⟩)
  | past _ hm hedge => exact hm.step (Graph.mem_targets_iff.mpr ⟨_, hedge⟩)

/-! ### One step on -/

/-- The slots before the instructions that `p` leads to. -/
def entered (isa : InstructionSet) (g : Graph) (p : NodeId) (depth : Nat) : List Entering :=
  ((g.targets isa p).map fun m => (⟨m, depth⟩ : Entering)).filter (·.depth ≤ depthLimit)

theorem mem_entered {s : Entering} : s ∈ entered isa g p depth ↔
    (∃ edge, (s.node, edge) ∈ g.edges isa p) ∧ s.depth = depth ∧ depth ≤ depthLimit := by
  obtain ⟨n, d⟩ := s
  simp only [entered, List.mem_filter, List.mem_map, Entering.mk.injEq, decide_eq_true_eq,
    Graph.mem_targets_iff]
  constructor
  · rintro ⟨⟨m, hedge, rfl, rfl⟩, hlimit⟩
    exact ⟨hedge, rfl, hlimit⟩
  · rintro ⟨hedge, rfl, hlimit⟩
    exact ⟨⟨n, hedge, rfl, rfl⟩, hlimit⟩

theorem pops_iff {s : Entering} {edge : Edge} : s.pops isa g edge = true ↔
    ∃ effect, (g.node s.node).effect isa edge = some effect ∧ s.depth < effect.popped := by
  rw [Entering.pops]
  cases (g.node s.node).effect isa edge <;> simp

theorem isPopped_iff {s : Entering} : s.isPopped isa g = true ↔ ∃ edge effect,
    g.LeftBy isa s.node edge ∧ (g.node s.node).effect isa edge = some effect ∧
      s.depth < effect.popped := by
  simp only [exists_and_left, ← pops_iff, Entering.isPopped, Graph.LeftBy]
  cases g.edges isa s.node with
  | nil => simp
  | cons t edges =>
    simp only [List.any_eq_true, reduceCtorEq, false_and, or_false]
    constructor
    · rintro ⟨⟨m, edge⟩, hmem, hpops⟩
      exact ⟨edge, ⟨m, hmem⟩, hpops⟩
    · rintro ⟨edge, ⟨m, hmem⟩, hpops⟩
      exact ⟨(m, edge), hmem, hpops⟩

section WellFormed

variable (hwf : ∀ n edge effect, (g.node n).effect isa edge = some effect → effect.WellFormed)
include hwf

theorem mem_onward {s t : Entering} : t ∈ s.onward isa g ↔ t.depth ≤ depthLimit ∧ ∃ edge effect,
    (t.node, edge) ∈ g.edges isa s.node ∧ (g.node s.node).effect isa edge = some effect ∧
      effect.Carries s.depth t.depth := by
  have hafter : ∀ edge d, d ∈ s.after isa g edge ↔ ∃ effect,
      (g.node s.node).effect isa edge = some effect ∧ effect.Carries s.depth d := fun edge d => by
    rw [Entering.after]
    cases heffect : (g.node s.node).effect isa edge with
    | none => simp
    | some effect =>
      simp only [Option.some.injEq, exists_eq_left', (hwf _ _ _ heffect).carries_iff]
      by_cases hd : s.depth < effect.popped
      · simp [hd, Nat.not_le.mpr hd]
      · simp [hd, Nat.not_lt.mp hd]
  obtain ⟨n, d⟩ := t
  simp only [Entering.onward, List.mem_filter, List.mem_flatMap, List.mem_map, Prod.exists,
    Entering.mk.injEq, decide_eq_true_eq, hafter]
  constructor
  · rintro ⟨⟨m, edge, hedge, _, ⟨effect, heffect, hcarries⟩, rfl, rfl⟩, hlimit⟩
    exact ⟨hlimit, edge, effect, hedge, heffect, hcarries⟩
  · rintro ⟨hlimit, edge, effect, hedge, heffect, hcarries⟩
    exact ⟨⟨n, edge, hedge, d, ⟨effect, heffect, hcarries⟩, rfl, rfl⟩, hlimit⟩

/-- **The trace forwards gets to the slots that the one asked for is carried to.** -/
theorem reach_onward_iff (hp : g.Live isa roots p) {s : Entering} :
    Reach (Entering.onward isa g) (entered isa g p depth) s ↔
      ∃ edge, Carried isa g (g.Live isa roots) p edge depth s.node s.depth := by
  constructor
  · intro h
    refine Reach.induct (Q := fun s => ∃ edge, Carried isa g (g.Live isa roots) p edge depth s.node
      s.depth) (fun r hr => ?_) (fun s t ih ht => ?_) h
    · obtain ⟨⟨edge, hedge⟩, hdepth, hlimit⟩ := mem_entered.mp hr
      rw [hdepth]
      exact ⟨edge, .left hp hedge hlimit⟩
    · obtain ⟨edge, hcarried⟩ := ih
      obtain ⟨hlimit, e, effect, hedge, heffect, hcarries⟩ := (mem_onward hwf).mp ht
      exact ⟨edge, .past hcarried hcarried.live hedge heffect hcarries hlimit⟩
  · obtain ⟨n, d⟩ := s
    simp only
    rintro ⟨edge, h⟩
    induction h with
    | left _ hedge hlimit => exact .root (mem_entered.mpr ⟨⟨edge, hedge⟩, rfl, hlimit⟩)
    | past _ _ hedge heffect hcarries hlimit ih =>
      exact ih.step ((mem_onward hwf).mpr ⟨hlimit, _, _, hedge, heffect, hcarries⟩)

/-! ### The whole trace -/

variable (hg : g.Closed)
include hg

/-- The consumers of a slot are the instructions that pop a slot it is carried to. -/
theorem mem_consumers (hp : g.Live isa roots p) {c : NodeId} :
    c ∈ consumers isa g p depth ↔ ∃ e d, Carried isa g (g.Live isa roots) p e depth c d ∧
      ∃ edge effect, g.LeftBy isa c edge ∧ (g.node c).effect isa edge = some effect ∧
        d < effect.popped := by
  have hroots : ∀ s ∈ entered isa g p depth, s ∈ enterings g.size depthLimit := fun s hs => by
    obtain ⟨⟨edge, hedge⟩, hdepth, hlimit⟩ := mem_entered.mp hs
    exact mem_enterings.mpr ⟨hg.lt_of_mem_targets (Graph.mem_targets_iff.mpr ⟨edge, hedge⟩),
      hdepth ▸ hlimit⟩
  have hnext : ∀ s ∈ enterings g.size depthLimit, ∀ t ∈ s.onward isa g,
      t ∈ enterings g.size depthLimit := fun s _ t ht => by
    obtain ⟨hlimit, edge, -, hedge, -⟩ := (mem_onward hwf).mp ht
    exact mem_enterings.mpr ⟨hg.lt_of_mem_targets (Graph.mem_targets_iff.mpr ⟨edge, hedge⟩), hlimit⟩
  have hslots : ∀ s : Entering, s ∈ explore id (Entering.onward isa g) (g.size * (depthLimit + 1))
      (entered isa g p depth) ↔
        ∃ e, Carried isa g (g.Live isa roots) p e depth s.node s.depth := fun s => by
    rw [mem_explore (enterings g.size depthLimit) hroots hnext
      (Nat.le_of_eq (length_enterings g.size depthLimit)), reach_onward_iff hwf hp]
  have hconsumers : consumers isa g p depth = firsts (((explore id (Entering.onward isa g)
      (g.size * (depthLimit + 1)) (entered isa g p depth)).filter
        (Entering.isPopped isa g)).map (·.node)) := rfl
  rw [hconsumers, mem_firsts]
  simp only [List.mem_map, List.mem_filter, isPopped_iff]
  constructor
  · rintro ⟨s, ⟨hs, hpopped⟩, rfl⟩
    obtain ⟨e, hcarried⟩ := (hslots s).mp hs
    exact ⟨e, s.depth, hcarried, hpopped⟩
  · rintro ⟨e, d, hcarried, hpopped⟩
    exact ⟨⟨c, d⟩, ⟨(hslots ⟨c, d⟩).mpr ⟨e, hcarried⟩, hpopped⟩, rfl⟩

omit hwf in
/-- **Producers and consumers are dual.** If an instruction pushes the same on all its
edges, another one consumes a value that it pushed exactly when it produced a value that
the other one pops. -/
theorem consumers_iff_producers (hisa : isa.BuiltIn) (hroots : ∀ r ∈ roots, r < g.size) {p : NodeId}
    (hp : g.Live isa roots p) {effect : StackEffect}
    (heffect : ∀ t ∈ g.edges isa p, (g.node p).effect isa t.2 = some effect) (c : NodeId) :
    (∃ depth < effect.pushed, c ∈ consumers isa g p depth) ↔
      ∃ edge popping depth, g.LeftBy isa c edge ∧ (g.node c).effect isa edge = some popping ∧
        depth < popping.popped ∧ p ∈ producers isa g (.build isa g roots) c depth := by
  have hwf : ∀ n edge effect, (g.node n).effect isa edge = some effect → effect.WellFormed :=
    fun n edge effect h => hisa.wellFormed_effect h
  -- a carried slot leaves `p` by one of its edges
  have hsame : ∀ {e slot n depth}, Carried isa g (g.Live isa roots) p e slot n depth →
      (g.node p).effect isa e = some effect := by
    intro e slot n depth h
    induction h with
    | left _ hedge => exact heffect _ hedge
    | past _ _ _ _ _ _ ih => exact ih
  simp only [mem_consumers hwf hg hp, mem_producers hg hroots]
  constructor
  · rintro ⟨slot, hslot, e, depth, hcarried, edge, popping, hleft, hpopping, hpops⟩
    exact ⟨edge, popping, depth, hleft, hpopping, hpops, e, slot, effect, hcarried, hsame hcarried,
      hslot⟩
  · rintro ⟨edge, popping, depth, hleft, hpopping, hpops, e, slot, pushing, hcarried, hpushing, hslot⟩
    obtain rfl := Option.some.inj (hpushing.symm.trans (hsame hcarried))
    exact ⟨slot, hslot, e, depth, hcarried, edge, popping, hleft, hpopping, hpops⟩

end WellFormed

/-- The constant that is copied round a loop is consumed by the test at its end, as one of
the copies. -/
theorem consumers_iff_producers_loop :
    let g : Graph := ⟨#[{ opcode := ⟨100⟩, operand := .constant .none, successor := some 1 },
      { opcode := ⟨4⟩, successor := some 2 },
      { opcode := ⟨115⟩, operand := .jump, successor := some 3, branch := some 1 },
      { opcode := ⟨83⟩ }]⟩
    (g.Closed ∧ (∀ r ∈ [0], r < g.size) ∧ g.Live .python38 [0] 0 ∧
      ∀ t ∈ g.edges .python38 0, (g.node 0).effect .python38 t.2 = some ⟨1, 0, []⟩) ∧
      ∃ depth < 1, 2 ∈ consumers .python38 g 0 depth := by
  intro g
  have hclosed : g.Closed := by decide
  have hroots : ∀ r ∈ [0], r < g.size := by decide
  have hlive : g.Live .python38 [0] 0 := .root List.mem_cons_self
  have hnext : (1, Edge.fallthrough) ∈ g.edges .python38 0 := by
    rw [Graph.mem_edges, Graph.fallthrough?, Node.fallsThrough, Node.flags, InstructionSet.flags,
      InstructionSet.info_python38]
    decide +kernel
  have htest : (2, Edge.fallthrough) ∈ g.edges .python38 1 := by
    rw [Graph.mem_edges, Graph.fallthrough?, Node.fallsThrough, Node.flags, InstructionSet.flags,
      InstructionSet.info_python38]
    decide +kernel
  have hback : (1, Edge.branch) ∈ g.edges .python38 2 := by
    rw [Graph.mem_edges, Graph.branch?, Node.isJump, Node.flags, InstructionSet.flags,
      InstructionSet.info_python38]
    decide +kernel
  have hconst : ∀ edge, (g.node 0).effect .python38 edge = some ⟨1, 0, []⟩ := by
    intro edge
    rw [Node.effect, InstructionSet.effect, InstructionSet.info_python38]
    cases edge <;> decide +kernel
  have hcopy : (g.node 1).effect .python38 .fallthrough = some ⟨2, 1, [some 0, some 0]⟩ := by
    rw [Node.effect, InstructionSet.effect, InstructionSet.info_python38]
    decide +kernel
  have hpop : (g.node 2).effect .python38 .branch = some ⟨0, 1, []⟩ := by
    rw [Node.effect, InstructionSet.effect, InstructionSet.info_python38]
    decide +kernel
  have hlive' : g.Live .python38 [0] 1 := hlive.step (Graph.mem_targets_iff.mpr ⟨_, hnext⟩)
  have hlimit : 0 ≤ depthLimit := Nat.zero_le depthLimit
  have hsource : StackEffect.Carries ⟨2, 1, [some 0, some 0]⟩ 0 0 := Or.inl ⟨by decide, rfl⟩
  have hproduced : 0 ∈ producers .python38 g (.build .python38 g [0]) 2 0 :=
    (mem_producers hclosed hroots).mpr ⟨.fallthrough, 0, _,
      .past (.left hlive hnext hlimit) hlive' htest hcopy hsource hlimit, hconst _, by decide⟩
  refine ⟨⟨hclosed, hroots, hlive, fun t _ => hconst t.2⟩, ?_⟩
  exact (consumers_iff_producers hclosed (Or.inl rfl) hroots hlive (fun t _ => hconst t.2) 2).mpr
    ⟨.branch, ⟨0, 1, []⟩, 0, Or.inl ⟨1, hback⟩, hpop, by decide, hproduced⟩

end Trace

end Wordcode
