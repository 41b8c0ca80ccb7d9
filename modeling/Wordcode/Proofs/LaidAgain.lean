/-
# Laying out what was laid out

A graph that was laid out, and whose nodes were bound to offsets that go up along the
layout, is laid out in the same way again, and no jump is added. Execution gets to exactly
the nodes of the layout, the added jumps among them: each of them was put in because an
edge was led to it. The chain of the entry comes first, the other chains by their offsets;
both orders are those of the layout.

Key theorems: `Layout.led_closeGaps`, `Layout.led_addTrampolines`,
`Graph.led_of_linearize`, `Graph.closed_linearize`, `Graph.Laid.mem_iff_live`,
`Graph.Laid.linearize_again`.
-/
import Wordcode.Proofs.InOrder
import Wordcode.Proofs.Writing

namespace Wordcode

namespace Layout

variable {isa : InstructionSet} {g g' : Graph} {nodes laid : List NodeId} {j : NodeId}

/-! ### What a detour is asked for -/

section Asked

variable {place : Std.HashMap NodeId Nat} {n t : NodeId} {i : Nat} {opcode : Opcode}

theorem fallthrough?_of_gap? (h : gap? isa place g n i = some (t, opcode)) :
    g.fallthrough? isa n = some t := by
  cases hf : g.fallthrough? isa n with
  | none =>
    simp only [gap?, hf] at h
    cases h
  | some s =>
    simp only [gap?, hf] at h
    split at h
    · cases h
    · exact congrArg some (Prod.mk.inj (Option.some.inj h)).1

theorem branch_of_wrongWay? (h : wrongWay? isa place g n i = some (t, opcode)) :
    ((g.node n).flags isa).jumpRelative = true ∧ (g.node n).branch = some t := by
  unfold wrongWay? at h
  by_cases hrelative : ((g.node n).flags isa).jumpRelative = true
  · simp only [hrelative, if_true] at h
    cases hb : (g.node n).branch with
    | none =>
      simp only [hb] at h
      cases h
    | some b =>
      simp only [hb] at h
      split at h
      · split at h
        · exact ⟨hrelative, congrArg some (Prod.mk.inj (Option.some.inj h)).1⟩
        · cases h
      · split at h
        · exact ⟨hrelative, congrArg some (Prod.mk.inj (Option.some.inj h)).1⟩
        · cases h
  · simp only [hrelative, Bool.false_eq_true, if_false] at h
    cases h

end Asked

/-! ### Every new jump is led to -/

section Led

variable {edge : Edge} {detour? : Graph → NodeId → Nat → Option (NodeId × Opcode)}

/-- The edge of some node leads to each new jump. -/
theorem Detours.led {i : Nat} {jumps : List (Option Nat)}
    (h : Detours edge detour? g g' nodes i jumps) (hge : g.size ≤ j) (hlt : j < g'.size) :
    ∃ k n t opcode, nodes[k]? = some n ∧ detour? g n (i + k) = some (t, opcode) ∧
      g'.node n = (g.node n).withEdge edge (some j) := by
  obtain ⟨count, hcount, hrange⟩ := h.added
  have hmem : j ∈ jumps.reduceOption := by
    rw [hrange, List.mem_range'_1]
    exact ⟨hge, hcount ▸ hlt⟩
  obtain ⟨k, n, hk, hj⟩ := h.exists_of_mem hmem
  obtain ⟨target, opcode, hasked, hnode, -⟩ := h.of_some hk hj
  exact ⟨k, n, target, opcode, hk, hasked, hnode⟩

variable (hnd : nodes.Nodup) (hlt : ∀ n ∈ nodes, n < g.size)
include hnd hlt

theorem led_closeGaps (h : closeGaps isa g nodes = (g', laid)) (hge : g.size ≤ j)
    (hj : j < g'.size) : ∃ n ∈ nodes, ∃ s, g.fallthrough? isa n = some s ∧
      g'.node n = (g.node n).withEdge .fallthrough (some j) := by
  obtain ⟨g₁, jumps, heq, hdetours⟩ := detours_spec .fallthrough (gap? isa (places nodes))
    (gap?_local (places nodes)) nodes 0 g #[] hnd hlt
  simp only [closeGaps, heq, Prod.mk.injEq] at h
  obtain ⟨rfl, -⟩ := h
  obtain ⟨k, n, t, opcode, hk, hasked, hnode⟩ := hdetours.led hge hj
  exact ⟨n, List.mem_of_getElem? hk, t, fallthrough?_of_gap? hasked, hnode⟩

theorem led_addTrampolines (h : addTrampolines isa g nodes = (g', laid)) (hge : g.size ≤ j)
    (hj : j < g'.size) : ∃ n ∈ nodes, ((g.node n).flags isa).jumpRelative = true ∧
      g'.node n = (g.node n).withEdge .branch (some j) := by
  obtain ⟨g₁, jumps, heq, hdetours⟩ := detours_spec .branch (wrongWay? isa (places nodes))
    (wrongWay?_local (places nodes)) nodes 0 g #[] hnd hlt
  simp only [addTrampolines, heq, Prod.mk.injEq] at h
  obtain ⟨rfl, -⟩ := h
  obtain ⟨k, n, t, opcode, hk, hasked, hnode⟩ := hdetours.led hge hj
  exact ⟨n, List.mem_of_getElem? hk, (branch_of_wrongWay? hasked).1, hnode⟩

end Led

/-! ### No edge leads out of the graph -/

section Closed

theorem closed_redirect (hg : g.Closed) (n : NodeId) (e : Edge) {t : NodeId} (ht : t < g.size) :
    (g.redirect n e (some t)).Closed := by
  rw [Flattening.closed_iff] at hg ⊢
  intro m k e' h
  rw [Graph.size_redirect]
  rw [Graph.node_redirect] at h
  split at h
  · by_cases he : e' = e
    · rw [he, Node.target_withEdge_self] at h
      exact Option.some.inj h ▸ ht
    · rw [Node.target_withEdge_of_ne _ he] at h
      exact hg m k e' h
  · exact hg m k e' h

theorem closed_alloc (hg : g.Closed) {node : Node}
    (hnode : ∀ m e, node.target e = some m → m ≤ g.size) : (g.alloc node).Closed := by
  rw [Flattening.closed_iff] at hg ⊢
  intro n m e h
  rw [Graph.size_alloc]
  rw [Graph.node_alloc] at h
  split at h
  · exact Nat.lt_succ_of_le (hnode m e h)
  · exact Nat.lt_succ_of_lt (hg n m e h)

theorem closed_detours {edge : Edge} {detour? : Graph → NodeId → Nat → Option (NodeId × Opcode)}
    (hinside : ∀ (g : Graph) n i t opcode, g.Closed → detour? g n i = some (t, opcode) →
      t < g.size) : ∀ (nodes : List NodeId) (i : Nat) (g : Graph) (done : Array (Option NodeId)),
      g.Closed → (detours edge detour? nodes i g done).1.Closed
  | [], _, _, _, hg => hg
  | n :: nodes, i, g, done, hg => by
    rw [detours]
    split
    · exact closed_detours hinside nodes (i + 1) g _ hg
    · case _ target opcode hasked =>
      have htarget := hinside g n i target opcode hg hasked
      refine closed_detours hinside nodes (i + 1) _ _ (closed_redirect (closed_alloc hg ?_) n edge ?_)
      · intro m e hm
        cases e with
        | fallthrough => cases hm
        | branch => exact Nat.le_of_lt (Option.some.inj hm ▸ htarget)
      · rw [Graph.size_alloc]
        exact Nat.lt_succ_self g.size

theorem closed_closeGaps (hg : g.Closed) (nodes : List NodeId) :
    (closeGaps isa g nodes).1.Closed := by
  refine closed_detours (fun g n i t opcode hg h => ?_) nodes 0 g #[] hg
  exact hg.lt_of_successor (Graph.fallthrough?_eq_some.mp (fallthrough?_of_gap? h)).2

theorem closed_addTrampolines (hg : g.Closed) (nodes : List NodeId) :
    (addTrampolines isa g nodes).1.Closed := by
  refine closed_detours (fun g n i t opcode hg h => ?_) nodes 0 g #[] hg
  exact hg.lt_of_branch (branch_of_wrongWay? h).2

end Closed

/-! ### Both repairs -/

/-- Each jump that the repairs added is led to by a node that was there before. -/
theorem Repaired.led {g₁ g₂ : Graph} {roots order closed laid : List NodeId}
    (r : Repaired isa g g₁ g₂ roots order closed laid) (hclose : closeGaps isa g order = (g₁, closed))
    (hadd : addTrampolines isa g₁ closed = (g₂, laid)) (hj : j ∈ laid) (hge : g.size ≤ j) :
    ∃ n ∈ laid, n < g.size ∧ j ∈ g₂.targets isa n := by
  rcases Nat.lt_or_ge j g₁.size with hlt | hge₁
  · obtain ⟨n, hn, s, hs, hnode⟩ := led_closeGaps r.order_nodup r.order_lt hclose hge hlt
    have hnlt := r.order_lt n hn
    refine ⟨n, r.mem_laid_of_order hn, hnlt, Graph.mem_targets.mpr (Or.inl ?_)⟩
    rw [Graph.fallthrough?_eq_some, r.fallsThrough hnlt, r.successor hnlt, hnode]
    exact ⟨(Graph.fallthrough?_eq_some.mp hs).1, rfl⟩
  · have hnd := r.gaps.nodup r.order_nodup r.order_lt
    obtain ⟨n, hn, hrel, hnode⟩ := led_addTrampolines hnd r.closed_lt hadd hge₁
      (r.trampolines.lt_size r.closed_lt hj)
    have hnlaid : n ∈ laid := (r.trampolines.mem_iff (r.closed_lt n hn)).mpr hn
    -- the other new jumps lead to nodes that were there before
    have hnlt : n < g.size := by
      by_contra hnge
      obtain ⟨t, -, htlt, hjump, -⟩ := r.added hnlaid (Nat.not_lt.mp hnge)
      have hbranch := hjump.branch
      rw [hnode] at hbranch
      obtain rfl : j = t := Option.some.inj hbranch
      exact absurd htlt (Nat.not_lt.mpr hge)
    refine ⟨n, hnlaid, hnlt, Graph.mem_targets.mpr (Or.inr ?_)⟩
    rw [Graph.branch?_eq_some, hnode, Node.isJump, Node.flags_withEdge, Flags.isJump, hrel]
    exact ⟨Bool.or_true _, rfl⟩

end Layout

namespace Graph

open List

variable {isa : InstructionSet} {g g' : Graph} {entry : NodeId} {handlers layout : List NodeId}

/-- Each jump that was added to a layout is led to by a node that was there before. -/
theorem led_of_linearize (hisa : isa.Regular) (hg : g.Closed)
    (hroots : ∀ r ∈ entry :: handlers, r < g.size)
    (h : g.linearize isa entry handlers = .ok (g', layout)) {j : NodeId} (hj : j ∈ layout)
    (hge : g.size ≤ j) : ∃ n ∈ layout, n < g.size ∧ j ∈ g'.targets isa n := by
  obtain ⟨g₁, closed, g₂, hclose, hadd, hr, rfl⟩ := repaired_of_linearize hisa.directed hg hroots h
  rw [funext ((Layout.sameCode_bindOffsets layout 0 g₂).targets isa)]
  exact hr.led hclose hadd hj hge

theorem Closed.of_sameCode (hg : g.Closed) (s : g.SameCode g') : g'.Closed := by
  intro n hn
  rw [s.size_eq] at hn ⊢
  rw [s.successor, s.branch]
  exact hg n hn

theorem closed_linearize (hg : g.Closed) (h : g.linearize isa entry handlers = .ok (g', layout)) :
    g'.Closed := by
  obtain ⟨found, g₁, closed, g₂, -, hclose, hadd, rfl⟩ := linearize_eq_ok h
  have hgaps : (Layout.closeGaps isa g (Layout.order isa g entry found)).1.Closed :=
    Layout.closed_closeGaps hg _
  rw [hclose] at hgaps
  have htrampolines : (Layout.addTrampolines isa g₁ closed).1.Closed :=
    Layout.closed_addTrampolines hgaps _
  rw [hadd] at htrampolines
  exact htrampolines.of_sameCode (Layout.sameCode_bindOffsets ..)

namespace Laid

variable (hl : Laid isa g g' entry handlers layout) (hg : g.Closed)
  (hroots : ∀ r ∈ entry :: handlers, r < g.size)
include hl hg hroots

/-- What execution got to before, it gets to with the new jumps. -/
theorem live_of_live {n : NodeId} (h : g.Live isa (entry :: handlers) n) :
    g'.Live isa (entry :: handlers) n := by
  refine (Reach.induct (Q := fun n => g.Live isa (entry :: handlers) n ∧
    g'.Live isa (entry :: handlers) n) (fun r hr => ⟨.root hr, .root hr⟩) (fun p n hp hn => ?_) h).2
  obtain ⟨hold, hnew⟩ := hp
  refine ⟨hold.step hn, ?_⟩
  obtain ⟨e, hedge⟩ := mem_targets_iff.mp hn
  rcases hl.leads p (hg.lt_of_live hroots hold) n e hedge with hdirect | ⟨j, -, hj, hjump⟩
  · exact hnew.step (mem_targets_iff.mpr ⟨e, hdirect⟩)
  · refine (hnew.step (mem_targets_iff.mpr ⟨e, hj⟩)).step (mem_targets.mpr (Or.inr ?_))
    exact branch?_eq_some.mpr ⟨hjump.isJump, hjump.branch⟩

variable (hled : ∀ j ∈ layout, g.size ≤ j → ∃ n ∈ layout, n < g.size ∧ j ∈ g'.targets isa n)
include hled

/-- **Afterwards execution gets to the nodes of the layout.** -/
theorem mem_iff_live (n : NodeId) : n ∈ layout ↔ g'.Live isa (entry :: handlers) n := by
  have hold : ∀ n ∈ layout, n < g.size → g'.Live isa (entry :: handlers) n := fun n hn hlt =>
    hl.live_of_live hg hroots ((hl.mem_iff n hlt).mp hn)
  constructor
  · intro hn
    rcases Nat.lt_or_ge n g.size with hlt | hge
    · exact hold n hn hlt
    · obtain ⟨p, hp, hplt, htarget⟩ := hled n hn hge
      exact (hold p hp hplt).step htarget
  · intro h
    refine Reach.induct (Q := (· ∈ layout)) (fun r hr => ?_) (fun p n hp hn => ?_) h
    · exact (hl.mem_iff r (hroots r hr)).mpr (.root hr)
    · rcases mem_targets.mp hn with hs | hb
      · obtain ⟨hf, hs⟩ := fallthrough?_eq_some.mp hs
        obtain ⟨s, hs', hinfix⟩ := hl.next p hp hf
        obtain rfl : s = n := Option.some.inj (hs'.symm.trans hs)
        exact hinfix.subset (by simp)
      · obtain ⟨hj, hb⟩ := branch?_eq_some.mp hb
        obtain ⟨t, ht, hb'⟩ := hl.target p hp hj
        exact Option.some.inj (hb'.symm.trans hb) ▸ ht

/-- **A layout along which the offsets go up is laid out again as it is.** -/
theorem linearize_again (hisa : isa.Regular) (hg' : g'.Closed)
    (hascending : layout.Pairwise fun a b => Layout.offsetLe g' b a = false) :
    g'.linearize isa entry handlers = .ok (Layout.bindOffsets layout 0 g', layout) := by
  have hmem := hl.mem_iff_live hg hroots hled
  have hroots' : ∀ r ∈ entry :: handlers, r < g'.size := fun r hr =>
    Nat.lt_of_lt_of_le (hroots r hr) hl.grown
  have hnext : ∀ n ∈ layout, ∀ s, g'.fallthrough? isa n = some s → [n, s] <:+: layout := by
    intro n hn s hs
    obtain ⟨hf, hs⟩ := fallthrough?_eq_some.mp hs
    obtain ⟨s', hs', hinfix⟩ := hl.next n hn hf
    exact Option.some.inj (hs'.symm.trans hs) ▸ hinfix
  have hcomplete : ∀ n, g'.Live isa (entry :: handlers) n → g'.HasEdges isa n := by
    intro n hn
    have hn := (hmem n).mpr hn
    constructor
    · intro hf
      obtain ⟨s, hs, -⟩ := hl.next n hn hf
      rw [hs]
      exact Option.some_ne_none s
    · intro hj
      obtain ⟨t, -, ht⟩ := hl.target n hn hj
      rw [ht]
      exact Option.some_ne_none t
  have horder := Layout.order_of_ascending hg' hroots' hl.head hmem hascending hnext
  refine linearize_of_order hisa hg' hroots' hcomplete horder hnext fun n hn hr t ht => ?_
  obtain ⟨t', ht', hsub⟩ := hl.forward n hn hr
  exact Option.some.inj (ht'.symm.trans ht) ▸ hsub

end Laid

end Graph

end Wordcode
