/-
# Optimising twice

Skipping stops at an instruction at which it stays, so skipping twice is skipping once. An
optimised graph skips as the graph did before: among the instructions whose edges were led
anew, a trivial one leads to where it led before (`Graph.sameSkips_optimise`).

An instruction is reduced when none of its edges leads to one that is skipped. Optimising
reduces the code from its entry and leaves reduced instructions as they are, so code that
was reduced from another entry before stays so. Hence after the runs from all handlers and
from the entry the code from each of them is reduced, and there is nothing left to do for
further runs.

Key definitions: `Graph.Reduced`, `Graph.ReducedFrom`.
Key theorems: `Graph.sameSkips_optimise`, `Graph.optimise_of_reduced`,
`Graph.reduced_foldl_optimise`, `CodeUnit.optimise_optimise`.
-/
import Wordcode.Proofs.Consistency

namespace Wordcode

namespace Graph

variable {isa : InstructionSet} {g g' : Graph} {n m entry : Nat}

/-! ### Reduced instructions -/

theorem skipTrivial_skipTrivial (hg : g.Closed) (n : Nat) :
    g.skipTrivial isa (g.skipTrivial isa n) = g.skipTrivial isa n := by
  by_cases hn : n < g.size
  · exact skipTrivial_of_settled hg (skipTrivial_lt hg hn) (skipTrivial_settled hg hn)
  · -- where no node is, nothing leads on
    have hnone : g.trivialNext? isa n = none := by
      cases hnext : g.trivialNext? isa n with
      | none => rfl
      | some m =>
        rw [trivialNext?, node_of_size_le (Nat.not_lt.mp hn)] at hnext
        split_ifs at hnext <;> cases hnext
    have hskip : g.skipTrivial isa n = n := skipFrom_stop _ (Or.inr (onward_of_none hnone))
    rw [hskip, hskip]

variable (isa g) in
/-- No edge of the instruction leads to one that is skipped. -/
def Reduced (n : NodeId) : Prop := ∀ t ∈ g.targets isa n, g.skipTrivial isa t = t

variable (isa g) in
/-- All instructions of the code from `entry` are reduced. -/
def ReducedFrom (entry : NodeId) : Prop := ∀ n, g.Live isa [entry] n → g.Reduced isa n

theorem ledAlong_eq : ∀ {edges : List (Nat × Edge)},
    (∀ p ∈ edges, p ∈ g.edges isa n ∧ g.skipTrivial isa p.1 = p.1) →
    g.ledAlong isa (g.node n) edges = g.node n
  | [], _ => rfl
  | p :: edges, h => by
    obtain ⟨hp, hskip⟩ := h p List.mem_cons_self
    have hrest := ledAlong_eq fun q hq => h q (List.mem_cons_of_mem p hq)
    rw [ledAlong, List.foldl_cons, hskip, withEdge_of_mem hp]
    exact hrest

theorem Reduced.led_eq (h : g.Reduced isa n) : g.led isa n = g.node n :=
  ledAlong_eq fun p hp => ⟨hp, h p.1 (List.mem_map_of_mem hp)⟩

theorem Settled.reduced (hs : g.Settled isa n) (ht : g.Trivial isa n) (hisa : isa.Regular)
    (hg : g.Closed) (hn : n < g.size) : g.Reduced isa n := by
  intro t htarget
  obtain ⟨e, he⟩ := mem_targets_iff.mp htarget
  rcases edges_of_trivial hisa ht with ⟨m, e', hnext, hedges⟩ | ⟨-, hedges⟩
  · obtain ⟨rfl, -⟩ : t = m ∧ e = e' := by simpa [hedges] using he
    rw [← onward_of_some hnext]
    exact skipTrivial_of_settled hg (hg.onward_lt hn) hs.onward
  · rw [hedges] at he
    cases he

/-! ### One run -/

section Run

variable (hisa : isa.Regular) (hg : g.Closed) (hentry : entry < g.size)
include hisa hg hentry

/-- In the optimised graph the same is skipped. -/
theorem sameSkips_optimise : SameSkips isa g (g.optimise isa entry).1 where
  size_eq := size_optimise
  next_eq := fun n => by
    rcases node_optimise hisa hg hentry n with ⟨hreach, hled⟩ | ⟨-, hkept⟩
    · by_cases ht : g.Trivial isa n
      · have hs := settled_optimise hisa hg hentry ((live_optimise hisa hg hentry).mpr hreach)
        have hn : n < g.size := by
          refine Reach.induct (Q := (· < g.size)) (fun r hr => ?_)
            (fun _ b _ hb => hg.ledTargets_lt b hb) hreach
          rw [List.mem_singleton.mp hr]
          exact skipTrivial_lt hg hentry
        rw [(hs.reduced ht hisa hg hn).led_eq] at hled
        exact trivialNext?_congr hled
      · have ht' := (trivial_congr (body_optimise hisa hg hentry n)).not.mpr ht
        rw [trivialNext?_of_not_trivial ht, trivialNext?_of_not_trivial ht']
    · exact trivialNext?_congr hkept

theorem Reduced.node_optimise (h : g.Reduced isa n) :
    (g.optimise isa entry).1.node n = g.node n := by
  rcases Graph.node_optimise hisa hg hentry n with ⟨-, hled⟩ | ⟨-, hkept⟩
  · rw [hled, h.led_eq]
  · exact hkept

theorem Reduced.optimise (h : g.Reduced isa n) : (g.optimise isa entry).1.Reduced isa n := by
  intro t ht
  rw [targets, edges_congr (h.node_optimise hisa hg hentry)] at ht
  rw [(sameSkips_optimise hisa hg hentry).skipTrivial]
  exact h t ht

theorem reducedFrom_optimise :
    (g.optimise isa entry).1.ReducedFrom isa (g.skipTrivial isa entry) := by
  intro n hn t ht
  rw [targets, edges_optimise hisa hg hentry hn] at ht
  obtain ⟨p, hp, rfl⟩ := List.mem_map.mp ht
  obtain ⟨q, -, rfl⟩ := List.mem_map.mp hp
  rw [(sameSkips_optimise hisa hg hentry).skipTrivial, skipTrivial_skipTrivial hg]

theorem ReducedFrom.optimise {r : Nat} (h : g.ReducedFrom isa r) :
    (g.optimise isa entry).1.ReducedFrom isa r := by
  have hlive : ∀ n, (g.optimise isa entry).1.Live isa [r] n → g.Live isa [r] n := by
    intro n hn
    refine Reach.induct (fun s hs => Reach.root hs) (fun a b ha hb => ha.step ?_) hn
    rwa [targets, edges_congr ((h a ha).node_optimise hisa hg hentry)] at hb
  exact fun n hn => (h n (hlive n hn)).optimise hisa hg hentry

/-- **Over reduced code a run does nothing.** -/
theorem optimise_of_reduced (hskip : g.skipTrivial isa entry = entry)
    (h : g.ReducedFrom isa entry) : g.optimise isa entry = (g, entry) := by
  have hreach : ∀ n, Reach (g.ledTargets isa) [g.skipTrivial isa entry] n →
      g.Live isa [entry] n := by
    intro n hn
    refine Reach.induct (fun s hs => ?_) (fun a b ha hb => ?_) hn
    · rw [hskip] at hs
      exact Reach.root hs
    · obtain ⟨t, ht, rfl⟩ := mem_ledTargets.mp hb
      rw [h a ha t ht]
      exact ha.step ht
  refine Prod.ext (eq_of_node size_optimise fun n _ => ?_) hskip
  rcases node_optimise hisa hg hentry n with ⟨hn, hled⟩ | ⟨-, hkept⟩
  · rw [hled, (h n (hreach n hn)).led_eq]
  · exact hkept

end Run

/-! ### Runs one after the other -/

/-- **After runs from several entries the code from each of them is reduced**, the same is
skipped as before, and what was reduced is reduced still. -/
theorem reduced_foldl_optimise (hisa : isa.Regular) : ∀ (entries : List Nat) {g : Graph},
    g.Closed → (∀ e ∈ entries, e < g.size) →
    ∃ g', entries.foldl (fun g e => (g.optimise isa e).1) g = g' ∧ g'.Closed ∧
      SameSkips isa g g' ∧ (∀ r, g.ReducedFrom isa r → g'.ReducedFrom isa r) ∧
      ∀ e ∈ entries, g'.ReducedFrom isa (g.skipTrivial isa e)
  | [], g, hg, _ => ⟨g, rfl, hg, ⟨rfl, fun _ => rfl⟩, fun _ => id, List.forall_mem_nil _⟩
  | e :: entries, g, hg, hlt => by
    have he := hlt e List.mem_cons_self
    have hs := sameSkips_optimise hisa hg he
    obtain ⟨g', hg', hclosed, hs', hkept, hall⟩ := reduced_foldl_optimise hisa entries
      (closed_optimise hisa hg he) fun d hd => by
        rw [size_optimise]
        exact hlt d (List.mem_cons_of_mem e hd)
    refine ⟨g', hg', hclosed, ⟨hs'.size_eq.trans hs.size_eq, fun n => ?_⟩, fun r hr => ?_,
      fun d hd => ?_⟩
    · rw [hs'.next_eq, hs.next_eq]
    · exact hkept r (hr.optimise hisa hg he)
    · rcases List.mem_cons.mp hd with rfl | hd
      · exact hkept _ (reducedFrom_optimise hisa hg he)
      · rw [← hs.skipTrivial]
        exact hall d hd

theorem foldl_optimise_of_reduced (hisa : isa.Regular) (hg : g.Closed) : ∀ {entries : List Nat},
    (∀ e ∈ entries, e < g.size ∧ g.skipTrivial isa e = e ∧ g.ReducedFrom isa e) →
    entries.foldl (fun g e => (g.optimise isa e).1) g = g
  | [], _ => rfl
  | e :: entries, h => by
    obtain ⟨he, hskip, hreduced⟩ := h e List.mem_cons_self
    rw [List.foldl_cons, optimise_of_reduced hisa hg he hskip hreduced]
    exact foldl_optimise_of_reduced hisa hg fun d hd => h d (List.mem_cons_of_mem e hd)

end Graph

namespace CodeUnit

variable {u : CodeUnit}

/-- An optimised unit, and what is left to do in it: the code from its entry and from its handlers
is reduced, and none of them is skipped. -/
theorem optimise_spec (hisa : u.isa.Regular) (hg : u.graph.Closed)
    (hroots : ∀ r ∈ u.roots, r < u.graph.size) : u.optimise.graph.Closed ∧
      Graph.SameSkips u.isa u.graph u.optimise.graph ∧
      u.optimise.exceptions = u.exceptions.remapHandlers (u.graph.skipTrivial u.isa) ∧
      ∀ r ∈ u.optimise.roots, r < u.optimise.graph.size ∧
        u.graph.skipTrivial u.isa r = r ∧ u.optimise.graph.ReducedFrom u.isa r := by
  have hhandlers : ∀ h ∈ u.exceptions.handlers, h < u.graph.size := fun h hh =>
    hroots h (List.mem_cons_of_mem _ hh)
  obtain ⟨g, hrun, hclosed, hs, -, hreduced⟩ :=
    Graph.reduced_foldl_optimise hisa u.exceptions.handlers hg hhandlers
  have hentry : u.entry < g.size := by
    rw [hs.size_eq]
    exact hroots u.entry List.mem_cons_self
  have hs' := Graph.sameSkips_optimise hisa hclosed hentry
  have hgraph : u.optimise.graph = (g.optimise u.isa u.entry).1 := by
    rw [← hrun]
    rfl
  have hsame : Graph.SameSkips u.isa u.graph u.optimise.graph := by
    rw [hgraph]
    exact ⟨hs'.size_eq.trans hs.size_eq, fun n => (hs'.next_eq n).trans (hs.next_eq n)⟩
  have hexceptions : u.optimise.exceptions =
      u.exceptions.remapHandlers (u.graph.skipTrivial u.isa) := by
    rw [← funext hsame.skipTrivial]
    rfl
  refine ⟨hgraph ▸ Graph.closed_optimise hisa hclosed hentry, hsame, hexceptions, fun r hr => ?_⟩
  have hskips : ∃ n < u.graph.size, r = u.graph.skipTrivial u.isa n ∧
      u.optimise.graph.ReducedFrom u.isa (u.graph.skipTrivial u.isa n) := by
    rcases List.mem_cons.mp hr with rfl | hr
    · refine ⟨u.entry, hroots u.entry List.mem_cons_self, ?_, ?_⟩
      · rw [← hs.skipTrivial, ← hrun]
        rfl
      · rw [hgraph, ← hs.skipTrivial]
        exact Graph.reducedFrom_optimise hisa hclosed hentry
    · rw [hexceptions] at hr
      obtain ⟨region, hregion, rfl⟩ := RegionTable.mem_handlers.mp hr
      obtain ⟨old, hold, rfl⟩ := List.mem_map.mp hregion
      have hmem : old.handler ∈ u.exceptions.handlers :=
        RegionTable.mem_handlers.mpr ⟨old, hold, rfl⟩
      refine ⟨old.handler, hhandlers _ hmem, rfl, ?_⟩
      rw [hgraph]
      exact (hreduced _ hmem).optimise hisa hclosed hentry
  obtain ⟨n, hn, rfl, hfrom⟩ := hskips
  rw [hsame.size_eq]
  exact ⟨Graph.skipTrivial_lt hg hn, Graph.skipTrivial_skipTrivial hg n, hfrom⟩

/-- **Optimising is idempotent**, whatever the regions are: a second time leaves every edge, the
handlers and the entry as they are. Skipping is idempotent from every instruction, also on a
cycle of trivial ones. -/
theorem optimise_optimise (hisa : u.isa.BuiltIn) (hg : u.graph.Closed)
    (hroots : ∀ r ∈ u.roots, r < u.graph.size) : u.optimise.optimise = u.optimise ∧
      ∀ n, u.graph.skipTrivial u.isa (u.graph.skipTrivial u.isa n) =
        u.graph.skipTrivial u.isa n := by
  have hreg := hisa.regular
  refine ⟨?_, Graph.skipTrivial_skipTrivial hg⟩
  obtain ⟨hclosed, hs, hexceptions, hdone⟩ := optimise_spec hreg hg hroots
  have hskip : ∀ r ∈ u.optimise.roots, u.optimise.graph.skipTrivial u.isa r = r := fun r hr => by
    rw [hs.skipTrivial]
    exact (hdone r hr).2.1
  have hrun : u.optimise.exceptions.handlers.foldl (fun g h => (g.optimise u.isa h).1)
      u.optimise.graph = u.optimise.graph :=
    Graph.foldl_optimise_of_reduced hreg hclosed fun r hr =>
      have hr := List.mem_cons_of_mem u.optimise.entry hr
      ⟨(hdone r hr).1, hskip r hr, (hdone r hr).2.2⟩
  have hentry : u.optimise.entry ∈ u.optimise.roots := List.mem_cons_self
  have hlast : u.optimise.graph.optimise u.isa u.optimise.entry =
      (u.optimise.graph, u.optimise.entry) :=
    Graph.optimise_of_reduced hreg hclosed (hdone _ hentry).1 (hskip _ hentry) (hdone _ hentry).2.2
  have hregions : u.optimise.exceptions.remapHandlers (u.optimise.graph.skipTrivial u.isa) =
      u.optimise.exceptions := by
    rw [hexceptions, funext hs.skipTrivial]
    simp only [RegionTable.remapHandlers, List.map_map, Function.comp_def,
      Graph.skipTrivial_skipTrivial hg]
  have hisa' : u.optimise.isa = u.isa := rfl
  rw [optimise, hisa', hrun, hlast]
  simp only [hregions]
  rfl

/-- A no-op in front of two jumps that lead to each other, with a handler at the second. -/
theorem optimise_optimise_cycle :
    let u : CodeUnit :=
      { isa := .python38
        graph := ⟨#[{ opcode := ⟨9⟩, successor := some 1 },
          { opcode := ⟨113⟩, operand := .jump, branch := some 2 },
          { opcode := ⟨113⟩, operand := .jump, branch := some 1 }]⟩
        entry := 0, pools := {}, header := {}
        exceptions := RegionTable.protect {} 2 [0] }
    u.isa.BuiltIn ∧ u.graph.Closed ∧ (∀ r ∈ u.roots, r < u.graph.size) ∧
      u.optimise.optimise = u.optimise := by
  intro u
  have hisa : u.isa.BuiltIn := Or.inl rfl
  have hclosed : u.graph.Closed := by decide
  have hroots : ∀ r ∈ u.roots, r < u.graph.size := by
    intro r hr
    rcases List.mem_cons.mp hr with rfl | hr
    · decide
    · obtain ⟨region, hregion, rfl⟩ := RegionTable.mem_handlers.mp hr
      rw [List.mem_singleton.mp hregion]
      decide
  exact ⟨hisa, hclosed, hroots, (optimise_optimise hisa hclosed hroots).1⟩

end CodeUnit

end Wordcode
