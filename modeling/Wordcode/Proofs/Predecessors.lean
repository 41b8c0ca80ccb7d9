/-
# What a predecessor index lists

The index is filled edge by edge from the last reachable node to the first, each edge
put before those that are there. So under a node stand the edges into it of every
reachable node, in the order in which the nodes were found, and nothing else.

Key definitions: `Graph.edgesInto`.
Key theorems: `PredecessorIndex.predecessors_build`,
`PredecessorIndex.mem_predecessors_build`.
-/
import Std.Data.HashMap.Lemmas
import Wordcode.Graph.Predecessors
import Wordcode.Proofs.Reachability

namespace Wordcode

variable {isa : InstructionSet} {g : Graph} {roots : List NodeId}

/-- The edges of `p` that lead to `n`, as source and edge. -/
def Graph.edgesInto (isa : InstructionSet) (g : Graph) (n p : NodeId) : List (NodeId × Edge) :=
  ((g.edges isa p).filter (·.1 = n)).map fun t => (p, t.2)

namespace PredecessorIndex

theorem getD_addEdge (p n : NodeId) (t : NodeId × Edge)
    (into : Std.HashMap NodeId (List (NodeId × Edge))) :
    (addEdge p t into).getD n [] =
      if t.1 = n then (p, t.2) :: into.getD n [] else into.getD n [] := by
  rw [addEdge, Std.HashMap.getD_insert]
  by_cases h : t.1 = n
  · subst h
    simp
  · simp [h]

theorem getD_foldr_addEdge (p n : NodeId) (into : Std.HashMap NodeId (List (NodeId × Edge))) :
    ∀ edges : List (NodeId × Edge), (edges.foldr (addEdge p) into).getD n [] =
      ((edges.filter (·.1 = n)).map fun t => (p, t.2)) ++ into.getD n []
  | [] => rfl
  | t :: edges => by
    have ih := getD_foldr_addEdge p n into edges
    rw [List.foldr_cons, getD_addEdge, ih]
    by_cases h : t.1 = n
    · simp [h]
    · simp [h]

theorem getD_foldr_edges (n : NodeId) (into : Std.HashMap NodeId (List (NodeId × Edge))) :
    ∀ sources : List NodeId,
      (sources.foldr (fun p into => (g.edges isa p).foldr (addEdge p) into) into).getD n [] =
        sources.flatMap (g.edgesInto isa n) ++ into.getD n []
  | [] => rfl
  | p :: sources => by
    have ih := getD_foldr_edges n into sources
    rw [List.foldr_cons, getD_foldr_addEdge, ih, List.flatMap_cons, List.append_assoc]
    rfl

theorem getD_foldr_insert_nil (n : NodeId) : ∀ nodes : List NodeId,
    (nodes.foldr (fun m into => into.insert m []) (∅ : Std.HashMap NodeId (List (NodeId × Edge)))).getD
      n [] = []
  | [] => Std.HashMap.getD_empty
  | m :: nodes => by
    rw [List.foldr_cons, Std.HashMap.getD_insert, getD_foldr_insert_nil n nodes, ite_self]

/-- **The index is the graph read backwards**: the edges of the reachable nodes that lead
to `n`, node by node in the order of the search. -/
theorem predecessors_build (n : NodeId) : (build isa g roots).predecessors n =
    (g.reachable isa roots).flatMap (g.edgesInto isa n) := by
  rw [predecessors, build, getD_foldr_edges, getD_foldr_insert_nil, List.append_nil]

theorem mem_edgesInto {n p q : NodeId} {e : Edge} :
    (q, e) ∈ g.edgesInto isa n p ↔ q = p ∧ (n, e) ∈ g.edges isa p := by
  simp only [Graph.edgesInto, List.mem_map, List.mem_filter, decide_eq_true_eq, Prod.mk.injEq]
  constructor
  · rintro ⟨⟨m, e'⟩, ⟨hmem, rfl⟩, rfl, rfl⟩
    exact ⟨rfl, hmem⟩
  · rintro ⟨rfl, hmem⟩
    exact ⟨(n, e), ⟨hmem, rfl⟩, rfl, rfl⟩

/-- What the index has as an edge into `n` is an edge of a node that execution can get
to. -/
theorem mem_predecessors_build (hg : g.Closed) (hroots : ∀ r ∈ roots, r < g.size) {n p : NodeId}
    {e : Edge} : (p, e) ∈ (build isa g roots).predecessors n ↔
      g.Live isa roots p ∧ (n, e) ∈ g.edges isa p := by
  rw [predecessors_build, List.mem_flatMap]
  simp only [mem_edgesInto, Graph.mem_reachable hg hroots]
  constructor
  · rintro ⟨_, hp, rfl, hedge⟩
    exact ⟨hp, hedge⟩
  · rintro ⟨hp, hedge⟩
    exact ⟨p, hp, rfl, hedge⟩

end PredecessorIndex

end Wordcode
