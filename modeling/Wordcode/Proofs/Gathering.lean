/-
# An index filled on the way

An index can be filled by the search itself. `PredecessorIndex.gather` notes the edges of
a node when it visits the node, so an edge is noted under its target before or after the
target is found, and the last edge of a node first. In the end the edges under each node
are sorted: by the place of their source in the search, a branch after a fall-through.

What is noted depends only on the nodes visited so far (`exploreInto_notes`), and no two
edges into a node have the same key, so the sorting has one outcome: the edges as
`PredecessorIndex.build` lists them (`mergeSort_edgesInto`). Both indices are therefore the
graph read backwards, which is what `Inverts` spells out.

Key definitions: `PredecessorIndex.gather`, `PredecessorIndex.Inverts`.
Key theorems: `PredecessorIndex.exploreInto_notes`, `PredecessorIndex.mergeSort_edgesInto`,
`PredecessorIndex.inverts`.
-/
import Mathlib.Data.Bool.Basic
import Mathlib.Data.Prod.Lex
import Wordcode.Proofs.BuiltIn
import Wordcode.Proofs.InOrder
import Wordcode.Proofs.Predecessors

namespace Wordcode

variable {isa : InstructionSet} {g : Graph} {roots : List NodeId}

theorem holds_foldl {σ β : Type} (P : σ → Prop) (Q : β → Prop) {f : σ → β → σ}
    (hf : ∀ s b, P (f s b) ↔ P s ∨ Q b) : ∀ (bs : List β) (s : σ),
    P (bs.foldl f s) ↔ P s ∨ ∃ b ∈ bs, Q b
  | [], s => by simp
  | b :: bs, s => by
    rw [List.foldl_cons, holds_foldl P Q hf bs, hf, List.exists_mem_cons_iff, or_assoc]

theorem holds_foldr {σ β : Type} (P : σ → Prop) (Q : β → Prop) {f : β → σ → σ}
    (hf : ∀ b s, P (f b s) ↔ P s ∨ Q b) (bs : List β) (s : σ) :
    P (bs.foldr f s) ↔ P s ∨ ∃ b ∈ bs, Q b := by
  rw [List.foldr_eq_foldl_reverse, holds_foldl P Q fun s b => hf b s]
  simp only [List.mem_reverse]

theorem exists_edge_iff {n p : NodeId} : (∃ t ∈ g.edges isa p, t.1 = n) ↔ n ∈ g.targets isa p := by
  rw [Graph.targets, List.mem_map]

namespace PredecessorIndex

/-! ### The search that fills the index -/

/-- The edges into each node that was entered, as source and edge. -/
abbrev Into := Std.HashMap NodeId (List (NodeId × Edge))

/-- Puts the edge `e` from `source` behind the edges into its target. -/
def pushEdge (source : NodeId) (into : Into) (e : NodeId × Edge) : Into :=
  into.insert e.1 (into.getD e.1 [] ++ [(source, e.2)])

/-- Enters a visited node and notes its edges, the last first. -/
def note (isa : InstructionSet) (g : Graph) (into : Into) (p : NodeId) : Into :=
  (g.edges isa p).reverse.foldl (pushEdge p) (into.insertIfNew p [])

/-- What the search has noted so far. -/
structure Notes where
  seen : Std.HashSet NodeId := ∅
  found : Array NodeId := #[]
  into : Into := ∅

/-- Visits a node. -/
def Notes.visit (isa : InstructionSet) (g : Graph) (s : Notes) (n : NodeId) : Notes :=
  ⟨s.seen.insert n, s.found.push n, note isa g s.into n⟩

/-- By the place of the source, then a fall-through before a branch. -/
def edgeKey (place : Std.HashMap NodeId Nat) (e : NodeId × Edge) : Nat ×ₗ Bool :=
  toLex (place.getD e.1 0, e.2 = .branch)

def edgeLe (place : Std.HashMap NodeId Nat) (e f : NodeId × Edge) : Bool :=
  edgeKey place e ≤ edgeKey place f

/-- The index of a graph from some roots, filled by the search and then sorted. -/
def gather (isa : InstructionSet) (g : Graph) (roots : List NodeId) : PredecessorIndex :=
  let notes := exploreInto (g.targets isa) (fun s n => s.seen.contains n) (Notes.visit isa g) g.size
    roots {}
  let place := Layout.places notes.found.toList
  { reachable := notes.found.toList
    into := notes.into.map fun _ edges => edges.mergeSort (edgeLe place) }

/-- The notes when `found` was visited. -/
def notesOf (isa : InstructionSet) (g : Graph) (found : Array NodeId) : Notes :=
  ⟨found.foldl (·.insert ·) ∅, found, found.foldl (note isa g) ∅⟩

/-- The search finds what it finds without the notes. -/
theorem exploreInto_notes : exploreInto (g.targets isa) (fun s n => s.seen.contains n)
    (Notes.visit isa g) g.size roots {} = notesOf isa g (g.reachable isa roots).toArray := by
  have hrun := exploreInto_eq (g.targets isa) (fun s n => s.seen.contains n) (Notes.visit isa g)
    (notesOf isa g) (fun found n => ?_) (fun found n => ?_) g.size roots ∅ #[] (by simp)
  · rw [Graph.reachable, explore, Array.toArray_toList, ← hrun]
    rfl
  · have hinsert : ∀ (seen : Std.HashSet NodeId) m,
        (seen.insert m).contains n = true ↔ seen.contains n = true ∨ m = n := fun seen m => by
      rw [Std.HashSet.contains_insert, Bool.or_eq_true, beq_iff_eq, or_comm]
    have hfold := holds_foldl (fun seen : Std.HashSet NodeId => seen.contains n = true) (· = n)
      hinsert found.toList ∅
    rw [notesOf, ← Array.foldl_toList, hfold]
    simp
  · rw [notesOf, notesOf, Notes.visit, Array.foldl_push, Array.foldl_push]

/-! ### What is noted under a node -/

theorem getD_pushEdge (p n : NodeId) (into : Into) (t : NodeId × Edge) :
    (pushEdge p into t).getD n [] =
      into.getD n [] ++ if t.1 = n then [(p, t.2)] else [] := by
  rw [pushEdge, Std.HashMap.getD_insert]
  by_cases h : t.1 = n
  · subst h
    simp
  · simp [h]

theorem getD_foldl_pushEdge (p n : NodeId) : ∀ (edges : List (NodeId × Edge)) (into : Into),
    (edges.foldl (pushEdge p) into).getD n [] =
      into.getD n [] ++ (edges.filter (·.1 = n)).map fun t => (p, t.2)
  | [], into => by simp
  | t :: edges, into => by
    rw [List.foldl_cons, getD_foldl_pushEdge p n edges, getD_pushEdge, List.append_assoc]
    by_cases h : t.1 = n
    · simp [h]
    · simp [h]

theorem getD_insertIfNew_nil (p n : NodeId) (into : Into) :
    (into.insertIfNew p []).getD n [] = into.getD n [] := by
  rw [Std.HashMap.getD_insertIfNew]
  split
  case isTrue h =>
    obtain ⟨hp, hnew⟩ := h
    rw [← eq_of_beq hp, Std.HashMap.getD_eq_fallback hnew]
  case isFalse => rfl

theorem getD_note (n p : NodeId) (into : Into) :
    (note isa g into p).getD n [] = into.getD n [] ++ (g.edgesInto isa n p).reverse := by
  rw [note, getD_foldl_pushEdge, getD_insertIfNew_nil, Graph.edgesInto, List.filter_reverse,
    List.map_reverse]

theorem getD_foldl_note (n : NodeId) : ∀ (sources : List NodeId) (into : Into),
    (sources.foldl (note isa g) into).getD n [] =
      into.getD n [] ++ sources.flatMap fun p => (g.edgesInto isa n p).reverse
  | [], into => by simp
  | p :: sources, into => by
    rw [List.foldl_cons, getD_foldl_note n sources, getD_note, List.append_assoc, List.flatMap_cons]

/-! ### Which nodes are entered -/

section Contains

variable (n p : NodeId) (into : Into)

theorem contains_pushEdge (t : NodeId × Edge) : (pushEdge p into t).contains n = true ↔
    into.contains n = true ∨ t.1 = n := by
  rw [pushEdge, Std.HashMap.contains_insert, Bool.or_eq_true, beq_iff_eq, or_comm]

theorem contains_addEdge (t : NodeId × Edge) : (addEdge p t into).contains n = true ↔
    into.contains n = true ∨ t.1 = n := by
  rw [addEdge, Std.HashMap.contains_insert, Bool.or_eq_true, beq_iff_eq, or_comm]

theorem contains_note : (note isa g into p).contains n = true ↔
    into.contains n = true ∨ n = p ∨ n ∈ g.targets isa p := by
  have hfold := holds_foldl (·.contains n = true) (·.1 = n) (contains_pushEdge n p)
    (g.edges isa p).reverse (into.insertIfNew p [])
  simp only [List.mem_reverse, exists_edge_iff] at hfold
  rw [note, hfold, Std.HashMap.contains_insertIfNew, Bool.or_eq_true, beq_iff_eq, eq_comm (a := p)]
  tauto

theorem contains_foldl_note (sources : List NodeId) :
    (sources.foldl (note isa g) into).contains n = true ↔
      into.contains n = true ∨ ∃ p ∈ sources, n = p ∨ n ∈ g.targets isa p :=
  holds_foldl (·.contains n = true) (fun p => n = p ∨ n ∈ g.targets isa p)
    (fun into p => contains_note n p into) sources into

theorem contains_foldr_addEdge : ((g.edges isa p).foldr (addEdge p) into).contains n = true ↔
    into.contains n = true ∨ n ∈ g.targets isa p := by
  rw [← exists_edge_iff]
  exact holds_foldr (·.contains n = true) (·.1 = n)
    (fun t into => contains_addEdge n p into t) (g.edges isa p) into

end Contains

theorem contains_build (n : NodeId) : (build isa g roots).contains n = true ↔
    ∃ p ∈ g.reachable isa roots, n = p ∨ n ∈ g.targets isa p := by
  have henter : ∀ m (into : Into),
      (into.insert m []).contains n = true ↔ into.contains n = true ∨ n = m := fun m into => by
    rw [Std.HashMap.contains_insert, Bool.or_eq_true, beq_iff_eq, or_comm, eq_comm (a := m)]
  have hentered := holds_foldr (fun into : Into => into.contains n = true) (n = ·) henter
    (g.reachable isa roots) ∅
  have hnoted := holds_foldr (·.contains n = true) (n ∈ g.targets isa ·)
    (fun p into => contains_foldr_addEdge n p into) (g.reachable isa roots)
    ((g.reachable isa roots).foldr (fun m into => into.insert m []) ∅)
  rw [contains, build, hnoted, hentered]
  simp only [Std.HashMap.contains_empty, Bool.false_eq_true, false_or, and_or_left, exists_or]

/-! ### Sorting the notes -/

theorem pairwise_edges (n : NodeId) :
    (g.edges isa n).Pairwise fun s t => s.2 = .fallthrough ∧ t.2 = .branch := by
  rw [Graph.edges]
  cases g.fallthrough? isa n <;> cases g.branch? isa n <;> simp

variable {nodes : List NodeId}

theorem pairwise_places (hnd : nodes.Nodup) : nodes.Pairwise fun p q =>
    (Layout.places nodes).getD p 0 < (Layout.places nodes).getD q 0 := by
  refine List.pairwise_iff_getElem.mpr fun i j hi hj hij => ?_
  rw [Layout.getD_places hnd (List.getElem?_eq_getElem hi),
    Layout.getD_places hnd (List.getElem?_eq_getElem hj)]
  exact hij

theorem pairwise_edgesInto (hnd : nodes.Nodup) (n : NodeId) :
    (nodes.flatMap (g.edgesInto isa n)).Pairwise fun s t =>
      edgeKey (Layout.places nodes) s < edgeKey (Layout.places nodes) t := by
  refine List.pairwise_flatMap.mpr
    ⟨fun p _ => ?_, (pairwise_places hnd).imp fun hlt s hs t ht => ?_⟩
  · rw [Graph.edgesInto, List.pairwise_map]
    refine (List.Pairwise.filter _ (pairwise_edges p)).imp fun {s t} hst => ?_
    simp [edgeKey, Prod.Lex.toLex_lt_toLex, hst.1, hst.2]
  · obtain ⟨hs, -⟩ := mem_edgesInto.mp hs
    obtain ⟨ht, -⟩ := mem_edgesInto.mp ht
    rw [edgeKey, edgeKey, hs, ht, Prod.Lex.toLex_lt_toLex]
    exact Or.inl hlt

/-- **The sorting undoes the order of the notes.** -/
theorem mergeSort_edgesInto (hnd : nodes.Nodup) (n : NodeId) :
    (nodes.flatMap fun p => (g.edgesInto isa n p).reverse).mergeSort
      (edgeLe (Layout.places nodes)) = nodes.flatMap (g.edgesInto isa n) := by
  have hsorted := @pairwise_edgesInto isa g nodes hnd n
  have hperm : (nodes.flatMap fun p => (g.edgesInto isa n p).reverse).Perm
      (nodes.flatMap (g.edgesInto isa n)) :=
    List.Perm.flatMap_left _ fun p _ => List.reverse_perm _
  refine Layout.mergeSort_of_perm ?_ ?_ hperm (hsorted.imp fun hlt => ?_)
  · simp only [edgeLe, decide_eq_true_eq]
    exact fun a b c => le_trans
  · simp only [edgeLe, Bool.or_eq_true, decide_eq_true_eq]
    exact fun a b => le_total _ _
  · rw [edgeLe, decide_eq_false_iff_not, not_le]
    exact hlt

/-! ### The two fillings -/

theorem gather_eq : gather isa g roots =
    { reachable := g.reachable isa roots
      into := ((g.reachable isa roots).foldl (note isa g) ∅).map fun _ edges =>
        edges.mergeSort (edgeLe (Layout.places (g.reachable isa roots))) } := by
  simp only [gather, exploreInto_notes, notesOf, ← Array.foldl_toList]

theorem contains_gather (n : NodeId) : (gather isa g roots).contains n = true ↔
    ∃ p ∈ g.reachable isa roots, n = p ∨ n ∈ g.targets isa p := by
  rw [contains, gather_eq, Std.HashMap.contains_map, contains_foldl_note]
  simp

/-- Filled by the search and sorted, or filled backwards when the search is over: the same
edges stand under each node, in the same order. -/
theorem predecessors_gather (hg : g.Closed) (hroots : ∀ r ∈ roots, r < g.size) (n : NodeId) :
    (gather isa g roots).predecessors n = (build isa g roots).predecessors n := by
  have hnodup : (g.reachable isa roots).Nodup := Graph.nodup_reachable hg hroots
  have hsort := @mergeSort_edgesInto isa g _ hnodup n
  have hnoted := @getD_foldl_note isa g n (g.reachable isa roots) ∅
  rw [Std.HashMap.getD_empty, List.nil_append] at hnoted
  rw [predecessors_build, ← hsort, ← hnoted, predecessors, gather_eq, Std.HashMap.getD_map,
    Std.HashMap.getD_eq_getD_getElem?]
  cases ((g.reachable isa roots).foldl (note isa g) ∅)[n]? with
  | none => simp
  | some edges => rfl

/-! ### The graph read backwards -/

/-- The index is what execution can get to from `roots`, read backwards. -/
structure Inverts (isa : InstructionSet) (g : Graph) (roots : List NodeId)
    (index : PredecessorIndex) : Prop where
  mem_reachable : ∀ n, n ∈ index.reachable ↔ g.Live isa roots n
  nodup_reachable : index.reachable.Nodup
  /-- The nodes stand in the order of the depth-first search, which ends by itself. -/
  explores : ∃ steps, Explores id (g.targets isa) steps roots ∅ #[] index.reachable.toArray
  /-- Where no node lacks an edge, this is also the order before the layout. -/
  reachable_eq : ∀ found, g.reachable? isa roots = .ok found → index.reachable = found
  mem_predecessors : ∀ n p e, (p, e) ∈ index.predecessors n ↔
    g.Live isa roots p ∧ (n, e) ∈ g.edges isa p
  nodup_predecessors : ∀ n, (index.predecessors n).Nodup
  contains_iff : ∀ n, index.contains n = true ↔ g.Live isa roots n
  predecessors_eq_nil : ∀ n, ¬ g.Live isa roots n → index.predecessors n = []

/-- An index that lists what the search visits, in its order, and under each node the edges of
these nodes that lead to it, is the graph read backwards. -/
theorem inverts_of_lists (hg : g.Closed) (hroots : ∀ r ∈ roots, r < g.size)
    {index : PredecessorIndex} (hreachable : index.reachable = g.reachable isa roots)
    (hinto : ∀ n, index.predecessors n = (g.reachable isa roots).flatMap (g.edgesInto isa n))
    (hcontains : ∀ n, index.contains n = true ↔
      ∃ p ∈ g.reachable isa roots, n = p ∨ n ∈ g.targets isa p) : Inverts isa g roots index := by
  have hnodup : (g.reachable isa roots).Nodup := Graph.nodup_reachable hg hroots
  have hlive : ∀ n, n ∈ g.reachable isa roots ↔ g.Live isa roots n := fun n =>
    Graph.mem_reachable hg hroots
  have hmem : ∀ n p e, (p, e) ∈ index.predecessors n ↔
      g.Live isa roots p ∧ (n, e) ∈ g.edges isa p := fun n p e => by
    rw [hinto, ← predecessors_build, mem_predecessors_build hg hroots]
  have hnil : ∀ n, ¬ g.Live isa roots n → index.predecessors n = [] := by
    intro n hn
    refine List.eq_nil_iff_forall_not_mem.mpr fun t ht => hn ?_
    obtain ⟨p, e⟩ := t
    obtain ⟨hp, hedge⟩ := (hmem n p e).mp ht
    exact hp.step (Graph.mem_targets_iff.mpr ⟨e, hedge⟩)
  refine ⟨fun n => hreachable ▸ hlive n, hreachable ▸ hnodup, ?_, fun found hfound => ?_, hmem,
    fun n => ?_, fun n => ?_, hnil⟩
  · rw [hreachable]
    exact explores_below hroots fun _ _ => hg.lt_of_mem_targets
  · rw [hreachable, ((Graph.reachable?_eq_ok_iff hg hroots).mp hfound).1]
  · rw [hinto]
    exact (pairwise_edgesInto hnodup n).imp fun hlt heq => (heq ▸ hlt).false
  · rw [hcontains]
    constructor
    · rintro ⟨p, hp, rfl | hn⟩
      · exact (hlive _).mp hp
      · exact ((hlive p).mp hp).step hn
    · exact fun hn => ⟨n, (hlive n).mpr hn, Or.inl rfl⟩

/-- **The predecessor index is the exact inverse of the graph**, filled when the search is over
or by the search itself: it lists what can be reached, once and in the order of the search,
and under each such node every edge of them that leads to it, once; under other nodes there is
nothing, and it does not contain them. -/
theorem inverts (hg : g.Closed) (hroots : ∀ r ∈ roots, r < g.size) :
    Inverts isa g roots (build isa g roots) ∧ Inverts isa g roots (gather isa g roots) ∧
      ∀ n, (gather isa g roots).predecessors n = (build isa g roots).predecessors n := by
  have hsame := @predecessors_gather isa g roots hg hroots
  refine ⟨inverts_of_lists hg hroots rfl predecessors_build contains_build, ?_, hsame⟩
  refine inverts_of_lists hg hroots (by rw [gather_eq]) (fun n => ?_) contains_gather
  rw [hsame, predecessors_build]

/-- A conditional jump whose edges both lead to a jump to itself. The successor that this
jump stores does not count, so the last node is not found, and its edge back to the first one
is not listed. -/
theorem inverts_coinciding :
    let g : Graph := ⟨#[
      { opcode := ⟨114⟩, operand := .jump, successor := some 1, branch := some 1 },
      { opcode := ⟨113⟩, operand := .jump, successor := some 2, branch := some 1 },
      { opcode := ⟨9⟩, successor := some 0 }]⟩
    let index := gather .python38 g [0, 1, 0]
    (g.Closed ∧ ∀ r ∈ [0, 1, 0], r < g.size) ∧
      ((0, Edge.fallthrough) ∈ index.predecessors 1 ∧ (0, Edge.branch) ∈ index.predecessors 1 ∧
        (1, Edge.branch) ∈ index.predecessors 1) ∧
      index.contains 2 = false ∧ index.predecessors 0 = [] := by
  intro g index
  have hclosed : g.Closed := by decide
  have hroots : ∀ r ∈ [0, 1, 0], r < g.size := by decide
  have hedges : g.edges .python38 0 = [(1, .fallthrough), (1, .branch)] ∧
      g.edges .python38 1 = [(1, .branch)] := by
    simp only [Graph.edges, Graph.fallthrough?, Graph.branch?, Node.fallsThrough, Node.isJump,
      Node.flags, InstructionSet.flags, InstructionSet.info_python38]
    decide +kernel
  obtain ⟨hfirst, hself⟩ := hedges
  obtain ⟨-, h, -⟩ := @inverts .python38 g [0, 1, 0] hclosed hroots
  have hzero : g.Live .python38 [0, 1, 0] 0 := .root List.mem_cons_self
  have hone : g.Live .python38 [0, 1, 0] 1 := .root (by decide)
  have hlive : ∀ n, g.Live .python38 [0, 1, 0] n → n = 0 ∨ n = 1 := fun n hn => by
    refine Reach.induct (Q := fun n => n = 0 ∨ n = 1) (by decide) (fun a b ha hb => ?_) hn
    rcases ha with rfl | rfl
    · exact Or.inr (by simpa [Graph.targets, hfirst] using hb)
    · exact Or.inr (by simpa [Graph.targets, hself] using hb)
  refine ⟨⟨hclosed, hroots⟩, ⟨?_, ?_, ?_⟩, ?_, ?_⟩
  · exact (h.mem_predecessors ..).mpr ⟨hzero, by simp [hfirst]⟩
  · exact (h.mem_predecessors ..).mpr ⟨hzero, by simp [hfirst]⟩
  · exact (h.mem_predecessors ..).mpr ⟨hone, by simp [hself]⟩
  · refine Bool.eq_false_iff.mpr fun hc => ?_
    exact absurd (hlive 2 ((h.contains_iff 2).mp hc)) (by decide)
  · refine List.eq_nil_iff_forall_not_mem.mpr fun t ht => ?_
    obtain ⟨p, e⟩ := t
    obtain ⟨hp, hedge⟩ := (h.mem_predecessors ..).mp ht
    rcases hlive p hp with rfl | rfl
    · simp [hfirst] at hedge
    · simp [hself] at hedge

end PredecessorIndex

end Wordcode
