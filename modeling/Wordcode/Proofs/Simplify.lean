/-
# What optimising does

Optimising leads each edge of the code past the trivial instructions behind it, as
the graph was before (`Graph.Optimised`). The edges are led anew while the walk
still skips through the same graph, but all visited nodes are ones at which
skipping stays: a trivial one among them keeps its edge, so skipping is the same
throughout the walk (`Graph.SameSkips`). Hence the walk is a search along the edges
that are led anew, and each node found gets them.

A path of the old code and one of the new code that do the same differ in steps of
trivial instructions alone. Forwards, a step from a node that is passed over is
left out; backwards, each edge is followed by the steps that it skips.

Key definitions: `Graph.Path`, `Graph.effective`, `Graph.Optimised`.
Key theorems: `Graph.SameSkips.skipTrivial`, `Graph.node_optimise`,
`Graph.Path.forward`, `Graph.Path.backward`, `Graph.optimised_optimise`.
-/
import Wordcode.Proofs.SameCode
import Wordcode.Proofs.SkipTrivial

namespace Wordcode

namespace Graph

open Function

/-! ### Paths and what they do -/

section Path

/-- The steps of a path, each the node it is taken from and the edge. -/
inductive Path (isa : InstructionSet) (g : Graph) : Nat → List (Nat × Edge) → Nat → Prop
  | stay (n : Nat) : Path isa g n [] n
  | step {n m k : Nat} {e : Edge} {steps : List (Nat × Edge)} :
    (m, e) ∈ g.edges isa n → Path isa g m steps k → Path isa g n ((n, e) :: steps) k

/-- The steps that are not taken by trivial instructions. -/
def effective (isa : InstructionSet) (g : Graph) (steps : List (Nat × Edge)) : List (Nat × Edge) :=
  steps.filter fun p => ¬ g.Trivial isa p.1

variable {isa : InstructionSet} {g : Graph} {n m k : Nat} {steps steps' : List (Nat × Edge)}

theorem Path.trans (h : g.Path isa n steps m) (h' : g.Path isa m steps' k) :
    g.Path isa n (steps ++ steps') k := by
  induction h with
  | stay n => exact h'
  | step he _ ih => exact .step he (ih h')

theorem Path.lt (hg : g.Closed) (hn : n < g.size) (h : g.Path isa n steps k) : k < g.size := by
  induction h with
  | stay n => exact hn
  | step he _ ih => exact ih (hg.lt_of_mem_targets (List.mem_map_of_mem he))

theorem live_iff_path : g.Live isa [n] k ↔ ∃ steps, g.Path isa n steps k := by
  constructor
  · intro h
    refine Reach.induct (Q := fun k => ∃ steps, g.Path isa n steps k) (fun r hr => ?_)
      (fun a b ha hb => ?_) h
    · rw [List.mem_singleton] at hr
      exact ⟨[], hr ▸ .stay r⟩
    · obtain ⟨steps, hsteps⟩ := ha
      obtain ⟨⟨b', e⟩, he, rfl⟩ := List.mem_map.mp hb
      exact ⟨steps ++ [(a, e)], hsteps.trans (.step he (.stay _))⟩
  · rintro ⟨steps, h⟩
    suffices ∀ r, g.Live isa [r] n → g.Live isa [r] k from this n (Reach.root List.mem_cons_self)
    intro r
    induction h with
    | stay n => exact id
    | step he _ ih => exact fun hn => ih (hn.step (List.mem_map_of_mem he))

theorem effective_append : g.effective isa (steps ++ steps') =
    g.effective isa steps ++ g.effective isa steps' := List.filter_append ..

theorem effective_cons {p : Nat × Edge} : g.effective isa (p :: steps) =
    if g.Trivial isa p.1 then g.effective isa steps else p :: g.effective isa steps := by
  by_cases h : g.Trivial isa p.1 <;> simp [effective, h]

end Path

/-- `g'` is `g` with the edges of the code from `first` led past trivial instructions,
where `first` is what comes after those at `entry`. -/
structure Optimised (isa : InstructionSet) (g g' : Graph) (entry first : Nat) : Prop where
  first_eq : first = g.skipTrivial isa entry
  /-- Every edge leads past the trivial instructions at the target that it had. -/
  edges : ∀ n, g'.Live isa [first] n →
    g'.edges isa n = (g.edges isa n).map fun p => (g.skipTrivial isa p.1, p.2)
  frame : ∀ n, ¬ g'.Live isa [first] n → g'.node n = g.node n
  body : ∀ n, (g'.node n).body = (g.node n).body
  /-- Execution can get to the same instructions, but for trivial ones. -/
  live_iff : ∀ n, ¬ g.Trivial isa n → (g'.Live isa [first] n ↔ g.Live isa [entry] n)
  /-- On the way to an instruction that is not trivial, or to where trivial ones stop or
  turn in a circle, the same is done. -/
  paths : ∀ k, ¬ g.Trivial isa k ∨ g.skipTrivial isa k = k → ∀ doing,
    (∃ steps, g'.Path isa first steps k ∧ g'.effective isa steps = doing) ↔
      ∃ steps, g.Path isa entry steps k ∧ g.effective isa steps = doing
  /-- The trivial instructions that are left lead nowhere or turn in a circle. -/
  trivial : ∀ n, g'.Live isa [first] n → g'.Trivial isa n → g'.edges isa n = [] ∨
    Relation.TransGen (fun a b => g'.Trivial isa a ∧ b ∈ g'.targets isa a) n n

/-! ### Skipping while edges are led anew -/

section SameSkips

/-- Trivial instructions lead to the same nodes in both graphs. -/
structure SameSkips (isa : InstructionSet) (g h : Graph) : Prop where
  size_eq : h.size = g.size
  next_eq : ∀ n, h.trivialNext? isa n = g.trivialNext? isa n

variable {isa : InstructionSet} {g h : Graph} {n m : Nat}

theorem SameSkips.skipFrom (hs : SameSkips isa g h) : ∀ (room : Nat)
    (passed : Std.HashSet NodeId) (n : Nat),
    h.skipFrom isa room passed n = g.skipFrom isa room passed n
  | 0, _, _ => rfl
  | room + 1, passed, n => by
    simp only [Graph.skipFrom, hs.next_eq, hs.skipFrom room]

theorem SameSkips.skipTrivial (hs : SameSkips isa g h) (n : Nat) :
    h.skipTrivial isa n = g.skipTrivial isa n := by
  rw [Graph.skipTrivial, Graph.skipTrivial, hs.size_eq, hs.skipFrom]

theorem trivialNext?_congr (heq : h.node n = g.node n) :
    h.trivialNext? isa n = g.trivialNext? isa n := by
  simp only [trivialNext?, heq]

theorem edges_congr (heq : h.node n = g.node n) : h.edges isa n = g.edges isa n := by
  simp only [edges, fallthrough?, branch?, heq]

theorem trivial_congr (heq : (h.node n).body = (g.node n).body) :
    h.Trivial isa n ↔ g.Trivial isa n := by
  rw [Trivial, Trivial, Node.flags_of_body isa heq]

theorem withEdge_of_mem {e : Edge} (he : (m, e) ∈ g.edges isa n) :
    (g.node n).withEdge e (some m) = g.node n := by
  rw [mem_edges] at he
  cases e with
  | fallthrough =>
    obtain ⟨-, hs⟩ := fallthrough?_eq_some.mp he
    rw [Node.withEdge, ← hs]
  | branch =>
    obtain ⟨-, hb⟩ := branch?_eq_some.mp he
    rw [Node.withEdge, ← hb]

end SameSkips

/-! ### The node that is led anew -/

section Led

variable (isa : InstructionSet) (g : Graph)

/-- The node with some of its edges led past trivial instructions. -/
def ledAlong (node : Node) (edges : List (Nat × Edge)) : Node :=
  edges.foldl (fun node p => node.withEdge p.2 (some (g.skipTrivial isa p.1))) node

/-- The node with every edge that counts led past trivial instructions. -/
def led (n : Nat) : Node := g.ledAlong isa (g.node n) (g.edges isa n)

/-- Where these edges lead then, the last one first. -/
def ledTargets (n : Nat) : List Nat := ((g.edges isa n).map fun p => g.skipTrivial isa p.1).reverse

variable {isa g} {g' h : Graph} {n m : Nat}

theorem body_ledAlong : ∀ (node : Node) (edges : List (Nat × Edge)),
    (g.ledAlong isa node edges).body = node.body
  | _, [] => rfl
  | node, p :: edges => by
    have ih := body_ledAlong (node.withEdge p.2 (some (g.skipTrivial isa p.1))) edges
    rw [Node.body_withEdge] at ih
    exact ih

theorem edges_of_led (h : g'.node n = g.led isa n) :
    g'.edges isa n = (g.edges isa n).map fun p => (g.skipTrivial isa p.1, p.2) := by
  have hbody : (g'.node n).body = (g.node n).body := h ▸ body_ledAlong ..
  have hfalls : (g'.node n).fallsThrough isa = (g.node n).fallsThrough isa := by
    rw [Node.fallsThrough, Node.flags_of_body isa hbody, Node.fallsThrough]
  have hjump : (g'.node n).isJump isa = (g.node n).isJump isa := by
    rw [Node.isJump, Node.flags_of_body isa hbody, Node.isJump]
  rw [led, edges] at h
  have hf : g'.fallthrough? isa n = (g.fallthrough? isa n).map (g.skipTrivial isa) := by
    rw [fallthrough?, hfalls, h]
    cases hs : g.fallthrough? isa n <;> cases hb : g.branch? isa n <;>
      simp_all [fallthrough?, ledAlong, Node.withEdge]
  have hb : g'.branch? isa n = (g.branch? isa n).map (g.skipTrivial isa) := by
    rw [branch?, hjump, h]
    cases hs : g.fallthrough? isa n <;> cases hb : g.branch? isa n <;>
      simp_all [branch?, ledAlong, Node.withEdge]
  rw [edges, edges, hf, hb, List.map_append]
  cases g.fallthrough? isa n <;> cases g.branch? isa n <;> rfl

end Led

/-! ### The walk -/

section Walk

variable {isa : InstructionSet} {g h : Graph} {n m : Nat}

/-- Skipping stays the same when an edge of a node is led anew, if the node is not trivial
or the edge led there before. -/
theorem SameSkips.redirect (hs : SameSkips isa g h) (e : Edge)
    (hflags : (h.node n).flags isa = (g.node n).flags isa)
    (hsame : g.Trivial isa n → (h.node n).withEdge e (some m) = h.node n) :
    SameSkips isa g (h.redirect n e (some m)) where
  size_eq := by rw [size_redirect, hs.size_eq]
  next_eq := fun k => by
    by_cases hk : n = k ∧ k < h.size
    · have hnode := node_redirect h n k e (some m)
      rw [if_pos hk] at hnode
      obtain ⟨rfl, -⟩ := hk
      by_cases htriv : g.Trivial isa n
      · rw [hsame htriv] at hnode
        rw [trivialNext?_congr hnode, hs.next_eq]
      · have htriv' : ¬ (h.redirect n e (some m)).Trivial isa n := by
          rw [Trivial, hnode, Node.flags_withEdge, hflags]
          exact htriv
        rw [trivialNext?_of_not_trivial htriv', trivialNext?_of_not_trivial htriv]
    · have hnode := node_redirect h n k e (some m)
      rw [if_neg hk] at hnode
      rw [trivialNext?_congr hnode, hs.next_eq]

/-- Edges led anew one after the other, with the same skipping throughout. -/
theorem foldl_skipEdge (hn : n < g.size) : ∀ (edges : List (Nat × Edge)) (h : Graph)
    (work : List Nat), SameSkips isa g h → (h.node n).flags isa = (g.node n).flags isa →
    (g.Trivial isa n → ∀ p ∈ edges,
      (h.node n).withEdge p.2 (some (g.skipTrivial isa p.1)) = h.node n) →
    ∃ h', edges.foldl (skipEdge isa n) (h, work) =
        (h', (edges.map fun p => g.skipTrivial isa p.1).reverse ++ work) ∧
      SameSkips isa g h' ∧
      ∀ k, h'.node k = if k = n then g.ledAlong isa (h.node n) edges else h.node k
  | [], h, work, hs, _, _ => ⟨h, rfl, hs, fun k => by
      split
      · rename_i hk
        rw [hk]
        rfl
      · rfl⟩
  | p :: edges, h, work, hs, hflags, hsame => by
    have hnode : ∀ k, (h.redirect n p.2 (some (g.skipTrivial isa p.1))).node k =
        if k = n then (h.node n).withEdge p.2 (some (g.skipTrivial isa p.1)) else h.node k := by
      intro k
      rw [node_redirect, hs.size_eq]
      by_cases hk : k = n
      · subst hk
        simp [hn]
      · simp [hk, Ne.symm hk]
    have hat := hnode n
    rw [if_pos rfl] at hat
    obtain ⟨h', heq, hs', hrest⟩ := foldl_skipEdge hn edges
      (h.redirect n p.2 (some (g.skipTrivial isa p.1))) (g.skipTrivial isa p.1 :: work)
      (hs.redirect p.2 hflags fun ht => hsame ht p List.mem_cons_self)
      (by rw [hat, Node.flags_withEdge, hflags])
      (fun ht q hq => by
        rw [hat, hsame ht p List.mem_cons_self]
        exact hsame ht q (List.mem_cons_of_mem _ hq))
    refine ⟨h', ?_, hs', fun k => ?_⟩
    · rw [List.foldl_cons, skipEdge, hs.skipTrivial, heq, List.map_cons, List.reverse_cons,
        List.append_assoc, List.singleton_append]
    · rw [hrest k, hat]
      split
      · rfl
      · rename_i hk
        rw [hnode k, if_neg hk]

/-- The step of the walk: a settled node that was not visited gets its edges led anew. -/
theorem skipEdges_spec (hisa : isa.Regular) (hg : g.Closed) (hn : n < g.size)
    (hsettled : g.Settled isa n) (hs : SameSkips isa g h) (hnode : h.node n = g.node n)
    (work : List Nat) : ∃ h', h.skipEdges isa n work = (h', g.ledTargets isa n ++ work) ∧
      SameSkips isa g h' ∧ ∀ k, h'.node k = if k = n then g.led isa n else h.node k := by
  rw [skipEdges, edges_congr hnode, led, ← hnode]
  refine foldl_skipEdge hn _ h work hs (by rw [hnode]) fun ht p hp => ?_
  -- a trivial node that is visited leads to one at which skipping stays too
  rcases edges_of_trivial hisa ht with ⟨m, e, hnext, hedges⟩ | ⟨-, hedges⟩
  · have hm : g.onward isa n = m := onward_of_some hnext
    have hskip : g.skipTrivial isa m = m :=
      skipTrivial_of_settled hg (hm ▸ hg.onward_lt hn) (hm ▸ hsettled.onward)
    obtain rfl : p = (m, e) := by simpa [hedges] using hp
    rw [hskip, hnode]
    exact withEdge_of_mem hp
  · rw [hedges] at hp
    cases hp

theorem optimiseFrom_nil (room : Nat) (seen : Std.HashSet NodeId) (h : Graph) :
    optimiseFrom isa room [] seen h = h := by
  cases room <;> rfl

theorem optimiseFrom_cons_seen (room : Nat) (work : List NodeId) {seen : Std.HashSet NodeId}
    (h : Graph) (hseen : seen.contains n = true) :
    optimiseFrom isa room (n :: work) seen h = optimiseFrom isa room work seen h := by
  cases room with
  | zero => rfl
  | succ room => simp only [optimiseFrom, List.dropWhile_cons, hseen, if_true]

theorem optimiseFrom_cons_new (room : Nat) (work : List NodeId) {seen : Std.HashSet NodeId}
    (h : Graph) (hseen : seen.contains n = false) :
    optimiseFrom isa (room + 1) (n :: work) seen h =
      optimiseFrom isa room (h.skipEdges isa n work).2 (seen.insert n)
        (h.skipEdges isa n work).1 := by
  simp only [optimiseFrom, List.dropWhile_cons, hseen, Bool.false_eq_true, if_false]

theorem mem_ledTargets : m ∈ g.ledTargets isa n ↔
    ∃ t ∈ g.targets isa n, g.skipTrivial isa t = m := by
  rw [ledTargets, List.mem_reverse, targets]
  simp

theorem Closed.ledTargets_lt (hg : g.Closed) : ∀ m ∈ g.ledTargets isa n, m < g.size := by
  intro m hm
  obtain ⟨t, ht, rfl⟩ := mem_ledTargets.mp hm
  exact skipTrivial_lt hg (hg.lt_of_mem_targets ht)

theorem Closed.ledTargets_settled (hg : g.Closed) : ∀ m ∈ g.ledTargets isa n, g.Settled isa m := by
  intro m hm
  obtain ⟨t, ht, rfl⟩ := mem_ledTargets.mp hm
  exact skipTrivial_settled hg (hg.lt_of_mem_targets ht)

/-- **The run of the walk.** It visits what a search along the edges led anew finds, and
leads the edges of exactly these nodes. -/
theorem optimiseFrom_run (hisa : isa.Regular) (hg : g.Closed) : ∀ (room : Nat) (work : List Nat)
    (seen : Std.HashSet NodeId) (found : Array Nat) (h : Graph),
    (∀ m, seen.contains m = true ↔ m ∈ found.toList) →
    (∀ m ∈ work, m < g.size ∧ g.Settled isa m) → SameSkips isa g h →
    (∀ m, h.node m = if m ∈ found.toList then g.led isa m else g.node m) →
    ∀ m, (optimiseFrom isa room work seen h).node m =
      if m ∈ (exploreFrom id (g.ledTargets isa) room work seen found).toList then g.led isa m
      else g.node m
  | room, [], seen, found, h, _, _, _, hnode => fun m => by
    rw [optimiseFrom_nil, exploreFrom_nil]
    exact hnode m
  | room, n :: work, seen, found, h, hseen, hwork, hs, hnode => by
    have hrest : ∀ m ∈ work, m < g.size ∧ g.Settled isa m :=
      fun m hm => hwork m (List.mem_cons_of_mem _ hm)
    obtain ⟨hn, hsettled⟩ := hwork n List.mem_cons_self
    cases hc : seen.contains n with
    | true =>
      rw [optimiseFrom_cons_seen room work h hc, exploreFrom_cons_seen id _ room work found hc]
      exact optimiseFrom_run hisa hg room work seen found h hseen hrest hs hnode
    | false =>
      have hnew : n ∉ found.toList := fun hm => by
        rw [(hseen n).mpr hm] at hc
        cases hc
      cases room with
      | zero => exact hnode
      | succ room =>
        have hn' : h.node n = g.node n := by rw [hnode n, if_neg hnew]
        obtain ⟨h', heq, hs', hnode'⟩ := skipEdges_spec hisa hg hn hsettled hs hn' work
        rw [optimiseFrom_cons_new room work h hc, exploreFrom_cons_new id _ room work found hc, heq]
        refine optimiseFrom_run hisa hg room _ _ _ h' (fun m => ?_) (fun m hm => ?_) hs'
          (fun m => ?_)
        · rw [Std.HashSet.contains_insert, Bool.or_eq_true, beq_iff_eq, hseen, Array.toList_push,
            List.mem_append, List.mem_singleton, or_comm, eq_comm]
        · rcases List.mem_append.mp hm with hm | hm
          · exact ⟨hg.ledTargets_lt m hm, hg.ledTargets_settled m hm⟩
          · exact hrest m hm
        · rw [hnode' m, hnode m, Array.toList_push]
          by_cases hm : m = n
          · simp [hm]
          · simp [hm]
termination_by room work => (room, work.length)

end Walk

/-! ### The whole -/

section Whole

variable {isa : InstructionSet} {g : Graph} {entry : Nat}

/-- Optimising leads the edges of the nodes anew that are found along such edges. -/
theorem node_optimise (hisa : isa.Regular) (hg : g.Closed) (hentry : entry < g.size) (m : Nat) :
    (Reach (g.ledTargets isa) [g.skipTrivial isa entry] m ∧
        (g.optimise isa entry).1.node m = g.led isa m) ∨
      (¬ Reach (g.ledTargets isa) [g.skipTrivial isa entry] m ∧
        (g.optimise isa entry).1.node m = g.node m) := by
  have hroots : ∀ r ∈ [g.skipTrivial isa entry], r < g.size ∧ g.Settled isa r := by
    intro r hr
    rw [List.mem_singleton] at hr
    exact hr ▸ ⟨skipTrivial_lt hg hentry, skipTrivial_settled hg hentry⟩
  have hrun := optimiseFrom_run hisa hg g.size [g.skipTrivial isa entry] ∅ #[] g (by simp) hroots
    ⟨rfl, fun _ => rfl⟩ (by simp) m
  have hmem : m ∈ (exploreFrom id (g.ledTargets isa) g.size [g.skipTrivial isa entry] ∅ #[]).toList ↔
      Reach (g.ledTargets isa) [g.skipTrivial isa entry] m :=
    mem_explore (List.range g.size) (fun r hr => List.mem_range.mpr (hroots r hr).1)
      (fun _ _ b hb => List.mem_range.mpr (hg.ledTargets_lt b hb)) (by simp)
  rw [← hmem]
  split at hrun
  · rename_i h
    exact Or.inl ⟨h, hrun⟩
  · rename_i h
    exact Or.inr ⟨h, hrun⟩

variable (hisa : isa.Regular) (hg : g.Closed)
include hisa hg

theorem live_optimise (hentry : entry < g.size) {m : Nat} :
    (g.optimise isa entry).1.Live isa [g.skipTrivial isa entry] m ↔
      Reach (g.ledTargets isa) [g.skipTrivial isa entry] m := by
  have htargets : ∀ a b, Reach (g.ledTargets isa) [g.skipTrivial isa entry] a →
      (b ∈ (g.optimise isa entry).1.targets isa a ↔ b ∈ g.ledTargets isa a) := by
    intro a b ha
    have hnode := (node_optimise hisa hg hentry a).resolve_right fun h => h.1 ha
    rw [targets, edges_of_led hnode.2, mem_ledTargets, targets]
    simp
  constructor
  · intro h
    refine Reach.induct (fun r hr => Reach.root hr) (fun a b ha hb => ?_) h
    exact ha.step ((htargets a b ha).mp hb)
  · intro h
    have hboth : Reach (g.ledTargets isa) [g.skipTrivial isa entry] m ∧
        (g.optimise isa entry).1.Live isa [g.skipTrivial isa entry] m := by
      refine Reach.induct (Q := fun m => Reach (g.ledTargets isa) [g.skipTrivial isa entry] m ∧
        (g.optimise isa entry).1.Live isa [g.skipTrivial isa entry] m)
        (fun r hr => ⟨Reach.root hr, Reach.root hr⟩) (fun a b ha hb => ?_) h
      exact ⟨ha.1.step hb, ha.2.step ((htargets a b ha.1).mpr hb)⟩
    exact hboth.2

end Whole

/-! ### Paths before and after -/

section Paths

variable {isa : InstructionSet} {g g' : Graph} {n k first : Nat} {steps : List (Nat × Edge)}

theorem edge_of_not_settled (hisa : isa.Regular) (hs : ¬ g.Settled isa n) :
    g.Trivial isa n ∧ ∃ e, g.edges isa n = [(g.onward isa n, e)] := by
  have htriv : g.Trivial isa n := by
    by_contra h
    exact hs (settled_of_not_trivial h)
  rcases edges_of_trivial hisa htriv with ⟨m, e, hnext, hedges⟩ | ⟨hnone, -⟩
  · exact ⟨htriv, e, by rw [hedges, onward_of_some hnext]⟩
  · exact absurd (settled_of_none hnone) hs

theorem edge_of_trivialNext? {m : Nat} (hisa : isa.Regular) (h : g.trivialNext? isa n = some m) :
    ∃ e, (m, e) ∈ g.edges isa n := by
  rcases edges_of_trivial hisa (trivial_of_trivialNext? h) with ⟨m', e, hnext, hedges⟩ | ⟨hnone, -⟩
  · obtain rfl : m = m' := by simpa [h] using hnext
    exact ⟨e, by rw [hedges]; exact List.mem_cons_self⟩
  · rw [h] at hnone
    cases hnone

/-- Past nodes that are skipped nothing is done. -/
theorem exists_path_iterate (hisa : isa.Regular) : ∀ (j n : Nat),
    (∀ i < j, ¬ g.Settled isa ((g.onward isa)^[i] n)) →
    ∃ steps, g.Path isa n steps ((g.onward isa)^[j] n) ∧ g.effective isa steps = []
  | 0, n, _ => ⟨[], .stay n, rfl⟩
  | j + 1, n, hskipped => by
    have hn : ¬ g.Settled isa n := hskipped 0 (Nat.succ_pos j)
    obtain ⟨htriv, e, hedges⟩ := edge_of_not_settled hisa hn
    obtain ⟨steps, hpath, hnil⟩ := exists_path_iterate hisa j (g.onward isa n) fun i hi => by
      rw [← iterate_succ_apply]
      exact hskipped (i + 1) (Nat.succ_lt_succ hi)
    refine ⟨(n, e) :: steps, ?_, by rw [effective_cons, if_pos htriv, hnil]⟩
    rw [iterate_succ_apply]
    exact .step (by rw [hedges]; exact List.mem_cons_self) hpath

theorem exists_path_skipTrivial (hisa : isa.Regular) (hg : g.Closed) (hn : n < g.size) :
    ∃ steps, g.Path isa n steps (g.skipTrivial isa n) ∧ g.effective isa steps = [] := by
  obtain ⟨j, hj, -, hskipped⟩ := skipTrivial_spec isa hg hn
  rw [hj]
  exact exists_path_iterate hisa j n hskipped

variable (hisa : isa.Regular) (hg : g.Closed)
  (hbody : ∀ n, (g'.node n).body = (g.node n).body)
  (hedges : ∀ n, g'.Live isa [first] n →
    g'.edges isa n = (g.edges isa n).map fun p => (g.skipTrivial isa p.1, p.2))
include hisa hg hbody hedges

/-- What is done on a path is done on one that skips. -/
theorem Path.forward (h : g.Path isa n steps k) (hn : n < g.size) (hk : g.Settled isa k)
    (hlive : g'.Live isa [first] (g.skipTrivial isa n)) :
    ∃ steps', g'.Path isa (g.skipTrivial isa n) steps' k ∧
      g'.effective isa steps' = g.effective isa steps := by
  induction h with
  | stay n =>
    rw [skipTrivial_of_settled hg hn hk]
    exact ⟨[], .stay n, rfl⟩
  | @step n m k e steps he _ ih =>
    have hm : m < g.size := hg.lt_of_mem_targets (List.mem_map_of_mem he)
    by_cases hs : g.Settled isa n
    · rw [skipTrivial_of_settled hg hn hs] at hlive ⊢
      have he' : (g.skipTrivial isa m, e) ∈ g'.edges isa n := by
        rw [hedges n hlive]
        exact List.mem_map.mpr ⟨(m, e), he, rfl⟩
      obtain ⟨steps', hpath, hsame⟩ := ih hm hk (hlive.step (List.mem_map_of_mem he'))
      refine ⟨(n, e) :: steps', .step he' hpath, ?_⟩
      rw [effective_cons, effective_cons, hsame]
      simp only [trivial_congr (hbody n)]
    · -- a node that is skipped adds nothing, and its edge leads to where skipping goes on
      obtain ⟨htriv, e', hone⟩ := edge_of_not_settled hisa hs
      obtain ⟨rfl, -⟩ : m = g.onward isa n ∧ e = e' := by simpa [hone] using he
      rw [skipTrivial_of_not_settled hg hn hs] at hlive ⊢
      rw [effective_cons, if_pos htriv]
      exact ih hm hk hlive

/-- What is done on a path that skips is done on one that does not. -/
theorem Path.backward (h : g'.Path isa n steps k) (hn : n < g.size)
    (hlive : g'.Live isa [first] n) : ∃ steps', g.Path isa n steps' k ∧
      g'.effective isa steps = g.effective isa steps' := by
  induction h with
  | stay n => exact ⟨[], .stay n, rfl⟩
  | @step n m k e steps he _ ih =>
    have he' := he
    rw [hedges n hlive] at he'
    obtain ⟨⟨t, e'⟩, ht, heq⟩ := List.mem_map.mp he'
    obtain ⟨rfl, rfl⟩ : g.skipTrivial isa t = m ∧ e' = e := by simpa using heq
    have htlt : t < g.size := hg.lt_of_mem_targets (List.mem_map_of_mem ht)
    obtain ⟨silent, hsilent, hnil⟩ := exists_path_skipTrivial hisa hg htlt
    obtain ⟨steps', hpath, hsame⟩ := ih (skipTrivial_lt hg htlt) (hlive.step (List.mem_map_of_mem he))
    refine ⟨(n, e') :: (silent ++ steps'), .step ht (hsilent.trans hpath), ?_⟩
    rw [effective_cons, effective_cons, effective_append, hnil, List.nil_append, hsame]
    simp only [trivial_congr (hbody n)]

end Paths

/-! ### What is left -/

section Left

variable {isa : InstructionSet} {g : Graph} {n : Nat}

theorem Settled.isSome_next (hs : g.Settled isa n) (hn : g.trivialNext? isa n ≠ none) (i : Nat) :
    g.trivialNext? isa ((g.onward isa)^[i] n) ≠ none := by
  intro hnone
  obtain ⟨p, hp, hper⟩ := hs
  have hback : (g.onward isa)^[p * (i + 1)] n = n := hper.mul_const (i + 1)
  obtain ⟨d, hd⟩ : ∃ d, p * (i + 1) = d + i :=
    ⟨p * (i + 1) - i, by have := Nat.le_mul_of_pos_left (i + 1) hp; omega⟩
  rw [hd, iterate_add_apply, iterate_fixed (onward_of_none hnone)] at hback
  rw [hback] at hnone
  exact hn hnone

/-- A settled trivial node leads nowhere, or leads back to itself over trivial nodes. -/
theorem Settled.cycle {g' : Graph} (hs : g.Settled isa n) (hn : g.trivialNext? isa n ≠ none)
    (hbody : ∀ n, (g'.node n).body = (g.node n).body)
    (hkept : ∀ a m, g.Settled isa a → g.trivialNext? isa a = some m → m ∈ g'.targets isa a) :
    Relation.TransGen (fun a b => g'.Trivial isa a ∧ b ∈ g'.targets isa a) n n := by
  have hstep : ∀ i : Nat, g'.Trivial isa ((g.onward isa)^[i] n) ∧
      (g.onward isa)^[i + 1] n ∈ g'.targets isa ((g.onward isa)^[i] n) := by
    intro i
    obtain ⟨m, hm⟩ := Option.ne_none_iff_exists'.mp (hs.isSome_next hn i)
    refine ⟨(trivial_congr (hbody _)).mpr (trivial_of_trivialNext? hm), ?_⟩
    rw [iterate_succ_apply', onward_of_some hm]
    exact hkept _ m (hs.iterate i) hm
  have hwalk : ∀ i : Nat, Relation.TransGen
      (fun a b => g'.Trivial isa a ∧ b ∈ g'.targets isa a) n ((g.onward isa)^[i + 1] n) := by
    intro i
    induction i with
    | zero => exact .single (hstep 0)
    | succ i ih => exact ih.tail (hstep (i + 1))
  obtain ⟨p, hp, hper⟩ := hs
  have hback := hwalk (p - 1)
  rwa [Nat.sub_add_cancel hp, hper] at hback

end Left

/-! ### Optimised code -/

section Optimise

variable {isa : InstructionSet} {g : Graph} {entry : Nat} (hisa : isa.Regular) (hg : g.Closed)
  (hentry : entry < g.size)
include hisa hg hentry

theorem body_optimise (n : Nat) : ((g.optimise isa entry).1.node n).body = (g.node n).body := by
  rcases node_optimise hisa hg hentry n with ⟨-, hled⟩ | ⟨-, hkept⟩
  · rw [hled]
    exact body_ledAlong ..
  · rw [hkept]

theorem edges_optimise {n : Nat}
    (hn : (g.optimise isa entry).1.Live isa [g.skipTrivial isa entry] n) :
    (g.optimise isa entry).1.edges isa n =
      (g.edges isa n).map fun p => (g.skipTrivial isa p.1, p.2) := by
  have hreach := (live_optimise hisa hg hentry).mp hn
  have hled := (node_optimise hisa hg hentry n).resolve_right fun h => h.1 hreach
  exact edges_of_led hled.2

theorem settled_optimise {n : Nat}
    (hn : (g.optimise isa entry).1.Live isa [g.skipTrivial isa entry] n) : g.Settled isa n := by
  have hreach := (live_optimise hisa hg hentry).mp hn
  apply Reach.induct _ _ hreach
  · intro r hr
    rw [List.mem_singleton] at hr
    rw [hr]
    exact skipTrivial_settled hg hentry
  · intro a b _ hb
    exact hg.ledTargets_settled b hb

/-- On the ways to a node at which skipping stays the same is done as before. -/
theorem paths_optimise {k : Nat} (hk : ¬ g.Trivial isa k ∨ g.skipTrivial isa k = k)
    (doing : List (Nat × Edge)) :
    (∃ steps, (g.optimise isa entry).1.Path isa (g.skipTrivial isa entry) steps k ∧
        (g.optimise isa entry).1.effective isa steps = doing) ↔
      ∃ steps, g.Path isa entry steps k ∧ g.effective isa steps = doing := by
  have hbody := body_optimise hisa hg hentry
  have hedges := fun n => edges_optimise hisa hg hentry (n := n)
  have hstart : (g.optimise isa entry).1.Live isa [g.skipTrivial isa entry]
      (g.skipTrivial isa entry) := Reach.root List.mem_cons_self
  constructor
  · rintro ⟨steps, hpath, rfl⟩
    have hfirst : g.skipTrivial isa entry < g.size := skipTrivial_lt hg hentry
    obtain ⟨steps', hpath', hsame⟩ := hpath.backward hisa hg hbody hedges hfirst hstart
    obtain ⟨silent, hsilent, hnil⟩ := exists_path_skipTrivial hisa hg hentry
    refine ⟨silent ++ steps', hsilent.trans hpath', ?_⟩
    rw [effective_append, hnil, List.nil_append, hsame]
  · rintro ⟨steps, hpath, rfl⟩
    have hsettled : g.Settled isa k := by
      rcases hk with hk | hk
      · exact settled_of_not_trivial hk
      · rw [← hk]
        exact skipTrivial_settled hg (hpath.lt hg hentry)
    exact hpath.forward hisa hg hbody hedges hentry hsettled hstart

theorem mem_targets_optimise {a b : Nat} (ha : g.Settled isa a) (hb : g.trivialNext? isa a = some b) :
    b ∈ (g.optimise isa entry).1.targets isa a := by
  obtain ⟨e, he⟩ := edge_of_trivialNext? hisa hb
  unfold targets
  rcases node_optimise hisa hg hentry a with ⟨-, hled⟩ | ⟨-, hkept⟩
  · have hblt : b < g.size := hg.lt_of_mem_targets (List.mem_map_of_mem he)
    have hnext : g.Settled isa b := by
      rw [← onward_of_some hb]
      exact ha.onward
    rw [edges_of_led hled, List.map_map]
    exact List.mem_map.mpr ⟨(b, e), he, skipTrivial_of_settled hg hblt hnext⟩
  · rw [edges_congr hkept]
    exact List.mem_map_of_mem he

theorem trivial_optimise {n : Nat}
    (hn : (g.optimise isa entry).1.Live isa [g.skipTrivial isa entry] n)
    (ht : (g.optimise isa entry).1.Trivial isa n) : (g.optimise isa entry).1.edges isa n = [] ∨
      Relation.TransGen (fun a b => (g.optimise isa entry).1.Trivial isa a ∧
        b ∈ (g.optimise isa entry).1.targets isa a) n n := by
  have hbody := body_optimise hisa hg hentry
  have ht' := (trivial_congr (hbody n)).mp ht
  rcases edges_of_trivial hisa ht' with ⟨m, e, hnext, -⟩ | ⟨-, hnone⟩
  · right
    have hleads : g.trivialNext? isa n ≠ none := by
      rw [hnext]
      exact Option.some_ne_none m
    exact (settled_optimise hisa hg hentry hn).cycle hleads hbody fun a b =>
      mem_targets_optimise hisa hg hentry
  · left
    rw [edges_optimise hisa hg hentry hn, hnone]
    rfl

end Optimise

/-- **Optimising skips trivial instructions, and the code does what it did.** -/
theorem optimised_optimise {isa : InstructionSet} (hisa : isa.BuiltIn) {g : Graph} (hg : g.Closed)
    {entry : Nat} (hentry : entry < g.size) :
    Optimised isa g (g.optimise isa entry).1 entry (g.optimise isa entry).2 := by
  have hreg := hisa.regular
  constructor
  · rfl
  · exact fun n hn => edges_optimise hreg hg hentry hn
  · intro n hn
    have hkept := (node_optimise hreg hg hentry n).resolve_left fun h =>
      hn ((live_optimise hreg hg hentry).mpr h.1)
    exact hkept.2
  · exact body_optimise hreg hg hentry
  · intro n hn
    have hsame := paths_optimise hreg hg hentry (Or.inl hn)
    refine Iff.trans live_iff_path (Iff.trans ⟨?_, ?_⟩ live_iff_path.symm)
    · rintro ⟨steps, h⟩
      obtain ⟨steps', h', -⟩ := (hsame _).mp ⟨steps, h, rfl⟩
      exact ⟨steps', h'⟩
    · rintro ⟨steps, h⟩
      obtain ⟨steps', h', -⟩ := (hsame _).mpr ⟨steps, h, rfl⟩
      exact ⟨steps', h'⟩
  · exact fun k hk => paths_optimise hreg hg hentry hk
  · exact fun n hn ht => trivial_optimise hreg hg hentry hn ht

/-- A no-op in front of a jump to itself, which stays. -/
theorem optimised_optimise_loop :
    let g : Graph := ⟨#[{ opcode := ⟨9⟩, successor := some 1 },
      { opcode := ⟨113⟩, operand := .jump, branch := some 1 }]⟩
    (g.Closed ∧ 0 < g.size) ∧
      Optimised .python38 g (g.optimise .python38 0).1 0 (g.optimise .python38 0).2 := by
  intro g
  have hclosed : g.Closed := by decide
  have hentry : 0 < g.size := by decide
  exact ⟨⟨hclosed, hentry⟩, optimised_optimise (Or.inl rfl) hclosed hentry⟩

end Graph

end Wordcode
