/-
# What writing one region leaves behind

A region is written when it is entered by exactly one instruction. What the graph looks
like then is said once (`Flattening.Written`), in terms of the edges before: the new
opener stands in front of that instruction, edges from outside lead to it instead, edges
that leave the region lead over an exit, and a return has become an exit that leads to a
moved copy of it. Whatever execution can get to afterwards is one of those new instructions
or something it could get to before (`Flattening.Place`), and each of its steps is one
of a few kinds (`Flattening.Leads`), from which everything else about runs follows.

Key definitions: `Flattening.Live`, `Flattening.Entered`, `Flattening.Exiting`,
`Flattening.Valid`, `Flattening.Written`, `Flattening.Leads`.
Key theorems: `Flattening.region_eq_ok_iff`, `Flattening.exists_written`,
`Flattening.Written.place`, `Flattening.Written.leads`, `Flattening.Written.live_old`.
-/
import Wordcode.Proofs.BuiltIn
import Wordcode.Proofs.Closing
import Wordcode.Proofs.Opened
import Wordcode.Proofs.Predecessors

namespace Wordcode

namespace Flattening

/-! ### Ways into a region and out of it -/

section Ways

variable (isa : InstructionSet) (f : Flattening)

/-- Execution can get to a node from the entry or from a handler. -/
def Live (n : NodeId) : Prop := f.graph.Live isa (f.entry :: f.table.handlers) n

/-- By `n` the nodes `members` are entered. -/
structure Entered (members : NodeSet) (n : NodeId) : Prop where
  live : f.Live isa n
  mem : n ∈ members
  way_in : n = f.entry ∨ ∃ p e, f.Live isa p ∧ p ∉ members ∧ (n, e) ∈ f.graph.edges isa p

/-- The edge `e` from `n` to `m` leads out of `members`. The way into a handler does not
count. -/
structure Exiting (members : NodeSet) (n m : NodeId) (e : Edge) : Prop where
  live : f.Live isa n
  mem : n ∈ members
  edge : (m, e) ∈ f.graph.edges isa n
  outside : m ∉ members
  counts : ¬ (e = .branch ∧ ((f.graph.node n).flags isa).handlerSetup = true)

/-- What the table speaks of are nodes of the graph. -/
structure Valid : Prop where
  closed : f.graph.Closed
  entry_lt : f.entry < f.graph.size
  handler_lt : ∀ h ∈ f.table.handlers, h < f.graph.size
  member_lt : ∀ r ∈ f.table.regions, r.setup = none → ∀ n ∈ r.members, n < f.graph.size

end Ways

variable {isa : InstructionSet} {f f' : Flattening} {r : Region} {i : Nat}
variable {first n m : NodeId} {e : Edge}

theorem Valid.roots_lt (hf : f.Valid) : ∀ r ∈ f.entry :: f.table.handlers, r < f.graph.size := by
  intro r hr
  rcases List.mem_cons.mp hr with rfl | hr
  · exact hf.entry_lt
  · exact hf.handler_lt r hr

theorem Valid.lt_of_live (hf : f.Valid) (h : f.Live isa n) : n < f.graph.size :=
  hf.closed.lt_of_live hf.roots_lt h

theorem Live.step (h : f.Live isa n) (he : (m, e) ∈ f.graph.edges isa n) : f.Live isa m :=
  Reach.step h (Graph.mem_targets_iff.mpr ⟨e, he⟩)

theorem edge_unique {g : Graph} {m' : NodeId} (h : (m, e) ∈ g.edges isa n)
    (h' : (m', e) ∈ g.edges isa n) : m = m' := by
  rw [Graph.mem_edges_iff] at h h'
  exact Option.some.inj (h.2.symm.trans h'.2)

section Index

variable (isa f)

/-- The index that writing a region starts from. -/
def index : PredecessorIndex := .build isa f.graph (f.entry :: f.table.handlers)

/-- The members that execution can get to. -/
def membersOf (members : NodeSet) : List NodeId :=
  (f.index isa).reachable.filter members.contains

/-- The edges into `first` from outside. -/
def outsideOf (members : NodeSet) (first : NodeId) : List (NodeId × Edge) :=
  ((f.index isa).predecessors first).filter fun p => !members.contains p.1

/-- The instructions by which the region is entered. -/
def entries (members : NodeSet) : List NodeId :=
  entriesOf (f.index isa) members.contains f.entry (f.membersOf isa members)

/-- The graph with the opener of the region. -/
def withOpener (r : Region) (first : NodeId) : Graph :=
  opened isa f.graph r.handler first (f.outsideOf isa r.members first)

/-- The exits of the region, with the graph that has them. -/
def withExits (r : Region) (first : NodeId) : Exits :=
  (f.membersOf isa r.members).foldl (Exits.atMember isa r.members.contains)
    { graph := f.withOpener isa r first }

/-- Everything when the region that is entered by `first` has been written. -/
def written (i : Nat) (r : Region) (first : NodeId) : Flattening where
  graph := (f.withExits isa r first).graph
  entry := if first = f.entry then f.graph.size else f.entry
  table := ⟨f.table.regions.mapIdx fun j r' =>
    if j = i then
      { r with
        setup := some f.graph.size
        members := r.members.insertMany ((f.withExits isa r first).exitTo.map (·.2)) }
    else enclose f.graph.size (f.outsideOf isa r.members first) (f.withExits isa r first).added r'⟩

end Index

theorem region_eq : f.region isa i r = match f.entries isa r.members with
    | [first] => .ok (f.written isa i r first)
    | entries => .error (.regionEntry entries.length) := rfl

section Lists

variable (hf : f.Valid)
include hf

theorem mem_membersOf {members : NodeSet} :
    n ∈ f.membersOf isa members ↔ f.Live isa n ∧ n ∈ members := by
  rw [membersOf, List.mem_filter, Std.HashSet.contains_iff_mem]
  exact and_congr_left' (Graph.mem_reachable hf.closed hf.roots_lt)

theorem nodup_membersOf (members : NodeSet) : (f.membersOf isa members).Nodup :=
  (Graph.nodup_reachable hf.closed hf.roots_lt).filter _

theorem mem_outsideOf {members : NodeSet} : (n, e) ∈ f.outsideOf isa members first ↔
    f.Live isa n ∧ n ∉ members ∧ (first, e) ∈ f.graph.edges isa n := by
  rw [outsideOf, List.mem_filter, index,
    PredecessorIndex.mem_predecessors_build hf.closed hf.roots_lt]
  simp only [Bool.not_eq_true', ← Bool.not_eq_true, Std.HashSet.contains_iff_mem]
  exact ⟨fun ⟨⟨hl, he⟩, hm⟩ => ⟨hl, hm, he⟩, fun ⟨hl, hm, he⟩ => ⟨⟨hl, he⟩, hm⟩⟩

theorem mem_entries {members : NodeSet} :
    n ∈ f.entries isa members ↔ f.Entered isa members n := by
  simp only [entries, entriesOf, List.mem_filter, mem_membersOf hf, Bool.or_eq_true, beq_iff_eq,
    List.any_eq_true, Prod.exists, index, Bool.not_eq_true', ← Bool.not_eq_true,
    PredecessorIndex.mem_predecessors_build hf.closed hf.roots_lt, Std.HashSet.contains_iff_mem]
  constructor
  · rintro ⟨⟨hl, hm⟩, hin⟩
    exact ⟨hl, hm, hin.imp_right fun ⟨p, e, ⟨hp, he⟩, hout⟩ => ⟨p, e, hp, hout, he⟩⟩
  · rintro ⟨hl, hm, hin⟩
    exact ⟨⟨hl, hm⟩, hin.imp_right fun ⟨p, e, hp, hout, he⟩ => ⟨p, e, ⟨hp, he⟩, hout⟩⟩

theorem entries_eq_singleton_iff {members : NodeSet} :
    f.entries isa members = [first] ↔ ∀ n, f.Entered isa members n ↔ n = first := by
  have hnodup : (f.entries isa members).Nodup := (nodup_membersOf hf members).filter _
  constructor
  · intro h n
    rw [← mem_entries hf, h, List.mem_singleton]
  · intro h
    refine List.perm_singleton.mp ((List.perm_ext_iff_of_nodup hnodup (List.nodup_singleton _)).mpr ?_)
    intro n
    rw [mem_entries hf, h, List.mem_singleton]

theorem region_eq_ok_iff : f.region isa i r = .ok f' ↔
    ∃ first, (∀ n, f.Entered isa r.members n ↔ n = first) ∧ f' = f.written isa i r first := by
  simp only [← entries_eq_singleton_iff hf, region_eq]
  constructor
  · intro h
    split at h
    · case _ first hentries => exact ⟨first, hentries, (Except.ok.inj h).symm⟩
    · cases h
  · rintro ⟨first, hentries, rfl⟩
    rw [hentries]

end Lists

/-! ### The opener -/

section Opener

theorem size_redirects (s : NodeId) : ∀ (outside : List (NodeId × Edge)) (g : Graph),
    (outside.foldl (fun g p => g.redirect p.1 p.2 (some s)) g).size = g.size
  | [], _ => rfl
  | p :: outside, g => by
    rw [List.foldl_cons, size_redirects s outside, Graph.size_redirect]

theorem body_redirects (s n : NodeId) : ∀ (outside : List (NodeId × Edge)) (g : Graph),
    ((outside.foldl (fun g p => g.redirect p.1 p.2 (some s)) g).node n).body = (g.node n).body
  | [], _ => rfl
  | p :: outside, g => by
    rw [List.foldl_cons, body_redirects s n outside, Graph.node_redirect]
    split
    · exact Node.body_withEdge ..
    · rfl

theorem target_redirects (s n : NodeId) (e : Edge) : ∀ (outside : List (NodeId × Edge)) (g : Graph),
    n < g.size → ((outside.foldl (fun g p => g.redirect p.1 p.2 (some s)) g).node n).target e =
      if (n, e) ∈ outside then some s else (g.node n).target e
  | [], _, _ => rfl
  | (p, e') :: outside, g, hn => by
    have ih := target_redirects s n e outside (g.redirect p e' (some s)) (by simpa using hn)
    rw [List.foldl_cons, ih]
    by_cases hmem : (n, e) ∈ outside
    · rw [if_pos hmem, if_pos (List.mem_cons_of_mem _ hmem)]
    rw [if_neg hmem, Graph.node_redirect]
    by_cases hp : p = n
    · rw [if_pos ⟨hp, hn⟩]
      by_cases he : e = e'
      · rw [he, Node.target_withEdge_self, if_pos (hp ▸ List.mem_cons_self)]
      · rw [Node.target_withEdge_of_ne _ he, if_neg]
        simp [hmem, he]
    · rw [if_neg fun h => hp h.1, if_neg]
      simp [hmem, Ne.symm hp]

variable (hf : f.Valid)

theorem size_withOpener : (f.withOpener isa r first).size = f.graph.size + 1 := by
  rw [withOpener, opened, size_redirects, Graph.size_alloc]

theorem lt_withOpener (hn : n < f.graph.size) : n < (f.withOpener isa r first).size := by
  rw [size_withOpener]
  exact Nat.lt_succ_of_lt hn

theorem body_withOpener (hn : n < f.graph.size) :
    ((f.withOpener isa r first).node n).body = (f.graph.node n).body := by
  rw [withOpener, opened, body_redirects, Graph.node_alloc, if_neg (Nat.ne_of_lt hn)]

theorem target_withOpener (hn : n < f.graph.size) :
    ((f.withOpener isa r first).node n).target e =
      if (n, e) ∈ f.outsideOf isa r.members first then some f.graph.size
      else (f.graph.node n).target e := by
  have hlt : n < f.graph.size + 1 := Nat.lt_succ_of_lt hn
  rw [withOpener, opened, target_redirects _ _ _ _ _ (by rwa [Graph.size_alloc]), Graph.node_alloc,
    if_neg (Nat.ne_of_lt hn)]

theorem flags_withOpener (hn : n < f.graph.size) :
    ((f.withOpener isa r first).node n).flags isa = (f.graph.node n).flags isa :=
  Node.flags_of_body isa (body_withOpener hn)

variable (isa r first) in
theorem opener_withOpener (hf : f.Valid) (e : Edge) :
    ((f.withOpener isa r first).node f.graph.size).opcode = isa.handlerSetup ∧
      ((f.withOpener isa r first).node f.graph.size).target e = match e with
        | .fallthrough => some first
        | .branch => some r.handler := by
  have hnot : (f.graph.size, e) ∉ f.outsideOf isa r.members first := fun hmem =>
    Nat.lt_irrefl _ (hf.lt_of_live ((mem_outsideOf hf).mp hmem).1)
  constructor
  · rw [withOpener, opened, Node.opcode_of_body (body_redirects _ _ _ _), Graph.node_alloc,
      if_pos rfl]
  · rw [withOpener, opened, target_redirects _ _ _ _ _ (by simp), if_neg hnot, Graph.node_alloc,
      if_pos rfl]
    cases e <;> rfl

theorem edges_withOpener_of_mem (hf : f.Valid) (hn : n < f.graph.size) (hm : n ∈ r.members) :
    (m, e) ∈ (f.withOpener isa r first).edges isa n ↔ (m, e) ∈ f.graph.edges isa n := by
  have hnot : (n, e) ∉ f.outsideOf isa r.members first := fun hmem =>
    ((mem_outsideOf hf).mp hmem).2.1 hm
  rw [Graph.mem_edges_iff, Graph.mem_edges_iff, flags_withOpener hn, target_withOpener hn,
    if_neg hnot]

end Opener

/-! ### The exits -/

section Exits

variable (isa f r first) in
/-- The ways out of the region that are closed. -/
def ways : List WayOut :=
  ((f.membersOf isa r.members).flatMap
    (waysOut isa (f.withOpener isa r first) r.members.contains)).reverse

variable (hf : f.Valid)
include hf

variable (isa r first) in
theorem closing_withExits :
    Closing isa (f.withOpener isa r first) (f.ways isa r first) (f.withExits isa r first) := by
  have hmembers : ∀ n ∈ f.membersOf isa r.members,
      n < (f.withOpener isa r first).size ∧ ∀ w : Option (NodeId × Edge), (n, w) ∉ ([] : List WayOut) := by
    intro n hn
    exact ⟨lt_withOpener (hf.lt_of_live ((mem_membersOf hf).mp hn).1), fun _ => List.not_mem_nil⟩
  have h := closing_members isa (f.withOpener isa r first) r.members.contains
    (closing_nil isa (f.withOpener isa r first)) (nodup_membersOf hf r.members) hmembers
  rwa [List.append_nil] at h

theorem return_mem_ways : (n, none) ∈ f.ways isa r first ↔
    f.Live isa n ∧ n ∈ r.members ∧ ((f.graph.node n).flags isa).returns = true := by
  simp only [ways, List.mem_reverse, List.mem_flatMap, mem_waysOut, mem_membersOf hf]
  constructor
  · rintro ⟨_, ⟨hl, hm⟩, rfl, hreturns⟩
    rw [flags_withOpener (hf.lt_of_live hl)] at hreturns
    exact ⟨hl, hm, hreturns⟩
  · rintro ⟨hl, hm, hreturns⟩
    have hflags : ((f.withOpener isa r first).node n).flags isa = (f.graph.node n).flags isa :=
      flags_withOpener (hf.lt_of_live hl)
    rw [← hflags] at hreturns
    exact ⟨n, ⟨hl, hm⟩, rfl, hreturns⟩

omit hf in
theorem leaves_iff {members : NodeSet} {flags : Flags} : leaves members.contains flags (m, e) = true ↔
    m ∉ members ∧ ¬ (e = .branch ∧ flags.handlerSetup = true) := by
  simp only [leaves, Bool.and_eq_true, Bool.not_eq_true', ← Bool.not_eq_true,
    Std.HashSet.contains_iff_mem, beq_iff_eq]

omit hf in
theorem returns_eq_false (hisa : isa.Blocks) {g : Graph} (h : (m, e) ∈ g.edges isa n) :
    ((g.node n).flags isa).returns = false := by
  rw [← Bool.not_eq_true]
  intro hreturns
  obtain ⟨hfalls, hjump⟩ := hisa.returns _ hreturns
  rw [Graph.mem_edges_iff] at h
  cases e with
  | fallthrough => exact Bool.false_ne_true (hfalls.symm.trans h.1)
  | branch => exact Bool.false_ne_true (hjump.symm.trans h.1)

theorem edge_mem_ways (hisa : isa.Blocks) :
    (n, some (m, e)) ∈ f.ways isa r first ↔ f.Exiting isa r.members n m e := by
  simp only [ways, List.mem_reverse, List.mem_flatMap, mem_waysOut, mem_membersOf hf, leaves_iff]
  constructor
  · rintro ⟨_, ⟨hl, hm⟩, rfl, -, hedge, hout, hcounts⟩
    have hn := hf.lt_of_live hl
    rw [edges_withOpener_of_mem hf hn hm] at hedge
    rw [flags_withOpener hn] at hcounts
    exact ⟨hl, hm, hedge, hout, hcounts⟩
  · rintro ⟨hl, hm, hedge, hout, hcounts⟩
    have hn := hf.lt_of_live hl
    have hflags : ((f.withOpener isa r first).node n).flags isa = (f.graph.node n).flags isa :=
      flags_withOpener hn
    have hedge' : (m, e) ∈ (f.withOpener isa r first).edges isa n :=
      (edges_withOpener_of_mem hf hn hm).mpr hedge
    rw [← hflags] at hcounts
    exact ⟨n, ⟨hl, hm⟩, rfl, returns_eq_false hisa hedge', hedge', hout, hcounts⟩

/-- A return that stays where it is keeps its opcode, and so do all other instructions. -/
theorem opcode_withExits (hn : n < f.graph.size) (hreturn : (n, none) ∉ f.ways isa r first) :
    ((f.withExits isa r first).graph.node n).opcode = (f.graph.node n).opcode :=
  (Node.opcode_of_body ((closing_withExits isa r first hf).body_eq (lt_withOpener hn) hreturn)).trans
    (Node.opcode_of_body (body_withOpener hn))

theorem flags_withExits (hn : n < f.graph.size) (hreturn : (n, none) ∉ f.ways isa r first) :
    ((f.withExits isa r first).graph.node n).flags isa = (f.graph.node n).flags isa := by
  rw [Node.flags, opcode_withExits hf hn hreturn, Node.flags]

theorem target_withExits (hn : n < f.graph.size) (hreturn : (n, none) ∉ f.ways isa r first)
    (hedges : ∀ m, (n, some (m, e)) ∉ f.ways isa r first) :
    ((f.withExits isa r first).graph.node n).target e =
      if (n, e) ∈ f.outsideOf isa r.members first then some f.graph.size
      else (f.graph.node n).target e := by
  rw [(closing_withExits isa r first hf).kept (lt_withOpener hn) hreturn hedges,
    target_withOpener hn]

/-! ### Edges afterwards -/

/-- The exits of the region, and where the moved returns are. -/
theorem exitTo_spec (hisa : isa.Blocks) {k : NodeId}
    (h : (f.withExits isa r first).exitTo.lookup m = some k) :
    (f.graph.size < k ∧ k < (f.withExits isa r first).graph.size) ∧
      IsExit isa ((f.withExits isa r first).graph.node k) m ∧
        ∃ n e, f.Exiting isa r.members n m e := by
  obtain ⟨⟨hle, hlt⟩, hexit, n, e, hmem⟩ := (closing_withExits isa r first hf).exit h
  rw [size_withOpener] at hle
  exact ⟨⟨hle, hlt⟩, hexit, n, e, (edge_mem_ways hf hisa).mp hmem⟩

theorem edges_of_outside (hisa : isa.Blocks) (hl : f.Live isa n) (hm : n ∉ r.members) :
    (m, e) ∈ (f.withExits isa r first).graph.edges isa n ↔
      ∃ m', (m', e) ∈ f.graph.edges isa n ∧ m = if m' = first then f.graph.size else m' := by
  have hn := hf.lt_of_live hl
  have hreturn : (n, none) ∉ f.ways isa r first := fun h => hm ((return_mem_ways hf).mp h).2.1
  have hedges : ∀ m', (n, some (m', e)) ∉ f.ways isa r first := fun m' h =>
    hm ((edge_mem_ways hf hisa).mp h).mem
  -- the edges to the first member are led over the opener
  have hled : ∀ {m'}, (m', e) ∈ f.graph.edges isa n →
      ((n, e) ∈ f.outsideOf isa r.members first ↔ m' = first) := by
    intro m' hedge
    rw [mem_outsideOf hf]
    constructor
    · exact fun ⟨_, _, hfirst⟩ => edge_unique hedge hfirst
    · rintro rfl
      exact ⟨hl, hm, hedge⟩
  simp only [Graph.mem_edges_iff, flags_withExits hf hn hreturn, target_withExits hf hn hreturn hedges]
    at hled ⊢
  constructor
  · rintro ⟨htakes, htarget⟩
    cases ht : (f.graph.node n).target e with
    | none =>
      rw [ht, ite_eq_right_iff.mpr] at htarget
      · cases htarget
      · intro hout
        have hfirst := (Graph.mem_edges_iff.mp ((mem_outsideOf hf).mp hout).2.2).2
        rw [ht] at hfirst
        cases hfirst
    | some t =>
      refine ⟨t, ⟨htakes, rfl⟩, ?_⟩
      simp only [ht, hled ⟨htakes, ht⟩] at htarget
      split at htarget
      · case _ heq => rw [if_pos heq, Option.some.inj htarget]
      · case _ hne => rw [if_neg hne, Option.some.inj htarget]
  · rintro ⟨t, ⟨htakes, ht⟩, rfl⟩
    simp only [ht, hled ⟨htakes, ht⟩]
    exact ⟨htakes, by split <;> rfl⟩

theorem edges_of_mem (hisa : isa.Blocks) (hl : f.Live isa n) (hm : n ∈ r.members)
    (hreturns : ((f.graph.node n).flags isa).returns = false) :
    (m, e) ∈ (f.withExits isa r first).graph.edges isa n ↔
      ((m, e) ∈ f.graph.edges isa n ∧ ¬ f.Exiting isa r.members n m e) ∨
        ∃ m', f.Exiting isa r.members n m' e ∧
          (f.withExits isa r first).exitTo.lookup m' = some m := by
  have hn := hf.lt_of_live hl
  have hreturn : (n, none) ∉ f.ways isa r first := fun h => by
    rw [return_mem_ways hf, hreturns] at h
    exact Bool.false_ne_true h.2.2
  by_cases hexiting : ∃ m', f.Exiting isa r.members n m' e
  · obtain ⟨m', hm'⟩ := hexiting
    obtain ⟨k, hlookup, htarget, -⟩ :=
      (closing_withExits isa r first hf).led ((edge_mem_ways hf hisa).mpr hm')
    have htakes := (Graph.mem_edges_iff.mp hm'.edge).1
    rw [Graph.mem_edges_iff, flags_withExits hf hn hreturn, htarget]
    constructor
    · rintro ⟨-, heq⟩
      exact Or.inr ⟨m', hm', heq ▸ hlookup⟩
    · rintro (⟨hedge, hnot⟩ | ⟨m'', hm'', hlookup'⟩)
      · exact absurd (edge_unique hm'.edge hedge ▸ hm') hnot
      · obtain rfl := edge_unique hm'.edge hm''.edge
        exact ⟨htakes, hlookup.symm.trans hlookup'⟩
  · have hedges : ∀ m', (n, some (m', e)) ∉ f.ways isa r first := fun m' h =>
      hexiting ⟨m', (edge_mem_ways hf hisa).mp h⟩
    have hout : (n, e) ∉ f.outsideOf isa r.members first := fun h => ((mem_outsideOf hf).mp h).2.1 hm
    rw [Graph.mem_edges_iff, flags_withExits hf hn hreturn, target_withExits hf hn hreturn hedges,
      if_neg hout, ← Graph.mem_edges_iff]
    constructor
    · exact fun hedge => Or.inl ⟨hedge, fun h => hexiting ⟨m, h⟩⟩
    · rintro (⟨hedge, -⟩ | ⟨m', hm', -⟩)
      · exact hedge
      · exact absurd ⟨m', hm'⟩ hexiting

/-- The opener goes on to the first member, or branches to the handler. -/
theorem edges_opener (hisa : isa.Blocks) :
    ((f.withExits isa r first).graph.node f.graph.size).opcode = isa.handlerSetup ∧
      ((m, e) ∈ (f.withExits isa r first).graph.edges isa f.graph.size ↔
        m = first ∧ e = .fallthrough ∨ m = r.handler ∧ e = .branch) := by
  have hclosing := closing_withExits isa r first hf
  have hn : f.graph.size < (f.withOpener isa r first).size := by
    rw [size_withOpener]
    exact Nat.lt_succ_self _
  have hways : ∀ w, (f.graph.size, w) ∉ f.ways isa r first := fun w h => by
    cases w with
    | none => exact Nat.lt_irrefl _ (hf.lt_of_live ((return_mem_ways hf).mp h).1)
    | some t => exact Nat.lt_irrefl _ (hf.lt_of_live ((edge_mem_ways hf hisa).mp h).live)
  obtain ⟨hopcode, htarget⟩ := opener_withOpener isa r first hf e
  have hop : ((f.withExits isa r first).graph.node f.graph.size).opcode = isa.handlerSetup := by
    rw [Node.opcode_of_body (hclosing.body_eq hn (hways _)), hopcode]
  refine ⟨hop, ?_⟩
  rw [Graph.mem_edges_iff, hclosing.kept hn (hways _) fun _ => hways _, htarget, Node.flags, hop]
  obtain ⟨hfalls, hjump, -⟩ := hisa.setup
  cases e with
  | fallthrough => simp [Flags.takes, hfalls, eq_comm]
  | branch => simp [Flags.takes, hjump, eq_comm]

end Exits

theorem IsExit.mem_edges_iff (hisa : isa.Blocks) {g : Graph} {k m' : NodeId}
    (h : IsExit isa (g.node k) m) : (m', e) ∈ g.edges isa k ↔ m' = m ∧ e = .fallthrough := by
  obtain ⟨hfalls, hjump, -⟩ := hisa.exit
  rw [Graph.mem_edges_iff, Node.flags, h.opcode]
  cases e with
  | fallthrough => simp [Flags.takes, Node.target, hfalls, h.successor, eq_comm]
  | branch => simp [Flags.takes, hjump]

/-! ### What is left behind -/

/-- What writing `r` adds inside the other regions that have the members `members`: its
opener if it is entered from there, the exits on their edges, and their returns. -/
inductive AddedTo (isa : InstructionSet) (f : Flattening) (r : Region) (first : NodeId)
    (exit moved : NodeId → NodeId → Prop) (members : NodeSet) : NodeId → Prop
  | opener {p : NodeId} {e : Edge} (hl : f.Live isa p) (hout : p ∉ r.members) (hmem : p ∈ members)
      (hedge : (first, e) ∈ f.graph.edges isa p) :
      AddedTo isa f r first exit moved members f.graph.size
  | exit {p m k : NodeId} {e : Edge} (hexiting : f.Exiting isa r.members p m e) (hmem : p ∈ members)
      (h : exit m k) : AddedTo isa f r first exit moved members k
  | moved {p k : NodeId} (hmem : p ∈ members) (h : moved p k) :
      AddedTo isa f r first exit moved members k

/-- The declared region `r` at place `i` of the table, entered by `first`, has been written.
The exit for the target `m` is `k` if `exit m k`, and the return `n` was moved to `k` if
`moved n k`. -/
structure Written (isa : InstructionSet) (f : Flattening) (i : Nat) (r : Region) (first : NodeId)
    (exit moved : NodeId → NodeId → Prop) (f' : Flattening) : Prop where
  entered_iff : ∀ n, f.Entered isa r.members n ↔ n = first
  valid : f'.Valid
  size_lt : f.graph.size < f'.graph.size
  entry_eq : f'.entry = if first = f.entry then f.graph.size else f.entry
  handlers_eq : f'.table.handlers = f.table.handlers
  opener : (f'.graph.node f.graph.size).opcode = isa.handlerSetup
  opener_edges : ∀ {m e}, (m, e) ∈ f'.graph.edges isa f.graph.size ↔
    m = first ∧ e = .fallthrough ∨ m = r.handler ∧ e = .branch
  /-- Instructions outside lead to the opener where they led to the first member. -/
  outside_edges : ∀ {n m e}, f.Live isa n → n ∉ r.members → ((m, e) ∈ f'.graph.edges isa n ↔
    ∃ m', (m', e) ∈ f.graph.edges isa n ∧ m = if m' = first then f.graph.size else m')
  /-- Members lead to an exit where they led out of the region. -/
  inside_edges : ∀ {n m e}, f.Live isa n → n ∈ r.members →
    ((f.graph.node n).flags isa).returns = false → ((m, e) ∈ f'.graph.edges isa n ↔
      ((m, e) ∈ f.graph.edges isa n ∧ ¬ f.Exiting isa r.members n m e) ∨
        ∃ m', f.Exiting isa r.members n m' e ∧ exit m' m)
  opcode_eq : ∀ {n}, f.Live isa n →
    ¬ (n ∈ r.members ∧ ((f.graph.node n).flags isa).returns = true) →
      (f'.graph.node n).opcode = (f.graph.node n).opcode
  exists_exit : ∀ {n m e}, f.Exiting isa r.members n m e → ∃ k, exit m k
  exit_spec : ∀ {m k}, exit m k → (f.graph.size < k ∧ k < f'.graph.size) ∧
    IsExit isa (f'.graph.node k) m ∧ ∃ n e, f.Exiting isa r.members n m e
  exit_unique : ∀ {m k k'}, exit m k → exit m k' → k = k'
  /-- An exit stands in the place of a return. -/
  exists_moved : ∀ {n}, f.Live isa n → n ∈ r.members →
    ((f.graph.node n).flags isa).returns = true → ∃ k, moved n k
  moved_spec : ∀ {n k}, moved n k → (f.graph.size < k ∧ k < f'.graph.size) ∧
    (f.Live isa n ∧ n ∈ r.members ∧ ((f.graph.node n).flags isa).returns = true) ∧
      IsExit isa (f'.graph.node n) k ∧ (f'.graph.node k).opcode = (f.graph.node n).opcode
  moved_inj : ∀ {n n' k}, moved n k → moved n' k → n = n'
  /-- The region has been opened, and others have taken in what was added inside them. -/
  settled : ∃ r', f'.table.regions[i]? = some r' ∧ r'.setup.isSome = true
  grown : ∀ {j r'}, j ≠ i → f.table.regions[j]? = some r' → r'.setup = none →
    ∃ r'', f'.table.regions[j]? = some r'' ∧ r''.setup = none ∧ r''.handler = r'.handler ∧
      ∀ n, n ∈ r''.members ↔ n ∈ r'.members ∨ AddedTo isa f r first exit moved r'.members n

variable (isa f r first) in
/-- A return was moved to `k`. -/
def MovedTo (n k : NodeId) : Prop :=
  (n, none) ∈ f.ways isa r first ∧ (n, k) ∈ (f.withExits isa r first).added

variable (isa f r first) in
/-- The exit for `m` is `k`. -/
def ExitFor (m k : NodeId) : Prop := (f.withExits isa r first).exitTo.lookup m = some k

theorem closed_iff {g : Graph} : g.Closed ↔ ∀ n m e, (g.node n).target e = some m → m < g.size := by
  constructor
  · intro hg n m e h
    cases e with
    | fallthrough => exact hg.lt_of_successor h
    | branch => exact hg.lt_of_branch h
  · intro h n _
    exact ⟨fun s hs => h n s .fallthrough hs, fun b hb => h n b .branch hb⟩

theorem IsExit.eq_of_target {node : Node} {k : NodeId} (h : IsExit isa node m)
    (htarget : node.target e = some k) : k = m := by
  cases e with
  | fallthrough => exact Option.some.inj (htarget.symm.trans h.successor)
  | branch =>
    have hbranch : node.branch = some k := htarget
    rw [h.branch] at hbranch
    cases hbranch

section Left

variable (hf : f.Valid)
include hf

theorem closed_withOpener (hfirst : first < f.graph.size) (hh : r.handler < f.graph.size) :
    (f.withOpener isa r first).Closed := by
  rw [closed_iff]
  intro n m e h
  have hn := Graph.lt_of_target h
  rw [size_withOpener] at hn ⊢
  rcases Nat.lt_succ_iff_lt_or_eq.mp hn with hn | rfl
  · rw [target_withOpener hn] at h
    split at h
    · obtain rfl := Option.some.inj h
      exact Nat.lt_succ_self _
    · exact Nat.lt_succ_of_lt (closed_iff.mp hf.closed n m e h)
  · rw [(opener_withOpener isa r first hf e).2] at h
    cases e with
    | fallthrough => exact Nat.lt_succ_of_lt (Option.some.inj h ▸ hfirst)
    | branch => exact Nat.lt_succ_of_lt (Option.some.inj h ▸ hh)

theorem closed_withExits (hisa : isa.Blocks) (hfirst : first < f.graph.size)
    (hh : r.handler < f.graph.size) : (f.withExits isa r first).graph.Closed := by
  have hclosing := closing_withExits isa r first hf
  have hle := hclosing.size_le
  have hexit : ∀ {m k}, IsExit isa ((f.withExits isa r first).graph.node k) m →
      m < (f.withExits isa r first).graph.size → ∀ {m' e},
        ((f.withExits isa r first).graph.node k).target e = some m' →
          m' < (f.withExits isa r first).graph.size := fun h hm _ _ htarget =>
    h.eq_of_target htarget ▸ hm
  rw [closed_iff]
  intro n m e h
  rcases Nat.lt_or_ge n (f.withOpener isa r first).size with hn | hn
  · by_cases hreturn : (n, none) ∈ f.ways isa r first
    · -- an exit in the place of a return
      obtain ⟨k, hk⟩ := hclosing.exists_moved hreturn
      obtain ⟨⟨-, hlt⟩, hexitn, -⟩ := hclosing.moved hreturn hk
      exact hexit hexitn hlt h
    by_cases hedge : ∃ m', (n, some (m', e)) ∈ f.ways isa r first
    · -- an edge over an exit
      obtain ⟨m', hm'⟩ := hedge
      obtain ⟨k, hlookup, htarget, -⟩ := hclosing.led hm'
      rw [← Option.some.inj (htarget.symm.trans h)]
      exact (hclosing.exit hlookup).1.2
    · rw [hclosing.kept hn hreturn fun m' hm' => hedge ⟨m', hm'⟩] at h
      exact Nat.lt_of_lt_of_le (closed_iff.mp (closed_withOpener hf hfirst hh) n m e h) hle
  · rcases hclosing.fresh hn (Graph.lt_of_target h) with ⟨m', hm'⟩ | ⟨n', hreturn, hn'⟩
    · obtain ⟨-, hexitn, n', e', hexiting⟩ := exitTo_spec hf hisa hm'
      have hlt : m' < f.graph.size := hf.lt_of_live (hexiting.live.step hexiting.edge)
      rw [size_withOpener] at hle
      exact hexit hexitn (Nat.lt_of_lt_of_le (Nat.lt_succ_of_lt hlt) hle) h
    · obtain ⟨-, -, -, htarget⟩ := hclosing.moved hreturn hn'
      rw [htarget] at h
      cases h

omit hf in
theorem handlers_written (hr : f.table.regions[i]? = some r) :
    (f.written isa i r first).table.handlers = f.table.handlers := by
  have hmap : (f.written isa i r first).table.regions.map (·.handler) =
      f.table.regions.map (·.handler) := by
    apply List.ext_getElem?
    intro j
    simp only [written, List.getElem?_map, List.getElem?_mapIdx, Option.map_map]
    refine Option.map_congr fun r' hr' => ?_
    by_cases hj : j = i
    · subst hj
      obtain rfl := Option.some.inj (hr.symm.trans hr')
      simp
    · simp only [Function.comp_apply, if_neg hj, enclose]
      split <;> rfl
  rw [RegionTable.handlers, RegionTable.handlers, hmap]

/-- What another declared region takes in. -/
theorem mem_enclose (hisa : isa.Blocks) {r' : Region} (hdeclared : r'.setup = none) :
    n ∈ (enclose f.graph.size (f.outsideOf isa r.members first)
        (f.withExits isa r first).added r').members ↔
      n ∈ r'.members ∨
        AddedTo isa f r first (f.ExitFor isa r first) (f.MovedTo isa r first) r'.members n := by
  have hclosing := closing_withExits isa r first hf
  simp only [enclose, hdeclared, Option.isSome_none, Bool.false_eq_true, if_false,
    Std.HashSet.mem_insertMany_list, List.contains_iff_mem, List.mem_append, List.mem_map,
    List.mem_filter, Std.HashSet.contains_iff_mem, Prod.exists]
  refine or_congr_right ⟨?_, ?_⟩
  · rintro (hopener | ⟨p, k, ⟨hadded, hp⟩, rfl⟩)
    · split at hopener
      · case _ hany =>
        obtain ⟨⟨p, e⟩, hout, hp⟩ := List.any_eq_true.mp hany
        obtain ⟨hl, hnot, hedge⟩ := (mem_outsideOf hf).mp hout
        obtain rfl := List.mem_singleton.mp hopener
        exact .opener hl hnot (Std.HashSet.contains_iff_mem.mp hp) hedge
      · cases hopener
    · rcases hclosing.added hadded with hreturn | ⟨m, e, hmem, hlookup⟩
      · exact .moved hp ⟨hreturn, hadded⟩
      · exact .exit ((edge_mem_ways hf hisa).mp hmem) hp hlookup
  · intro h
    cases h with
    | @opener p e hl hout hp hedge =>
      have hany : (f.outsideOf isa r.members first).any (fun p => r'.members.contains p.1) = true :=
        List.any_eq_true.mpr ⟨(p, e), (mem_outsideOf hf).mpr ⟨hl, hout, hedge⟩,
          Std.HashSet.contains_iff_mem.mpr hp⟩
      rw [if_pos hany]
      exact Or.inl List.mem_cons_self
    | @exit p m k e hexiting hp hk =>
      obtain ⟨k', hlookup, -, hadded⟩ := hclosing.led ((edge_mem_ways hf hisa).mpr hexiting)
      obtain rfl : k' = n := Option.some.inj (hlookup.symm.trans hk)
      exact Or.inr ⟨p, k', ⟨hadded, hp⟩, rfl⟩
    | @moved p k hp hk => exact Or.inr ⟨p, n, ⟨hk.2, hp⟩, rfl⟩

theorem valid_written (hisa : isa.Blocks) (hr : f.table.regions[i]? = some r)
    (hfirst : first < f.graph.size) : (f.written isa i r first).Valid := by
  have hclosing := closing_withExits isa r first hf
  have hle := hclosing.size_le
  rw [size_withOpener] at hle
  have hhandler : r.handler < f.graph.size :=
    hf.handler_lt _ (RegionTable.mem_handlers.mpr ⟨r, List.mem_of_getElem? hr, rfl⟩)
  refine ⟨closed_withExits hf hisa hfirst hhandler, ?_, fun h hh => ?_, fun r' hr' hdeclared n hn => ?_⟩
  · show (if first = f.entry then f.graph.size else f.entry) < _
    split
    · exact hle
    · exact Nat.lt_of_lt_of_le (Nat.lt_succ_of_lt hf.entry_lt) hle
  · rw [handlers_written hr] at hh
    exact Nat.lt_of_lt_of_le (Nat.lt_succ_of_lt (hf.handler_lt h hh)) hle
  · obtain ⟨j, hj, rfl⟩ := List.mem_mapIdx.mp hr'
    by_cases hji : j = i
    · -- the region itself is no longer declared
      rw [if_pos hji] at hdeclared
      cases hdeclared
    rw [if_neg hji] at hdeclared hn
    have hdeclared' : f.table.regions[j].setup = none := by
      rw [enclose] at hdeclared
      split at hdeclared
      · exact hdeclared
      · exact hdeclared
    rcases (mem_enclose hf hisa hdeclared').mp hn with hn | hn
    · exact Nat.lt_of_lt_of_le
        (Nat.lt_succ_of_lt (hf.member_lt _ (List.getElem_mem hj) hdeclared' n hn)) hle
    · cases hn with
      | opener => exact hle
      | exit _ _ hk => exact (hclosing.exit hk).1.2
      | moved _ hk => exact (hclosing.moved hk.1 hk.2).1.2

/-- **A region that is written leaves behind what it should.** -/
theorem exists_written (hisa : isa.Blocks) (hr : f.table.regions[i]? = some r)
    (h : f.region isa i r = .ok f') :
    ∃ first exit moved, Written isa f i r first exit moved f' := by
  obtain ⟨first, hfirst, rfl⟩ := (region_eq_ok_iff hf).mp h
  have hclosing := closing_withExits isa r first hf
  have hle := hclosing.size_le
  rw [size_withOpener] at hle
  have hlt : first < f.graph.size := hf.lt_of_live ((hfirst first).mpr rfl).live
  refine ⟨first, f.ExitFor isa r first, f.MovedTo isa r first, ?_⟩
  constructor
  case entered_iff => exact hfirst
  case valid => exact valid_written hf hisa hr hlt
  case size_lt => exact hle
  case entry_eq => rfl
  case handlers_eq => exact handlers_written hr
  case opener => exact (edges_opener (m := first) (e := .fallthrough) hf hisa).1
  case opener_edges => exact (edges_opener hf hisa).2
  case outside_edges => exact fun hl hm => edges_of_outside hf hisa hl hm
  case inside_edges => exact fun hl hm hreturns => edges_of_mem hf hisa hl hm hreturns
  case opcode_eq =>
    exact fun hl hnot => opcode_withExits hf (hf.lt_of_live hl) fun h =>
      hnot ((return_mem_ways hf).mp h).2
  case exists_exit =>
    intro n m e hexiting
    obtain ⟨k, hlookup, -⟩ := hclosing.led ((edge_mem_ways hf hisa).mpr hexiting)
    exact ⟨k, hlookup⟩
  case exit_spec => exact fun hk => exitTo_spec hf hisa hk
  case exit_unique => exact fun hk hk' => Option.some.inj (hk.symm.trans hk')
  case exists_moved =>
    intro n hl hm hreturns
    have hreturn : (n, none) ∈ f.ways isa r first := (return_mem_ways hf).mpr ⟨hl, hm, hreturns⟩
    obtain ⟨k, hk⟩ := hclosing.exists_moved hreturn
    exact ⟨k, hreturn, hk⟩
  case moved_spec =>
    intro n k hk
    have hn := (return_mem_ways hf).mp hk.1
    obtain ⟨⟨hlow, hhigh⟩, hexit, hbody, -⟩ := hclosing.moved hk.1 hk.2
    rw [size_withOpener] at hlow
    refine ⟨⟨hlow, hhigh⟩, hn, hexit, ?_⟩
    exact (Node.opcode_of_body hbody).trans (Node.opcode_of_body (body_withOpener (hf.lt_of_live hn.1)))
  case moved_inj => exact fun hk hk' => hclosing.moved_inj hk.1 hk'.1 hk.2 hk'.2
  case settled =>
    refine ⟨_, List.getElem?_mapIdx.trans (congrArg _ hr), ?_⟩
    beta_reduce
    rw [if_pos rfl]
    rfl
  case grown =>
    intro j r' hj hr' hdeclared
    refine ⟨_, List.getElem?_mapIdx.trans (congrArg _ hr'), ?_⟩
    beta_reduce
    rw [if_neg hj]
    refine ⟨?_, ?_, fun n => mem_enclose hf hisa hdeclared⟩
    · simp [enclose, hdeclared]
    · simp [enclose, hdeclared]

end Left

/-! ### Where execution gets afterwards -/

/-- What a node is after a region has been written: the opener, an exit, a moved return, or
something that execution got to before. -/
inductive Place (isa : InstructionSet) (f : Flattening) (exit moved : NodeId → NodeId → Prop) :
    NodeId → Prop
  | opener : Place isa f exit moved f.graph.size
  | old {n : NodeId} (h : f.Live isa n) : Place isa f exit moved n
  | exit {m k : NodeId} (h : exit m k) : Place isa f exit moved k
  | moved {n k : NodeId} (h : moved n k) : Place isa f exit moved k

/-- A step of execution after a region has been written, by what it was before. -/
inductive Leads (isa : InstructionSet) (f : Flattening) (r : Region) (first : NodeId)
    (exit moved : NodeId → NodeId → Prop) : NodeId → NodeId → Edge → Prop
  | opened : Leads isa f r first exit moved f.graph.size first .fallthrough
  | handled : Leads isa f r first exit moved f.graph.size r.handler .branch
  /-- The region is entered by its opener. -/
  | entering {p : NodeId} {e : Edge} (hl : f.Live isa p) (hm : p ∉ r.members)
      (hedge : (first, e) ∈ f.graph.edges isa p) : Leads isa f r first exit moved p f.graph.size e
  /-- Other edges outside are as they were. -/
  | outside {p m : NodeId} {e : Edge} (hl : f.Live isa p) (hm : p ∉ r.members)
      (hedge : (m, e) ∈ f.graph.edges isa p) (hne : m ≠ first) :
      Leads isa f r first exit moved p m e
  | inside {p m : NodeId} {e : Edge} (hl : f.Live isa p) (hm : p ∈ r.members)
      (hedge : (m, e) ∈ f.graph.edges isa p) (hnot : ¬ f.Exiting isa r.members p m e) :
      Leads isa f r first exit moved p m e
  /-- The region is left by an exit. -/
  | leaving {p m k : NodeId} {e : Edge} (hexiting : f.Exiting isa r.members p m e) (hk : exit m k) :
      Leads isa f r first exit moved p k e
  | exit {m k : NodeId} (hk : exit m k) : Leads isa f r first exit moved k m .fallthrough
  /-- The exit that took the place of a return leads to it. -/
  | returned {n k : NodeId} (hk : moved n k) : Leads isa f r first exit moved n k .fallthrough

namespace Written

variable {exit moved : NodeId → NodeId → Prop}

section

variable (hisa : isa.Blocks) (w : Written isa f i r first exit moved f')
include hisa w

theorem moved_edges {n k m : NodeId} {e : Edge} (h : moved n k) : (m, e) ∉ f'.graph.edges isa k := by
  obtain ⟨-, ⟨-, -, hreturns⟩, -, hopcode⟩ := w.moved_spec h
  intro hedge
  have hreturns' := returns_eq_false hisa hedge
  rw [Node.flags, hopcode] at hreturns'
  exact Bool.false_ne_true (hreturns'.symm.trans hreturns)

omit hisa in
theorem exit_inj {m m' k : NodeId} (h : exit m k) (h' : exit m' k) : m = m' := by
  obtain ⟨-, hexit, -⟩ := w.exit_spec h
  obtain ⟨-, hexit', -⟩ := w.exit_spec h'
  exact Option.some.inj (hexit.successor.symm.trans hexit'.successor)

theorem not_moved_of_exit {m n k : NodeId} (h : exit m k) : ¬ moved n k := fun h' => by
  obtain ⟨-, hexit, -⟩ := w.exit_spec h
  obtain ⟨-, ⟨-, -, hreturns⟩, -, hopcode⟩ := w.moved_spec h'
  rw [Node.flags, ← hopcode, hexit.opcode, hisa.exit.2.2.2.2] at hreturns
  cases hreturns

theorem leads_of_place {p : NodeId} (hp : Place isa f exit moved p)
    (hedge : (n, e) ∈ f'.graph.edges isa p) : Leads isa f r first exit moved p n e := by
  cases hp with
  | opener =>
    rcases w.opener_edges.mp hedge with ⟨rfl, rfl⟩ | ⟨rfl, rfl⟩
    · exact .opened
    · exact .handled
  | old hl =>
    by_cases hmem : p ∈ r.members
    · cases hreturns : ((f.graph.node p).flags isa).returns with
      | false =>
        rcases (w.inside_edges hl hmem hreturns).mp hedge with ⟨hedge, hnot⟩ | ⟨m, hexiting, hk⟩
        · exact .inside hl hmem hedge hnot
        · exact .leaving hexiting hk
      | true =>
        obtain ⟨k, hk⟩ := w.exists_moved hl hmem hreturns
        obtain ⟨-, -, hexit, -⟩ := w.moved_spec hk
        obtain ⟨rfl, rfl⟩ := (hexit.mem_edges_iff hisa).mp hedge
        exact .returned hk
    · obtain ⟨m, hm, rfl⟩ := (w.outside_edges hl hmem).mp hedge
      split
      · case _ hfirst => exact .entering hl hmem (hfirst ▸ hm)
      · case _ hne => exact .outside hl hmem hm hne
  | exit hk =>
    obtain ⟨-, hexit, -⟩ := w.exit_spec hk
    obtain ⟨rfl, rfl⟩ := (hexit.mem_edges_iff hisa).mp hedge
    exact .exit hk
  | moved hk => exact absurd hedge (w.moved_edges hisa hk)

omit hisa in
theorem place_of_leads (hr : r.handler ∈ f.table.handlers) {p : NodeId}
    (h : Leads isa f r first exit moved p n e) : Place isa f exit moved n := by
  cases h with
  | opened => exact .old ((w.entered_iff first).mpr rfl).live
  | handled => exact .old (.root (List.mem_cons_of_mem _ hr))
  | entering => exact .opener
  | outside hl _ hedge _ => exact .old (hl.step hedge)
  | inside hl _ hedge _ => exact .old (hl.step hedge)
  | leaving _ hk => exact .exit hk
  | exit hk =>
    obtain ⟨-, -, q, e', hexiting⟩ := w.exit_spec hk
    exact .old (hexiting.live.step hexiting.edge)
  | returned hk => exact .moved hk

/-- **Execution gets to nothing else.** -/
theorem place (hr : r.handler ∈ f.table.handlers) (h : f'.Live isa n) : Place isa f exit moved n := by
  refine Reach.induct (Q := Place isa f exit moved) (fun root hroot => ?_) (fun p n hp hn => ?_) h
  · rcases List.mem_cons.mp hroot with rfl | hroot
    · rw [w.entry_eq]
      split
      · exact .opener
      · exact .old (.root List.mem_cons_self)
    · rw [w.handlers_eq] at hroot
      exact .old (.root (List.mem_cons_of_mem _ hroot))
  · obtain ⟨e, hedge⟩ := Graph.mem_targets_iff.mp hn
    exact w.place_of_leads hr (w.leads_of_place hisa hp hedge)

/-- **Every step of execution afterwards** is one of the ways in which one can lead on. -/
theorem leads (hr : r.handler ∈ f.table.handlers) {p : NodeId} (h : f'.Live isa p)
    (hedge : (n, e) ∈ f'.graph.edges isa p) : Leads isa f r first exit moved p n e :=
  w.leads_of_place hisa (w.place hisa hr h) hedge

omit hisa in
theorem live_first (h : f'.Live isa f.graph.size) : f'.Live isa first :=
  h.step (w.opener_edges.mpr (Or.inl ⟨rfl, rfl⟩))

/-- **Nothing is cut off.** -/
theorem live_old (h : f.Live isa n) : f'.Live isa n := by
  refine (Reach.induct (Q := fun n => f.Live isa n ∧ f'.Live isa n) (fun root hroot => ?_)
    (fun p n hp hn => ?_) h).2
  · refine ⟨.root hroot, ?_⟩
    rcases List.mem_cons.mp hroot with rfl | hroot
    · have hentry : f'.Live isa f'.entry := .root List.mem_cons_self
      rw [w.entry_eq] at hentry
      split at hentry
      · case _ hfirst => exact hfirst ▸ w.live_first hentry
      · exact hentry
    · exact .root (List.mem_cons_of_mem _ (w.handlers_eq ▸ hroot))
  obtain ⟨hold, hnew⟩ := hp
  obtain ⟨e, hedge⟩ := Graph.mem_targets_iff.mp hn
  refine ⟨hold.step hedge, ?_⟩
  by_cases hmem : p ∈ r.members
  · have hreturns := returns_eq_false hisa hedge
    by_cases hexiting : f.Exiting isa r.members p n e
    · obtain ⟨k, hk⟩ := w.exists_exit hexiting
      obtain ⟨-, hexit, -⟩ := w.exit_spec hk
      have hlive : f'.Live isa k :=
        hnew.step ((w.inside_edges hold hmem hreturns).mpr (Or.inr ⟨n, hexiting, hk⟩))
      exact hlive.step ((hexit.mem_edges_iff hisa).mpr ⟨rfl, rfl⟩)
    · exact hnew.step ((w.inside_edges hold hmem hreturns).mpr (Or.inl ⟨hedge, hexiting⟩))
  · have hlive := hnew.step ((w.outside_edges hold hmem).mpr ⟨n, hedge, rfl⟩)
    split at hlive
    · case _ hfirst => exact hfirst ▸ w.live_first hlive
    · exact hlive

theorem live_opener : f'.Live isa f.graph.size := by
  obtain ⟨-, hmem, hin⟩ := (w.entered_iff first).mpr rfl
  rcases hin with hentry | ⟨p, e, hp, hout, hedge⟩
  · have hroot : f'.Live isa f'.entry := .root List.mem_cons_self
    rwa [w.entry_eq, if_pos hentry] at hroot
  · have hlive := (w.live_old hisa hp).step ((w.outside_edges hp hout).mpr ⟨first, hedge, rfl⟩)
    rwa [if_pos rfl] at hlive

end

end Written

end Flattening

end Wordcode
