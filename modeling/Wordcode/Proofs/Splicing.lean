/-
# What a refused splice leaves behind

A splice is refused at the first node, of the one it goes after and the list but for its last,
that does not fall through (`Graph.stopsAt?`). The neighbours in front of that node have been
linked by then, and stay so: each of them has as its successor what stands behind it in the
list, at its last place there if it occurs more than once (`Graph.node_chain`). All else is as
it was. So a refused splice changes nothing only if it is refused before it links anything, or
if what it linked was linked already (`Graph.insertAfter_refused`).

Key definitions: `Graph.linkedPairs`, `Graph.chain`, `Graph.stopsAt?`, `Graph.leftLinks`.
Key theorems: `Graph.link_eq`, `Graph.node_chain`, `Graph.insertAfter_refused`.
-/
import Wordcode.Graph.Splice
import Wordcode.Proofs.BuiltIn
import Wordcode.Proofs.SameCode

namespace Wordcode

namespace Graph

variable {isa : InstructionSet} {g : Graph} {n m : NodeId} {nodes : List NodeId}

/-! ### Links -/

/-- The neighbours in a list, up to the first that cannot be linked. -/
def linkedPairs (isa : InstructionSet) (g : Graph) (nodes : List NodeId) :
    List (NodeId × NodeId) :=
  (nodes.zip nodes.tail).takeWhile fun p => (g.node p.1).fallsThrough isa

/-- Makes the second of each pair the successor of the first, one pair after the other. -/
def chain (g : Graph) (pairs : List (NodeId × NodeId)) : Graph :=
  pairs.foldl (fun g p => g.redirect p.1 .fallthrough (some p.2)) g

/-- What the last of the pairs that begin with `m` ends with. -/
def follower? (pairs : List (NodeId × NodeId)) (m : NodeId) : Option NodeId :=
  pairs.reverse.lookup m

theorem follower?_cons (p : NodeId × NodeId) (pairs : List (NodeId × NodeId)) (m : NodeId) :
    follower? (p :: pairs) m = (follower? pairs m).or (if p.1 = m then some p.2 else none) := by
  rw [follower?, List.reverse_cons, List.lookup_append, ← follower?, List.lookup_cons]
  by_cases h : p.1 = m
  · simp [h]
  · have hne : (m == p.1) = false := beq_eq_false_iff_ne.mpr (Ne.symm h)
    rw [hne, if_neg h]
    rfl

theorem size_chain : ∀ (pairs : List (NodeId × NodeId)) (g : Graph), (g.chain pairs).size = g.size
  | [], _ => rfl
  | p :: pairs, g => by
    rw [chain, List.foldl_cons, ← chain, size_chain pairs, size_redirect]

/-- Successors change where a pair begins, and nothing else does. -/
theorem node_chain : ∀ (pairs : List (NodeId × NodeId)) (g : Graph), m < g.size →
    (g.chain pairs).node m =
      { g.node m with successor := (follower? pairs m).or (g.node m).successor }
  | [], _, _ => rfl
  | p :: pairs, g, hm => by
    have hrest := node_chain pairs (g.redirect p.1 .fallthrough (some p.2))
      (by rwa [size_redirect])
    rw [chain, List.foldl_cons, ← chain, hrest, follower?_cons, node_redirect]
    by_cases h : p.1 = m
    · rw [if_pos ⟨h, hm⟩, if_pos h, Option.or_assoc, Option.some_or]
      rfl
    · rw [if_neg fun hp => h hp.1, if_neg h, Option.or_none]

theorem chain_eq_self_iff (pairs : List (NodeId × NodeId)) (g : Graph) : g.chain pairs = g ↔
    ∀ m < g.size, ∀ next, follower? pairs m = some next → (g.node m).successor = some next := by
  constructor
  · intro h m hm next hnext
    have hnode := node_chain pairs g hm
    rw [h, hnext, Option.some_or] at hnode
    rw [hnode]
  · intro h
    refine eq_of_node (size_chain pairs g) fun m hm => ?_
    rw [node_chain pairs g hm]
    cases hnext : follower? pairs m with
    | none => rw [Option.none_or]
    | some next => rw [Option.some_or, ← h m hm next hnext]

/-! ### Linking a list -/

theorem opcode_redirect (e : Edge) (target : Option NodeId) :
    ((g.redirect n e target).node m).opcode = (g.node m).opcode := by
  rw [node_redirect]
  split
  · exact Node.opcode_withEdge _ _ _
  · rfl

theorem fallsThrough_redirect (e : Edge) (target : Option NodeId) :
    ((g.redirect n e target).node m).fallsThrough isa = (g.node m).fallsThrough isa := by
  rw [Node.fallsThrough, Node.fallsThrough, Node.flags, Node.flags, opcode_redirect]

/-- The first of some nodes that does not fall through. -/
def firstTerminal? (isa : InstructionSet) (g : Graph) (nodes : List NodeId) : Option NodeId :=
  nodes.find? fun m => !(g.node m).fallsThrough isa

/-- What is said of a list in which a node cannot be linked to the next. -/
def refusal (g : Graph) : Option NodeId → Except GraphError Unit
  | none => .ok ()
  | some m => .error (.insertAfterTerminal (g.node m).opcode)

theorem refusal_redirect (e : Edge) (target : Option NodeId) (stop : Option NodeId) :
    (g.redirect n e target).refusal stop = g.refusal stop := by
  cases stop with
  | none => rfl
  | some m => rw [refusal, refusal, opcode_redirect]

/-- Links are made up to the node that refuses, and what links are made does not change which
one that is. -/
theorem link_eq : ∀ (nodes : List NodeId) (g : Graph), g.link isa nodes =
    (g.chain (g.linkedPairs isa nodes), g.refusal (g.firstTerminal? isa nodes.dropLast))
  | [], _ => rfl
  | [_], _ => rfl
  | a :: b :: rest, g => by
    have hpairs : (a :: b :: rest).zip (a :: b :: rest).tail =
        (a, b) :: (b :: rest).zip (b :: rest).tail := rfl
    rw [link, linkedPairs, hpairs, List.takeWhile_cons, List.dropLast_cons_cons, firstTerminal?,
      List.find?_cons]
    by_cases hfalls : (g.node a).fallsThrough isa = true
    · -- the rest is linked in another graph, with the same opcodes
      have ih := link_eq (b :: rest) (g.redirect a .fallthrough (some b))
      simp only [linkedPairs, firstTerminal?, fallsThrough_redirect, refusal_redirect] at ih
      rw [if_pos hfalls, ih, if_pos hfalls, hfalls]
      rfl
    · rw [if_neg hfalls, if_neg hfalls, Bool.not_eq_true _ |>.mp hfalls]
      rfl

/-! ### Splices -/

/-- Where a splice of `nodes` after `n` is refused. -/
def stopsAt? (isa : InstructionSet) (g : Graph) (n : NodeId) (nodes : List NodeId) :
    Option NodeId :=
  g.firstTerminal? isa (n :: nodes.dropLast)

/-- The links that are left if it is. -/
def leftLinks (isa : InstructionSet) (g : Graph) (n : NodeId) (nodes : List NodeId) :
    List (NodeId × NodeId) :=
  if (g.node n).fallsThrough isa then g.linkedPairs isa nodes else []

theorem stopsAt?_of_fallsThrough (h : (g.node n).fallsThrough isa = true) :
    g.stopsAt? isa n nodes = g.firstTerminal? isa nodes.dropLast := by
  rw [stopsAt?, firstTerminal?, List.find?_cons, h]
  rfl

theorem insertAfter_of_stopsAt? {stop : NodeId} (h : g.stopsAt? isa n nodes = some stop) :
    g.insertAfter isa n nodes =
      (g.chain (g.leftLinks isa n nodes), .error (.insertAfterTerminal (g.node stop).opcode)) := by
  by_cases hfalls : (g.node n).fallsThrough isa = true
  · rw [stopsAt?_of_fallsThrough hfalls] at h
    rw [insertAfter, leftLinks, hfalls, if_pos rfl]
    cases nodes with
    | nil => cases h
    | cons first rest =>
      rw [List.head?_cons, List.getLast?_cons, link_eq, h]
      rfl
  · have hstop : stop = n := by
      rw [stopsAt?, firstTerminal?, List.find?_cons_of_pos (by simp [hfalls])] at h
      exact (Option.some.inj h).symm
    rw [insertAfter, leftLinks, if_pos (by simp [hfalls]), if_neg hfalls, hstop]
    rfl

theorem insertAfter_of_not_stopsAt? (h : g.stopsAt? isa n nodes = none) :
    (g.insertAfter isa n nodes).2 = .ok () := by
  have hfalls : (g.node n).fallsThrough isa = true := by
    simpa using List.find?_eq_none.mp h n List.mem_cons_self
  rw [stopsAt?_of_fallsThrough hfalls] at h
  rw [insertAfter, hfalls]
  cases nodes with
  | nil => rfl
  | cons first rest =>
    rw [List.head?_cons, List.getLast?_cons, link_eq, h]
    rfl

/-- **A refused splice leaves the links in front of the node that refuses it.** A splice is refused
if the node that it goes after or one of the list but its last does not fall through. The nodes in
front of that one have new successors then, and nothing else has changed; so nothing has changed at
all only if they led there before. -/
theorem insertAfter_refused (isa : InstructionSet) (g : Graph) (n : NodeId) (nodes : List NodeId) :
    (g.insertAfter isa n nodes).2 = g.refusal (g.stopsAt? isa n nodes) ∧
    ∀ e, (g.insertAfter isa n nodes).2 = .error e →
      (g.insertAfter isa n nodes).1.size = g.size ∧
      (∀ m < g.size, (g.insertAfter isa n nodes).1.node m = { g.node m with
        successor := (follower? (g.leftLinks isa n nodes) m).or (g.node m).successor }) ∧
      ((g.insertAfter isa n nodes).1 = g ↔ ∀ m < g.size, ∀ next,
        follower? (g.leftLinks isa n nodes) m = some next → (g.node m).successor = some next) := by
  cases hstop : g.stopsAt? isa n nodes with
  | none =>
    have hok := insertAfter_of_not_stopsAt? hstop
    refine ⟨hok, fun e he => ?_⟩
    rw [hok] at he
    cases he
  | some stop =>
    rw [insertAfter_of_stopsAt? hstop]
    exact ⟨rfl, fun _ _ => ⟨size_chain _ g, fun m hm => node_chain _ g hm,
      chain_eq_self_iff _ g⟩⟩

/-! ### A splice that is refused at a return -/

/-- Two instructions that do nothing and a return; and beside them another return and one more
instruction that does nothing. -/
def threaded : Graph :=
  ⟨#[{ opcode := ⟨9⟩, successor := some 1 }, { opcode := ⟨9⟩, successor := some 2 },
    { opcode := ⟨83⟩ }, { opcode := ⟨83⟩ }, { opcode := ⟨9⟩ }]⟩

namespace threaded

theorem fallsThrough_iff {m : NodeId} (hm : m < 5) :
    (threaded.node m).fallsThrough .python38 = !(m == 2 || m == 3) := by
  rw [Node.fallsThrough, Node.flags, InstructionSet.flags, InstructionSet.info_python38]
  revert m
  decide +kernel

end threaded

/-- The list goes through one node twice before it is refused: what stays is its second link. -/
theorem insertAfter_refused_twice :
    (threaded.insertAfter .python38 0 [1, 4, 1, 3, 4]).2 = .error (.insertAfterTerminal ⟨83⟩) ∧
      ((threaded.insertAfter .python38 0 [1, 4, 1, 3, 4]).1.node 1).successor = some 3 ∧
      ((threaded.insertAfter .python38 0 [1, 4, 1, 3, 4]).1.node 4).successor = some 1 ∧
      ((threaded.insertAfter .python38 0 [1, 4, 1, 3, 4]).1.node 0).successor = some 1 := by
  have hlinks : threaded.leftLinks .python38 0 [1, 4, 1, 3, 4] = [(1, 4), (4, 1), (1, 3)] := by
    simp [leftLinks, linkedPairs, threaded.fallsThrough_iff]
  have hstop : threaded.stopsAt? .python38 0 [1, 4, 1, 3, 4] = some 3 := by
    simp [stopsAt?, firstTerminal?, threaded.fallsThrough_iff]
  obtain ⟨houtcome, hleft⟩ := insertAfter_refused .python38 threaded 0 [1, 4, 1, 3, 4]
  rw [hstop] at houtcome
  obtain ⟨-, hnode, -⟩ := hleft _ houtcome
  rw [hlinks] at hnode
  refine ⟨houtcome, ?_, ?_, ?_⟩
  · rw [hnode 1 (by decide)]
    rfl
  · rw [hnode 4 (by decide)]
    rfl
  · rw [hnode 0 (by decide)]
    rfl

/-- **A refused splice can lead running code elsewhere.** The second instruction of the code is in
front of the return that refuses the splice, and goes on there. -/
theorem rerouted_of_refused :
    (threaded.insertAfter .python38 0 [1, 3, 4]).2 = .error (.insertAfterTerminal ⟨83⟩) ∧
      (threaded.node 1).successor = some 2 ∧
      ((threaded.insertAfter .python38 0 [1, 3, 4]).1.node 1).successor = some 3 := by
  have hlinks : threaded.leftLinks .python38 0 [1, 3, 4] = [(1, 3)] := by
    simp [leftLinks, linkedPairs, threaded.fallsThrough_iff]
  have hstop : threaded.stopsAt? .python38 0 [1, 3, 4] = some 3 := by
    simp [stopsAt?, firstTerminal?, threaded.fallsThrough_iff]
  rw [insertAfter_of_stopsAt? hstop, hlinks, node_chain _ threaded (by decide)]
  exact ⟨rfl, rfl, rfl⟩

end Graph

end Wordcode
