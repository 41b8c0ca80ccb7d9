/-
# Depth-first search

`explore` visits states in depth-first order: the states next to a visited one
come before those that were waiting, in their order. States with the same key
count as one, and only the first of them is visited. Each step visits a state
with a new key, so a search over at most `room` keys ends by itself.

Walks over a graph are searches along its edges. A search from the heads of
chains, along successors alone, lists the chains one after the other.

Key definitions: `explore`, `firsts`, `Graph.reachable`, `Graph.reachable?`,
`Graph.chains`.
Key theorems: `exploreFrom_nil`, `exploreFrom_cons_seen`,
`exploreFrom_cons_new`.
-/
import Std.Data.HashSet
import Wordcode.Graph
import Wordcode.Error

namespace Wordcode

section Explore

variable {α κ : Type} [BEq κ] [Hashable κ]

/-- The search with states `work` waiting, keys `seen` visited, and at most `room`
keys still to come. -/
def exploreFrom (key : α → κ) (next : α → List α) :
    (room : Nat) → (work : List α) → (seen : Std.HashSet κ) → (found : Array α) → Array α
  | 0, _, _, found => found
  | room + 1, work, seen, found =>
    match work.dropWhile fun a => seen.contains (key a) with
    | [] => found
    | a :: rest => exploreFrom key next room (next a ++ rest) (seen.insert (key a)) (found.push a)

/-- The states found from `roots`, in the order of the search. -/
def explore (key : α → κ) (next : α → List α) (room : Nat) (roots : List α) : List α :=
  (exploreFrom key next room roots ∅ #[]).toList

/-- Each element once, in the order in which they first occur. -/
def firsts (xs : List κ) : List κ := explore id (fun _ => []) xs.length xs

theorem exploreFrom_nil (key : α → κ) (next : α → List α) (room : Nat) (seen : Std.HashSet κ)
    (found : Array α) : exploreFrom key next room [] seen found = found := by
  cases room <;> rfl

/-- A waiting state that was visited is passed over. -/
theorem exploreFrom_cons_seen (key : α → κ) (next : α → List α) (room : Nat) {a : α}
    (work : List α) {seen : Std.HashSet κ} (found : Array α) (h : seen.contains (key a) = true) :
    exploreFrom key next room (a :: work) seen found = exploreFrom key next room work seen found := by
  cases room with
  | zero => rfl
  | succ room => simp only [exploreFrom, List.dropWhile_cons, h, if_true]

/-- A waiting state that is new is visited, and what is next to it comes first. -/
theorem exploreFrom_cons_new (key : α → κ) (next : α → List α) (room : Nat) {a : α}
    (work : List α) {seen : Std.HashSet κ} (found : Array α) (h : seen.contains (key a) = false) :
    exploreFrom key next (room + 1) (a :: work) seen found =
      exploreFrom key next room (next a ++ work) (seen.insert (key a)) (found.push a) := by
  simp only [exploreFrom, List.dropWhile_cons, h, Bool.false_eq_true, if_false]

end Explore

namespace Graph

variable (isa : InstructionSet) (g : Graph)

/-- The nodes that execution can get to from `roots`, in the order of the search. -/
def reachable (roots : List NodeId) : List NodeId := explore id (g.targets isa) g.size roots

/-- What is missing at a node whose flags ask for more edges than it has. -/
def missingEdge? (n : NodeId) : Option GraphError :=
  let node := g.node n
  if node.fallsThrough isa ∧ node.successor = none then
    some (.danglingSuccessor node.opcode node.offset)
  else if node.isJump isa ∧ node.branch = none then
    some (.missingBranchTarget node.opcode node.offset)
  else none

/-- The reachable nodes, if each of them has all its edges; else what is missing
at the first that has not. -/
def reachable? (roots : List NodeId) : Except GraphError (List NodeId) :=
  let found := g.reachable isa roots
  match found.findSome? (g.missingEdge? isa) with
  | some e => .error e
  | none => .ok found

/-- The chains of fall-through from `heads`, one after the other; a chain ends
where it meets a node already listed. -/
def chains (heads : List NodeId) : List NodeId :=
  explore id (fun n => (g.fallthrough? isa n).toList) g.size heads

end Graph

end Wordcode
