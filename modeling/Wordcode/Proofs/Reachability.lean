/-
# What a search finds

A depth-first search visits every state that can be reached from its roots,
once, and nothing else. The argument is in two parts. `exploreFrom_run` is the
run of the search: whatever passing over a visited state and visiting a new one
both keep holds at the end, and the room is never used up, because each visit
takes one key from those not seen yet. `Searching` is what both steps keep: what
was visited or waits can be reached, and what is next to a visited state was
visited or waits. When nothing waits the visited states are closed under going
on, so they are all that can be reached.

A search may also keep books of its own on the way, and tell from them what it
visited (`exploreInto`); these are then a function of what the search finds.

For a graph this says what `Graph.reachable` lists, and when a node on the way
lacks an edge that its flags ask for.

Key definitions: `Reach`, `Explores`, `exploreInto`, `Searching`, `Graph.Live`,
`Graph.HasEdges`.
Key theorems: `exploreFrom_run`, `exists_explores`, `exploreInto_eq`, `mem_explore`,
`nodup_explore`, `explores_below`, `Graph.mem_reachable`, `Graph.nodup_reachable`,
`Graph.reachable?_eq_ok_iff`, `Graph.reachable?_eq_error_iff`.
-/
import Mathlib.Data.List.Nodup
import Mathlib.Logic.Relation
import Mathlib.Tactic.Tauto
import Std.Data.HashSet.Lemmas
import Wordcode.Graph.Walk

namespace Wordcode

/-! ### The run of a search -/

section Run

variable {α κ : Type} [BEq κ] [Hashable κ] [LawfulBEq κ] [LawfulHashable κ]

/-- How many of `keys` were not visited yet. -/
def unseen (keys : List κ) (seen : Std.HashSet κ) : Nat := keys.countP fun k => !seen.contains k

theorem unseen_insert_le (keys : List κ) (seen : Std.HashSet κ) (k : κ) :
    unseen keys (seen.insert k) ≤ unseen keys seen := by
  refine List.countP_mono_left fun j _ h => ?_
  rw [Std.HashSet.contains_insert] at h
  simp only [Bool.not_eq_true', Bool.or_eq_false_iff] at h ⊢
  exact h.2

theorem unseen_insert_lt {seen : Std.HashSet κ} {k : κ} (h : seen.contains k = false) :
    ∀ {keys : List κ}, k ∈ keys → unseen keys (seen.insert k) < unseen keys seen
  | j :: keys, hk => by
    have hle := unseen_insert_le keys seen k
    simp only [unseen, List.countP_cons] at hle ⊢
    rw [Std.HashSet.contains_insert]
    by_cases hj : k = j
    · subst hj
      simp only [beq_self_eq_true, Bool.true_or, Bool.not_true, Bool.false_eq_true, ↓reduceIte, h,
        Bool.not_false]
      omega
    · have hlt := unseen_insert_lt h (List.mem_of_ne_of_mem hj hk)
      have hne : (k == j) = false := beq_false_of_ne hj
      simp only [unseen] at hlt
      simp only [hne, Bool.false_or]
      omega

/-- **The run of a search.** What passing over a visited state and visiting a new
one both keep holds when the search ends with nothing waiting, if the keys are
among `keys` and there is room for those not seen yet. -/
theorem exploreFrom_run {key : α → κ} {next : α → List α}
    {P : List α → Std.HashSet κ → Array α → Prop}
    (pass : ∀ {a work seen found}, seen.contains (key a) = true → P (a :: work) seen found →
      P work seen found)
    (visit : ∀ {a work seen found}, seen.contains (key a) = false → P (a :: work) seen found →
      P (next a ++ work) (seen.insert (key a)) (found.push a))
    {keys : List κ} (hkeys : ∀ a, key a ∈ keys → ∀ b ∈ next a, key b ∈ keys) :
    ∀ (room : Nat) (work : List α) (seen : Std.HashSet κ) (found : Array α),
      (∀ a ∈ work, key a ∈ keys) → unseen keys seen ≤ room → P work seen found →
      ∃ seen', P [] seen' (exploreFrom key next room work seen found)
  | room, [], seen, found, _, _, h => ⟨seen, by rw [exploreFrom_nil]; exact h⟩
  | room, a :: work, seen, found, hwork, hroom, h => by
    have ha : key a ∈ keys := hwork a List.mem_cons_self
    have hrest : ∀ b ∈ work, key b ∈ keys := fun b hb => hwork b (List.mem_cons_of_mem _ hb)
    cases hs : seen.contains (key a) with
    | true =>
      rw [exploreFrom_cons_seen key next room work found hs]
      exact exploreFrom_run pass visit hkeys room work seen found hrest hroom (pass hs h)
    | false =>
      have hlt := unseen_insert_lt hs ha
      obtain ⟨room, rfl⟩ : ∃ r, room = r + 1 := ⟨room - 1, by omega⟩
      rw [exploreFrom_cons_new key next room work found hs]
      refine exploreFrom_run pass visit hkeys room _ _ _ ?_ (by omega) (visit hs h)
      intro b hb
      rcases List.mem_append.mp hb with hb | hb
      · exact hkeys a ha b hb
      · exact hrest b hb
termination_by room work => (room, work.length)

/-- The search without a bound on its visits: with states `work` waiting, keys `seen`
visited and `found` visited so far, it takes `steps` steps to its end, when `result` was
visited. Each step takes the first of the waiting states. -/
inductive Explores (key : α → κ) (next : α → List α) : (steps : Nat) → (work : List α) →
    (seen : Std.HashSet κ) → (found result : Array α) → Prop
  | done {seen : Std.HashSet κ} {found : Array α} : Explores key next 0 [] seen found found
  | pass {steps : Nat} {a : α} {work : List α} {seen : Std.HashSet κ} {found result : Array α}
      (hs : seen.contains (key a) = true) (h : Explores key next steps work seen found result) :
      Explores key next (steps + 1) (a :: work) seen found result
  | visit {steps : Nat} {a : α} {work : List α} {seen : Std.HashSet κ} {found result : Array α}
      (hs : seen.contains (key a) = false)
      (h : Explores key next steps (next a ++ work) (seen.insert (key a)) (found.push a) result) :
      Explores key next (steps + 1) (a :: work) seen found result

/-- **The search ends by itself.** Its bound is never met if there is room for all keys. -/
theorem exists_explores (key : α → κ) (next : α → List α) {roots : List α} {keys : List κ}
    (hroots : ∀ r ∈ roots, key r ∈ keys) (hkeys : ∀ a, key a ∈ keys → ∀ b ∈ next a, key b ∈ keys)
    {room : Nat} (hroom : keys.length ≤ room) :
    ∃ steps found, Explores key next steps roots ∅ #[] found ∧
      explore key next room roots = found.toList := by
  -- a search under way is the rest of the search from the roots
  let P : List α → Std.HashSet κ → Array α → Prop := fun work seen found => ∀ {steps result},
    Explores key next steps work seen found result →
      ∃ steps, Explores key next steps roots ∅ #[] result
  have hrun : ∃ seen, P [] seen (exploreFrom key next room roots ∅ #[]) := by
    refine exploreFrom_run (P := P) (fun hs h _ _ he => h (.pass hs he))
      (fun hs h _ _ he => h (.visit hs he)) hkeys room roots ∅ #[] hroots ?_ fun he => ⟨_, he⟩
    exact Nat.le_trans (List.countP_le_length ..) hroom
  obtain ⟨seen, h⟩ := hrun
  obtain ⟨steps, hsteps⟩ := h .done
  exact ⟨steps, _, hsteps, rfl⟩

end Run

/-! ### A search that keeps books -/

section Books

variable {α σ : Type}

/-- A search whose state tells by `seen` what was visited, and that enters each visit by
`visit`; `work` waits, and there is room for `room` visits. -/
def exploreInto (next : α → List α) (seen : σ → α → Bool) (visit : σ → α → σ) :
    (room : Nat) → (work : List α) → σ → σ
  | 0, _, s => s
  | room + 1, work, s =>
    match work.dropWhile (seen s) with
    | [] => s
    | a :: rest => exploreInto next seen visit room (next a ++ rest) (visit s a)

/-- **What a search enters depends on its visits alone**: it ends with the books of what the
plain search finds. -/
theorem exploreInto_eq [BEq α] [Hashable α] [LawfulBEq α] [LawfulHashable α] (next : α → List α)
    (seen : σ → α → Bool) (visit : σ → α → σ) (books : Array α → σ)
    (hseen : ∀ found a, seen (books found) a = true ↔ a ∈ found.toList)
    (hvisit : ∀ found a, visit (books found) a = books (found.push a)) :
    ∀ (room : Nat) (work : List α) (visited : Std.HashSet α) (found : Array α),
      (∀ a, visited.contains a = true ↔ a ∈ found.toList) →
      exploreInto next seen visit room work (books found) =
        books (exploreFrom id next room work visited found)
  | 0, _, _, _, _ => rfl
  | room + 1, work, visited, found, h => by
    have hsame : seen (books found) = fun a => visited.contains (id a) :=
      funext fun a => Bool.eq_iff_iff.mpr ((hseen found a).trans (h a).symm)
    rw [exploreInto, exploreFrom, hsame]
    cases work.dropWhile fun a => visited.contains (id a) with
    | nil => rfl
    | cons a rest =>
      simp only [hvisit]
      refine exploreInto_eq next seen visit books hseen hvisit room _ _ _ fun b => ?_
      rw [id_eq, Std.HashSet.contains_insert, Bool.or_eq_true, beq_iff_eq, h, Array.toList_push,
        List.mem_append, List.mem_singleton, or_comm, eq_comm (a := a)]

end Books

/-! ### What is found -/

section Reach

variable {α : Type} {next : α → List α} {roots : List α} {a b : α}

/-- Going on by `next` from one of `roots` leads to `a`. -/
def Reach (next : α → List α) (roots : List α) (a : α) : Prop :=
  ∃ r ∈ roots, Relation.ReflTransGen (fun x y => y ∈ next x) r a

theorem Reach.root (h : a ∈ roots) : Reach next roots a := ⟨a, h, .refl⟩

theorem Reach.step (h : Reach next roots a) (hb : b ∈ next a) : Reach next roots b := by
  obtain ⟨r, hr, h⟩ := h
  exact ⟨r, hr, h.tail hb⟩

theorem Reach.of_roots {roots' : List α} (hroots : ∀ r ∈ roots, r ∈ roots') (h : Reach next roots a) :
    Reach next roots' a := by
  obtain ⟨r, hr, h⟩ := h
  exact ⟨r, hroots r hr, h⟩

/-- What holds of the roots and goes on holds of everything that can be reached. -/
theorem Reach.induct {Q : α → Prop} (hroots : ∀ r ∈ roots, Q r)
    (hstep : ∀ a b, Q a → b ∈ next a → Q b) (h : Reach next roots a) : Q a := by
  obtain ⟨r, hr, h⟩ := h
  induction h with
  | refl => exact hroots r hr
  | tail _ hb ih => exact hstep _ _ ih hb

end Reach

section Found

variable {α : Type} [BEq α] [Hashable α]

/-- A search from `roots` under way: `work` waits, `found` was visited. -/
structure Searching (next : α → List α) (roots work : List α) (seen : Std.HashSet α)
    (found : Array α) : Prop where
  seen_iff : ∀ a, seen.contains a = true ↔ a ∈ found.toList
  nodup : found.toList.Nodup
  sound : ∀ a, a ∈ work ∨ a ∈ found.toList → Reach next roots a
  closed : ∀ a ∈ found.toList, ∀ b ∈ next a, b ∈ work ∨ b ∈ found.toList
  roots_found : ∀ r ∈ roots, r ∈ work ∨ r ∈ found.toList
  head : ∀ r ∈ roots.head?, found.toList.head? = some r ∨ found = #[] ∧ work.head? = some r

namespace Searching

theorem start [LawfulBEq α] [LawfulHashable α] (next : α → List α) (roots : List α) :
    Searching next roots roots ∅ #[] where
  seen_iff := by simp
  nodup := by simp
  sound := fun a h => Reach.root (by simpa using h)
  closed := by simp
  roots_found := fun r hr => Or.inl hr
  head := fun r hr => Or.inr ⟨rfl, by simpa using hr⟩

variable {next : α → List α} {roots work : List α} {seen : Std.HashSet α} {found : Array α} {a : α}

theorem pass (hs : seen.contains a = true) (h : Searching next roots (a :: work) seen found) :
    Searching next roots work seen found where
  seen_iff := h.seen_iff
  nodup := h.nodup
  sound := fun b hb => h.sound b (hb.imp_left (List.mem_cons_of_mem _))
  closed := fun b hb c hc => by
    rcases h.closed b hb c hc with hw | hf
    · rcases List.mem_cons.mp hw with rfl | hw
      · exact Or.inr ((h.seen_iff _).mp hs)
      · exact Or.inl hw
    · exact Or.inr hf
  roots_found := fun r hr => by
    rcases h.roots_found r hr with hw | hf
    · rcases List.mem_cons.mp hw with rfl | hw
      · exact Or.inr ((h.seen_iff _).mp hs)
      · exact Or.inl hw
    · exact Or.inr hf
  head := fun r hr => by
    rcases h.head r hr with hf | ⟨hf, -⟩
    · exact Or.inl hf
    · rw [h.seen_iff, hf] at hs
      simp at hs

variable [LawfulBEq α] [LawfulHashable α]

theorem visit (hs : seen.contains a = false) (h : Searching next roots (a :: work) seen found) :
    Searching next roots (next a ++ work) (seen.insert a) (found.push a) := by
  have ha : Reach next roots a := h.sound a (Or.inl List.mem_cons_self)
  have hnew : a ∉ found.toList := fun hm => by rw [(h.seen_iff a).mpr hm] at hs; cases hs
  -- what waited behind `a` still waits, and `a` itself is now visited
  have hmove : ∀ b, b ∈ a :: work ∨ b ∈ found.toList →
      b ∈ next a ++ work ∨ b ∈ (found.push a).toList := by
    intro b hb
    simp only [List.mem_cons, List.mem_append, Array.toList_push, List.not_mem_nil, or_false] at hb ⊢
    tauto
  refine ⟨fun b => ?_, ?_, fun b hb => ?_, fun b hb c hc => ?_, fun r hr => ?_, fun r hr => ?_⟩
  · rw [Std.HashSet.contains_insert, Bool.or_eq_true, beq_iff_eq, h.seen_iff b]
    simp only [Array.toList_push, List.mem_append, List.mem_cons, List.not_mem_nil, or_false]
    exact ⟨fun hb => hb.symm.imp_right Eq.symm, fun hb => hb.symm.imp_left Eq.symm⟩
  · rw [Array.toList_push]
    exact h.nodup.append (List.nodup_singleton a) (by simpa using hnew)
  · rcases hb with hb | hb
    · rcases List.mem_append.mp hb with hb | hb
      · exact ha.step hb
      · exact h.sound b (Or.inl (List.mem_cons_of_mem _ hb))
    · rw [Array.toList_push, List.mem_append, List.mem_singleton] at hb
      rcases hb with hb | rfl
      · exact h.sound b (Or.inr hb)
      · exact ha
  · rw [Array.toList_push, List.mem_append, List.mem_singleton] at hb
    rcases hb with hb | rfl
    · exact hmove c (h.closed b hb c hc)
    · exact Or.inl (List.mem_append_left _ hc)
  · exact hmove r (h.roots_found r hr)
  · left
    rw [Array.toList_push]
    rcases h.head r hr with hf | ⟨hf, hw⟩
    · rw [List.head?_append, hf, Option.some_or]
    · rw [List.head?_cons] at hw
      rw [hf]
      exact hw

end Searching

variable [LawfulBEq α] [LawfulHashable α] {next : α → List α} {roots : List α}
variable (keys : List α)

theorem searching_explore (hroots : ∀ r ∈ roots, r ∈ keys)
    (hkeys : ∀ a ∈ keys, ∀ b ∈ next a, b ∈ keys) {room : Nat} (hroom : keys.length ≤ room) :
    ∃ seen, Searching next roots [] seen (exploreFrom id next room roots ∅ #[]) := by
  refine exploreFrom_run (P := Searching next roots) (fun hs h => h.pass hs)
    (fun hs h => h.visit hs) hkeys room roots ∅ #[] hroots ?_ (Searching.start next roots)
  exact Nat.le_trans (List.countP_le_length ..) hroom

/-- A search visits exactly what can be reached from its roots. -/
theorem mem_explore (hroots : ∀ r ∈ roots, r ∈ keys) (hkeys : ∀ a ∈ keys, ∀ b ∈ next a, b ∈ keys)
    {room : Nat} (hroom : keys.length ≤ room) {a : α} :
    a ∈ explore id next room roots ↔ Reach next roots a := by
  obtain ⟨seen, h⟩ := searching_explore keys hroots hkeys hroom
  refine ⟨fun ha => h.sound a (Or.inr ha), fun ha => ?_⟩
  refine Reach.induct (fun r hr => ?_) (fun b c hb hc => ?_) ha
  · exact (h.roots_found r hr).resolve_left List.not_mem_nil
  · exact (h.closed b hb c hc).resolve_left List.not_mem_nil

theorem mem_firsts {xs : List α} {a : α} : a ∈ firsts xs ↔ a ∈ xs := by
  have hnone : ∀ b c : α, b ∈ xs → c ∈ ([] : List α) → c ∈ xs :=
    fun _ _ _ hc => absurd hc List.not_mem_nil
  rw [firsts, mem_explore xs (fun _ hr => hr) (fun b hb c => hnone b c hb) (Nat.le_refl _)]
  constructor
  · exact Reach.induct (fun _ hr => hr) hnone
  · exact Reach.root

/-- A search visits nothing twice. -/
theorem nodup_explore (hroots : ∀ r ∈ roots, r ∈ keys) (hkeys : ∀ a ∈ keys, ∀ b ∈ next a, b ∈ keys)
    {room : Nat} (hroom : keys.length ≤ room) : (explore id next room roots).Nodup := by
  obtain ⟨seen, h⟩ := searching_explore keys hroots hkeys hroom
  exact h.nodup

theorem nodup_firsts (xs : List α) : (firsts xs).Nodup :=
  nodup_explore xs (fun _ hr => hr) (fun _ _ _ hc => absurd hc List.not_mem_nil) (Nat.le_refl _)

theorem head?_explore (hroots : ∀ r ∈ roots, r ∈ keys)
    (hkeys : ∀ a ∈ keys, ∀ b ∈ next a, b ∈ keys) {room : Nat} (hroom : keys.length ≤ room) {r : α}
    (hr : roots.head? = some r) : (explore id next room roots).head? = some r := by
  obtain ⟨seen, h⟩ := searching_explore keys hroots hkeys hroom
  rcases h.head r (by simp [hr]) with hf | ⟨-, hw⟩
  · exact hf
  · cases hw

end Found

/-! ### Searches among numbers -/

section Below

variable {next : Nat → List Nat} {roots : List Nat} {size : Nat}
variable (hroots : ∀ r ∈ roots, r < size) (hnext : ∀ a, ∀ b ∈ next a, b < size)
include hroots hnext

/-- A search that never gets beyond `size` has room enough with that. -/
theorem mem_explore_below {a : Nat} : a ∈ explore id next size roots ↔ Reach next roots a :=
  mem_explore (List.range size) (fun r hr => List.mem_range.mpr (hroots r hr))
    (fun a _ b hb => List.mem_range.mpr (hnext a b hb)) (Nat.le_of_eq List.length_range)

theorem nodup_explore_below : (explore id next size roots).Nodup :=
  nodup_explore (List.range size) (fun r hr => List.mem_range.mpr (hroots r hr))
    (fun a _ b hb => List.mem_range.mpr (hnext a b hb)) (Nat.le_of_eq List.length_range)

theorem head?_explore_below {r : Nat} (hr : roots.head? = some r) :
    (explore id next size roots).head? = some r :=
  head?_explore (List.range size) (fun r hr => List.mem_range.mpr (hroots r hr))
    (fun a _ b hb => List.mem_range.mpr (hnext a b hb)) (Nat.le_of_eq List.length_range) hr

theorem explores_below :
    ∃ steps, Explores id next steps roots ∅ #[] (explore id next size roots).toArray := by
  have hkeys : ∀ r ∈ roots, id r ∈ List.range size := fun r hr => List.mem_range.mpr (hroots r hr)
  obtain ⟨steps, found, hsteps, hfound⟩ := exists_explores id next hkeys
    (fun a _ b hb => List.mem_range.mpr (hnext a b hb)) (Nat.le_of_eq List.length_range)
  rw [hfound, Array.toArray_toList]
  exact ⟨steps, hsteps⟩

end Below

/-! ### Graphs -/

namespace Graph

variable {isa : InstructionSet} {g : Graph} {roots : List NodeId} {n m : NodeId}

theorem node_of_size_le (h : g.size ≤ n) : g.node n = default := by
  simp only [node, Array.getD_eq_getD_getElem?]
  rw [Array.getElem?_eq_none h]
  rfl

/-- Also an edge that is stored where no node is leads into the graph, since there is
none. -/
theorem Closed.lt_of_successor (hg : g.Closed) (h : (g.node n).successor = some m) : m < g.size := by
  rcases Nat.lt_or_ge n g.size with hn | hn
  · exact (hg n hn).1 m h
  · rw [node_of_size_le hn] at h
    cases h

theorem Closed.lt_of_branch (hg : g.Closed) (h : (g.node n).branch = some m) : m < g.size := by
  rcases Nat.lt_or_ge n g.size with hn | hn
  · exact (hg n hn).2 m h
  · rw [node_of_size_le hn] at h
    cases h

theorem fallthrough?_eq_some : g.fallthrough? isa n = some m ↔
    (g.node n).fallsThrough isa = true ∧ (g.node n).successor = some m := by
  rw [fallthrough?]
  split <;> simp [*]

theorem branch?_eq_some : g.branch? isa n = some m ↔
    (g.node n).isJump isa = true ∧ (g.node n).branch = some m := by
  rw [branch?]
  split <;> simp [*]

theorem mem_targets : m ∈ g.targets isa n ↔
    g.fallthrough? isa n = some m ∨ g.branch? isa n = some m := by
  simp [targets, edges]

theorem mem_targets_iff : m ∈ g.targets isa n ↔ ∃ e, (m, e) ∈ g.edges isa n := by
  simp [targets]

theorem lt_of_mem_targets (h : m ∈ g.targets isa n) : n < g.size := by
  by_contra hn
  rw [mem_targets, fallthrough?_eq_some, branch?_eq_some, node_of_size_le (Nat.not_lt.mp hn)] at h
  rcases h with ⟨-, h⟩ | ⟨-, h⟩ <;> cases h

theorem Closed.lt_of_mem_targets (hg : g.Closed) (h : m ∈ g.targets isa n) : m < g.size := by
  rcases mem_targets.mp h with h | h
  · exact hg.lt_of_successor (fallthrough?_eq_some.mp h).2
  · exact hg.lt_of_branch (branch?_eq_some.mp h).2

variable (isa g) in
/-- Execution can get to a node from `roots`. -/
def Live (roots : List NodeId) (n : NodeId) : Prop := Reach (g.targets isa) roots n

theorem Closed.lt_of_live (hg : g.Closed) (hroots : ∀ r ∈ roots, r < g.size)
    (h : g.Live isa roots n) : n < g.size :=
  Reach.induct (Q := (· < g.size)) hroots (fun _ _ _ hb => hg.lt_of_mem_targets hb) h

section Listed

variable (hg : g.Closed) (hroots : ∀ r ∈ roots, r < g.size)
include hg hroots

/-- The search along the edges lists the nodes that execution can get to. -/
theorem mem_reachable : n ∈ g.reachable isa roots ↔ g.Live isa roots n :=
  mem_explore_below hroots fun _ _ => hg.lt_of_mem_targets

theorem nodup_reachable : (g.reachable isa roots).Nodup :=
  nodup_explore_below hroots fun _ _ => hg.lt_of_mem_targets

end Listed

variable (isa g) in
/-- The node has the edges that its flags ask for. -/
def HasEdges (n : NodeId) : Prop :=
  ((g.node n).fallsThrough isa = true → (g.node n).successor ≠ none) ∧
    ((g.node n).isJump isa = true → (g.node n).branch ≠ none)

theorem missingEdge?_eq_none_iff : g.missingEdge? isa n = none ↔ g.HasEdges isa n := by
  simp only [missingEdge?, HasEdges]
  split
  · simp_all
  · split <;> simp_all

theorem reachable?_eq_ok_iff (hg : g.Closed) (hroots : ∀ r ∈ roots, r < g.size)
    {found : List NodeId} : g.reachable? isa roots = .ok found ↔
      found = g.reachable isa roots ∧ ∀ n, g.Live isa roots n → g.HasEdges isa n := by
  have hall : (g.reachable isa roots).findSome? (g.missingEdge? isa) = none ↔
      ∀ n, g.Live isa roots n → g.HasEdges isa n := by
    simp only [List.findSome?_eq_none_iff, missingEdge?_eq_none_iff, mem_reachable hg hroots]
  rw [reachable?, ← hall]
  cases (g.reachable isa roots).findSome? (g.missingEdge? isa) with
  | none => simp [eq_comm]
  | some e => simp

/-- The search fails exactly when execution can get to a node that lacks an edge. -/
theorem reachable?_eq_error_iff (hg : g.Closed) (hroots : ∀ r ∈ roots, r < g.size) :
    (∃ e, g.reachable? isa roots = .error e) ↔ ∃ n, g.Live isa roots n ∧ ¬ g.HasEdges isa n := by
  have hok : (∃ found, g.reachable? isa roots = .ok found) ↔
      ∀ n, g.Live isa roots n → g.HasEdges isa n := by
    simp [reachable?_eq_ok_iff hg hroots]
  cases hr : g.reachable? isa roots with
  | ok found =>
    have hall := hok.mp ⟨found, hr⟩
    refine ⟨?_, fun ⟨n, hn, hne⟩ => absurd (hall n hn) hne⟩
    rintro ⟨e, he⟩
    cases he
  | error e =>
    refine ⟨fun _ => ?_, fun _ => ⟨e, rfl⟩⟩
    by_contra hc
    push Not at hc
    obtain ⟨found, hf⟩ := hok.mpr hc
    rw [hr] at hf
    cases hf

end Graph

end Wordcode
