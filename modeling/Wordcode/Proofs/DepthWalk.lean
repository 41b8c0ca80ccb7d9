/-
# The walk that finds the stack depth

The search for the greatest depth goes to an instruction again when it gets there with a
greater depth than before, so what it finds, and whether it finds anything, depends on
the order of its visits. `StackDepth.Walks` describes it without a bound on its length;
the bound that `maxStackDepth` puts on it is never met, since each visit raises the depth
with which some node was last visited.

Extension units only hand on the depth they are reached with. Two graphs in which the
same instructions follow one another, with whatever extension units in front of them,
are therefore walked alike: both walks are the walk over the instructions alone
(`StackDepth.Walks.compress`).

Key definitions: `StackDepth.Walks`, `StackDepth.Compresses`.
Key theorems: `StackDepth.walks_maxStackDepth`, `StackDepth.Walks.unique`,
`StackDepth.Walks.compress`, `StackDepth.maxStackDepth_eq`.
-/
import Mathlib.Algebra.Order.BigOperators.Group.List
import Mathlib.Algebra.Order.Ring.Nat
import Mathlib.Logic.Function.Basic
import Wordcode.StackDepth

namespace Wordcode

namespace StackDepth

/-! ### The walk without a bound -/

/-- A state of the walk, node and depth, is new if the node was last visited with less.
Here `seen` is one more than the depth of that visit, and zero for a node that was not
visited. The walk from the states `work` ends with the greatest depth, or without. -/
inductive Walks (onward : Nat → Nat → Option (List (Nat × Nat))) :
    (work : List (Nat × Nat)) → (seen : Nat → Nat) → (deepest : Nat) → Option Nat → Prop
  | done {seen : Nat → Nat} {deepest : Nat} : Walks onward [] seen deepest (some deepest)
  | pass {n depth deepest : Nat} {work : List (Nat × Nat)} {seen : Nat → Nat} {r : Option Nat}
      (hseen : depth < seen n) (h : Walks onward work seen deepest r) :
      Walks onward ((n, depth) :: work) seen deepest r
  | far {n depth deepest : Nat} {work : List (Nat × Nat)} {seen : Nat → Nat}
      (hseen : seen n ≤ depth) (hfar : depthLimit < depth) :
      Walks onward ((n, depth) :: work) seen deepest none
  | stuck {n depth deepest : Nat} {work : List (Nat × Nat)} {seen : Nat → Nat}
      (hseen : seen n ≤ depth) (hnear : depth ≤ depthLimit) (hstuck : onward n depth = none) :
      Walks onward ((n, depth) :: work) seen deepest none
  | visit {n depth deepest : Nat} {work next : List (Nat × Nat)} {seen : Nat → Nat} {r : Option Nat}
      (hseen : seen n ≤ depth) (hnear : depth ≤ depthLimit) (hnext : onward n depth = some next)
      (h : Walks onward (next.reverse ++ work) (Function.update seen n (depth + 1))
        ((next.map (·.2)).foldl max (max deepest depth)) r) :
      Walks onward ((n, depth) :: work) seen deepest r

variable {onward : Nat → Nat → Option (List (Nat × Nat))} {work : List (Nat × Nat)} {seen : Nat → Nat}
  {deepest : Nat} {r r' : Option Nat}

/-- The walk has one outcome. -/
theorem Walks.unique (h : Walks onward work seen deepest r) (h' : Walks onward work seen deepest r') :
    r = r' := by
  induction h with
  | done =>
    cases h'
    rfl
  | pass hseen _ ih =>
    cases h' with
    | pass _ h' => exact ih h'
    | far hseen' | stuck hseen' | visit hseen' => exact absurd hseen' (Nat.not_le.mpr hseen)
  | far hseen hfar =>
    cases h' with
    | pass hseen' _ => exact absurd hseen (Nat.not_le.mpr hseen')
    | far => rfl
    | stuck => rfl
    | visit _ hnear => exact absurd hfar (Nat.not_lt.mpr hnear)
  | stuck hseen hnear hstuck =>
    cases h' with
    | pass hseen' _ => exact absurd hseen (Nat.not_le.mpr hseen')
    | far => rfl
    | stuck => rfl
    | visit _ _ hnext => cases hstuck.symm.trans hnext
  | visit hseen hnear hnext _ ih =>
    cases h' with
    | pass hseen' _ => exact absurd hseen (Nat.not_le.mpr hseen')
    | far _ hfar => exact absurd hfar (Nat.not_lt.mpr hnear)
    | stuck _ _ hstuck => cases hstuck.symm.trans hnext
    | visit _ _ hnext' h' =>
      obtain rfl := Option.some.inj (hnext.symm.trans hnext')
      exact ih h'

/-! ### Handing on -/

/-- The walk by `onward` over nodes that satisfy `inside` is that by `across` over labels:
an instruction leads where its label does, and any other node hands on its depth to one
that is nearer to the instruction with its label. -/
structure Compresses (onward across : Nat → Nat → Option (List (Nat × Nat)))
    (inside instruction : Nat → Prop) (label rank : Nat → Nat) : Prop where
  step : ∀ n, inside n → instruction n → ∀ depth,
    (onward n depth).map (List.map fun s => (label s.1, s.2)) = across (label n) depth
  stays : ∀ n, inside n → instruction n → ∀ depth next, onward n depth = some next →
    ∀ s ∈ next, inside s.1
  through : ∀ n, inside n → ¬ instruction n → ∀ depth, ∃ s, onward n depth = some [(s, depth)] ∧
    inside s ∧ label s = label n ∧ rank s < rank n
  single : ∀ n m, inside n → inside m → instruction n → instruction m → label n = label m → n = m

/-- Two walks under way, over nodes and over labels. A node that only hands on was visited
with at most the depth with which its instruction was, unless that visit is on its way. -/
structure Matches (inside instruction : Nat → Prop) (label rank : Nat → Nat)
    (work : List (Nat × Nat)) (seen top : Nat → Nat) (deepest : Nat) : Prop where
  work_inside : ∀ s ∈ work, inside s.1 ∧ s.2 ≤ deepest
  top_le : ∀ l, top l ≤ depthLimit + 1
  top_eq : ∀ n, inside n → instruction n → top (label n) = seen n
  below : ∀ n, inside n → ¬ instruction n → seen n ≤ top (label n) ∨
    ∃ s rest, work = s :: rest ∧ label s.1 = label n ∧ rank s.1 < rank n ∧ seen n ≤ s.2 + 1

theorem le_foldl_max : ∀ (depths : List Nat) (deepest : Nat), deepest ≤ depths.foldl max deepest ∧
    ∀ depth ∈ depths, depth ≤ depths.foldl max deepest
  | [], deepest => ⟨Nat.le_refl _, by simp⟩
  | depth :: depths, deepest => by
    obtain ⟨hle, hall⟩ := le_foldl_max depths (max deepest depth)
    rw [List.foldl_cons]
    refine ⟨Nat.le_trans (Nat.le_max_left _ _) hle, fun d hd => ?_⟩
    rcases List.mem_cons.mp hd with rfl | hd
    · exact Nat.le_trans (Nat.le_max_right _ _) hle
    · exact hall d hd

section Compress

variable {across : Nat → Nat → Option (List (Nat × Nat))} {inside instruction : Nat → Prop}
  {label rank : Nat → Nat} {top : Nat → Nat} {n depth : Nat}

theorem Matches.pass (h : Matches inside instruction label rank ((n, depth) :: work) seen top deepest)
    (hseen : depth < top (label n)) :
    Matches inside instruction label rank work seen top deepest where
  work_inside := fun s hs => h.work_inside s (List.mem_cons_of_mem _ hs)
  top_le := h.top_le
  top_eq := h.top_eq
  below := fun m hm hno => by
    rcases h.below m hm hno with hle | ⟨s, rest, hwork, hlabel, -, hle⟩
    · exact Or.inl hle
    · obtain ⟨rfl, -⟩ := List.cons.inj hwork
      rw [hlabel] at hseen
      exact Or.inl (Nat.le_trans hle hseen)

theorem Matches.visit (hc : Compresses onward across inside instruction label rank)
    (h : Matches inside instruction label rank ((n, depth) :: work) seen top deepest)
    (hn : instruction n) (hseen : seen n ≤ depth) (hnear : depth ≤ depthLimit)
    {next : List (Nat × Nat)} (hnext : onward n depth = some next) :
    Matches inside instruction label rank (next.reverse ++ work)
      (Function.update seen n (depth + 1)) (Function.update top (label n) (depth + 1))
      ((next.map (·.2)).foldl max (max deepest depth)) where
  work_inside := fun s hs => by
    obtain ⟨hle, hall⟩ := le_foldl_max (next.map (·.2)) (max deepest depth)
    rcases List.mem_append.mp hs with hs | hs
    · rw [List.mem_reverse] at hs
      exact ⟨hc.stays n (h.work_inside _ List.mem_cons_self).1 hn depth next hnext s hs,
        hall _ (List.mem_map_of_mem hs)⟩
    · obtain ⟨hin, hd⟩ := h.work_inside s (List.mem_cons_of_mem _ hs)
      exact ⟨hin, Nat.le_trans hd (Nat.le_trans (Nat.le_max_left _ _) hle)⟩
  top_le := fun l => by
    by_cases hl : l = label n
    · rw [hl, Function.update_self]
      exact Nat.succ_le_succ hnear
    · rw [Function.update_of_ne hl]
      exact h.top_le l
  top_eq := fun m hm hi => by
    by_cases hmn : m = n
    · rw [hmn, Function.update_self, Function.update_self]
    · -- no other instruction has the label
      have hlabel : label m ≠ label n := fun heq =>
        hmn (hc.single m n hm (h.work_inside _ List.mem_cons_self).1 hi hn heq)
      rw [Function.update_of_ne hlabel, Function.update_of_ne hmn]
      exact h.top_eq m hm hi
  below := fun m hm hno => by
    have hmn : m ≠ n := fun heq => hno (heq ▸ hn)
    rw [Function.update_of_ne hmn]
    have htop := h.top_eq n (h.work_inside _ List.mem_cons_self).1 hn
    -- a visit to a node with the label of `n` that was on its way has arrived
    rcases h.below m hm hno with hle | ⟨s, rest, hwork, hlabel, -, hle⟩
    · left
      by_cases hl : label m = label n
      · rw [hl, Function.update_self]
        rw [hl, htop] at hle
        omega
      · rw [Function.update_of_ne hl]
        exact hle
    · obtain ⟨rfl, -⟩ := List.cons.inj hwork
      left
      rw [← hlabel, Function.update_self]
      exact hle

/-- A visit to a node that only hands on leaves the walk over labels where it is. -/
theorem Matches.through {s : Nat}
    (h : Matches inside instruction label rank ((n, depth) :: work) seen top deepest)
    (hno : ¬ instruction n) (hs : inside s) (hlabel : label s = label n) (hrank : rank s < rank n) :
    Matches inside instruction label rank ((s, depth) :: work)
      (Function.update seen n (depth + 1)) top deepest where
  work_inside := fun p hp => by
    rcases List.mem_cons.mp hp with rfl | hp
    · exact ⟨hs, (h.work_inside _ List.mem_cons_self).2⟩
    · exact h.work_inside p (List.mem_cons_of_mem _ hp)
  top_le := h.top_le
  top_eq := fun m hm hi => by
    have hmn : m ≠ n := fun heq => hno (heq ▸ hi)
    rw [Function.update_of_ne hmn]
    exact h.top_eq m hm hi
  below := fun m hm hnot => by
    by_cases hmn : m = n
    · subst hmn
      rw [Function.update_self]
      exact Or.inr ⟨(s, depth), work, rfl, hlabel, hrank, Nat.le_refl _⟩
    · rw [Function.update_of_ne hmn]
      rcases h.below m hm hnot with hle | ⟨p, rest, hwork, hl, hr, hle⟩
      · exact Or.inl hle
      · obtain ⟨rfl, -⟩ := List.cons.inj hwork
        exact Or.inr ⟨(s, depth), work, rfl, hlabel.trans hl, Nat.lt_trans hrank hr, hle⟩

/-- **The walk over the nodes is the walk over their labels.** -/
theorem Walks.compress (hc : Compresses onward across inside instruction label rank)
    (h : Walks onward work seen deepest r) : ∀ {top : Nat → Nat},
    Matches inside instruction label rank work seen top deepest →
    Walks across (work.map fun s => (label s.1, s.2)) top deepest r := by
  induction h with
  | done => exact fun _ => .done
  | @pass n depth deepest work seen r hseen _ ih =>
    intro top hm
    have hin := (hm.work_inside _ List.mem_cons_self).1
    have htop : depth < top (label n) := by
      by_cases hi : instruction n
      · rw [hm.top_eq n hin hi]
        exact hseen
      · rcases hm.below n hin hi with hle | ⟨s, rest, hwork, -, hrank, -⟩
        · exact Nat.lt_of_lt_of_le hseen hle
        · obtain ⟨rfl, -⟩ := List.cons.inj hwork
          exact absurd hrank (Nat.lt_irrefl _)
    exact .pass htop (ih (hm.pass htop))
  | @far n depth deepest work seen hseen hfar =>
    intro top hm
    exact .far (Nat.le_trans (hm.top_le _) hfar) hfar
  | @stuck n depth deepest work seen hseen hnear hstuck =>
    intro top hm
    have hin := (hm.work_inside _ List.mem_cons_self).1
    have hi : instruction n := by
      by_contra hno
      obtain ⟨s, hs, -⟩ := hc.through n hin hno depth
      rw [hstuck] at hs
      cases hs
    refine .stuck ((hm.top_eq n hin hi).symm ▸ hseen) hnear ?_
    rw [← hc.step n hin hi, hstuck, Option.map_none]
  | @visit n depth deepest work next seen r hseen hnear hnext _ ih =>
    intro top hm
    obtain ⟨hin, hdeep⟩ := hm.work_inside _ List.mem_cons_self
    by_cases hi : instruction n
    · have hacross : across (label n) depth = some (next.map fun s => (label s.1, s.2)) := by
        rw [← hc.step n hin hi, hnext, Option.map_some]
      have hrest := ih (hm.visit hc hi hseen hnear hnext)
      rw [List.map_append, List.map_reverse] at hrest
      refine .visit ((hm.top_eq n hin hi).symm ▸ hseen) hnear hacross ?_
      rw [List.map_map]
      exact hrest
    · obtain ⟨s, hs, hins, hlabel, hrank⟩ := hc.through n hin hi depth
      obtain rfl := Option.some.inj (hs.symm.trans hnext)
      have hsame : max (max deepest depth) depth = deepest := by
        have hdeep' : depth ≤ deepest := hdeep
        omega
      have hmatches := hm.through hi hins hlabel hrank
      have hrest := ih (by
        rw [List.map_cons, List.map_nil, List.foldl_cons, List.foldl_nil, hsame]
        exact hmatches)
      rw [List.map_cons, List.map_nil, List.foldl_cons, List.foldl_nil, hsame] at hrest
      rw [List.map_cons, ← hlabel]
      exact hrest

end Compress

/-! ### Where the walk goes -/

section Onward

/-- Where a node with the given edges leads, if `leave` is the depth after each of them. -/
def onwardOf (leave : Edge → Option Nat) : List (Nat × Edge) → Option (List (Nat × Nat))
  | [] => (leave .fallthrough).map fun _ => []
  | edges => edges.mapM fun t => (leave t.2).map (t.1, ·)

theorem map_mapM {α β γ : Type} (f : α → Option β) (k : β → γ) : ∀ xs : List α,
    (xs.mapM f).map (List.map k) = xs.mapM fun x => (f x).map k
  | [] => rfl
  | x :: xs => by
    rw [List.mapM_cons, List.mapM_cons, ← map_mapM f k xs]
    cases f x with
    | none => rfl
    | some y => cases xs.mapM f <;> rfl

theorem exists_of_mem_mapM {α β : Type} {f : α → Option β} : ∀ {xs : List α} {ys : List β},
    xs.mapM f = some ys → ∀ y ∈ ys, ∃ x ∈ xs, f x = some y
  | [], ys, h, y, hy => by
    obtain rfl : [] = ys := Option.some.inj h
    cases hy
  | x :: xs, ys, h, y, hy => by
    rw [List.mapM_cons] at h
    obtain ⟨y', hfirst, h⟩ := Option.bind_eq_some_iff.mp h
    obtain ⟨ys', hrest, h⟩ := Option.bind_eq_some_iff.mp h
    obtain rfl : y' :: ys' = ys := Option.some.inj h
    rcases List.mem_cons.mp hy with rfl | hy
    · exact ⟨x, List.mem_cons_self, hfirst⟩
    · obtain ⟨x', hx', heq⟩ := exists_of_mem_mapM hrest y hy
      exact ⟨x', List.mem_cons_of_mem x hx', heq⟩

theorem map_onwardOf (leave : Edge → Option Nat) (label : Nat → Nat) (edges : List (Nat × Edge)) :
    (onwardOf leave edges).map (List.map fun s => (label s.1, s.2)) =
      onwardOf leave (edges.map fun t => (label t.1, t.2)) := by
  cases edges with
  | nil => cases h : leave .fallthrough <;> simp [onwardOf, h]
  | cons t edges =>
    simp only [onwardOf, List.map_cons]
    rw [map_mapM, ← List.map_cons (f := fun t : Nat × Edge => (label t.1, t.2)), List.mapM_map]
    congr 1
    funext t
    exact Option.map_map _ _ _

variable {isa : InstructionSet} {g h : Graph} {n k : Nat}

theorem onward?_eq (depth : Nat) : onward? isa g n depth =
    onwardOf (leave? isa g n depth) (g.edges isa n) := rfl

theorem mem_targets_of_onward? {depth : Nat} {next : List (Nat × Nat)}
    (hnext : onward? isa g n depth = some next) : ∀ s ∈ next, s.1 ∈ g.targets isa n := by
  intro s hs
  rw [onward?_eq] at hnext
  rw [Graph.targets]
  cases hedges : g.edges isa n with
  | nil =>
    rw [hedges] at hnext
    obtain ⟨_, -, rfl⟩ := Option.map_eq_some_iff.mp hnext
    cases hs
  | cons t edges =>
    rw [hedges] at hnext
    obtain ⟨t', ht', hs'⟩ := exists_of_mem_mapM hnext s hs
    obtain ⟨_, -, rfl⟩ := Option.map_eq_some_iff.mp hs'
    exact List.mem_map_of_mem ht'

theorem onward?_congr {label label' : Nat → Nat}
    (heffect : ∀ edge, (g.node n).effect isa edge = (h.node k).effect isa edge)
    (hedges : (g.edges isa n).map (fun t => (label t.1, t.2)) =
      (h.edges isa k).map fun t => (label' t.1, t.2)) (depth : Nat) :
    (onward? isa g n depth).map (List.map fun s => (label s.1, s.2)) =
      (onward? isa h k depth).map (List.map fun s => (label' s.1, s.2)) := by
  have hleave : leave? isa g n depth = leave? isa h k depth := by
    funext edge
    rw [leave?, leave?, heffect]
  rw [onward?_eq, onward?_eq, map_onwardOf, map_onwardOf, hedges, hleave]

end Onward

/-! ### The walk is made -/

section Made

/-- The depths of the last visits, as `Walks` counts them. -/
def seenOf (visited : Std.HashMap Nat Nat) (n : Nat) : Nat := visited[n]?.elim 0 (· + 1)

theorem seenOf_insert (visited : Std.HashMap Nat Nat) (n depth : Nat) :
    seenOf (visited.insert n depth) = Function.update (seenOf visited) n (depth + 1) := by
  funext m
  rw [seenOf, Std.HashMap.getElem?_insert]
  by_cases hm : n = m
  · subst hm
    rw [beq_self_eq_true, if_pos rfl, Function.update_self]
    rfl
  · rw [beq_false_of_ne hm, if_neg Bool.false_ne_true, Function.update_of_ne (Ne.symm hm), seenOf]

theorem any_le_iff {visited : Std.HashMap Nat Nat} {n depth : Nat} :
    visited[n]?.any (depth ≤ ·) = true ↔ depth < seenOf visited n := by
  unfold seenOf
  cases visited[n]? with
  | none => simp
  | some d =>
    rw [Option.any_some, decide_eq_true_iff]
    exact Nat.lt_succ_iff.symm

/-- How often the nodes below `size` can still be visited with a greater depth. -/
def visitsLeft (size : Nat) (seen : Nat → Nat) : Nat :=
  ((List.range size).map fun n => depthLimit + 1 - seen n).sum

theorem visitsLeft_update {size n depth : Nat} {seen : Nat → Nat} (hn : n < size)
    (hseen : seen n ≤ depth) (hnear : depth ≤ depthLimit) :
    visitsLeft size (Function.update seen n (depth + 1)) < visitsLeft size seen := by
  refine List.sum_lt_sum _ _ (fun m _ => ?_) ⟨n, List.mem_range.mpr hn, ?_⟩
  · by_cases hm : m = n
    · rw [hm, Function.update_self]
      omega
    · rw [Function.update_of_ne hm]
  · rw [Function.update_self]
    omega

variable {isa : InstructionSet} {g : Graph} {inside : Nat → Prop}
  (hsize : ∀ n, inside n → n < g.size)
  (hstays : ∀ n, inside n → ∀ depth next, onward? isa g n depth = some next → ∀ s ∈ next, inside s.1)
include hsize hstays

theorem walks_deepestFrom : ∀ (room : Nat) (work : List (Nat × Nat)) (visited : Std.HashMap Nat Nat)
    (deepest : Nat), (∀ s ∈ work, inside s.1) → visitsLeft g.size (seenOf visited) < room →
    Walks (onward? isa g) work (seenOf visited) deepest
      (deepestFrom isa g room work visited deepest)
  | room + 1, [], visited, deepest, _, _ => .done
  | room + 1, (n, depth) :: work, visited, deepest, hwork, hroom => by
    obtain ⟨hn, hrest⟩ := List.forall_mem_cons.mp hwork
    by_cases hseen : depth < seenOf visited n
    · have hpass : deepestFrom isa g (room + 1) ((n, depth) :: work) visited deepest =
          deepestFrom isa g (room + 1) work visited deepest := by
        simp only [deepestFrom, List.dropWhile_cons, any_le_iff.mpr hseen, if_true]
      rw [hpass]
      exact .pass hseen (walks_deepestFrom (room + 1) work visited deepest hrest hroom)
    · have hnew : visited[n]?.any (depth ≤ ·) = false := Bool.eq_false_iff.mpr (mt any_le_iff.mp hseen)
      have hseen' := Nat.not_lt.mp hseen
      simp only [deepestFrom, List.dropWhile_cons, hnew, Bool.false_eq_true, if_false]
      by_cases hfar : depthLimit < depth
      · rw [if_pos hfar]
        exact .far hseen' hfar
      · have hnear := Nat.not_lt.mp hfar
        rw [if_neg hfar]
        cases hnext : onward? isa g n depth with
        | none => exact .stuck hseen' hnear hnext
        | some next =>
          -- the visit takes one from what is left for `n`
          have hleft := visitsLeft_update (hsize n hn) hseen' hnear
          rw [← seenOf_insert] at hleft
          refine .visit hseen' hnear hnext ?_
          rw [← seenOf_insert]
          refine walks_deepestFrom room _ _ _ (fun s hs => ?_) (by omega)
          rcases List.mem_append.mp hs with hs | hs
          · exact hstays n hn depth next hnext s (List.mem_reverse.mp hs)
          · exact hrest s hs
termination_by room work => (room, work.length)

/-- **The walk that finds the greatest depth is made to its end.** -/
theorem walks_maxStackDepth {roots : List Nat} (hroots : ∀ r ∈ roots, inside r) :
    Walks (onward? isa g) (roots.reverse.map (·, 0)) (fun _ => 0) 0 (maxStackDepth isa g roots) := by
  have hnone : seenOf ∅ = fun _ => 0 := by
    funext n
    rw [seenOf, Std.HashMap.getElem?_empty]
    rfl
  have hleft : visitsLeft g.size (seenOf ∅) < g.size * (depthLimit + 1) + 1 := by
    rw [hnone, visitsLeft]
    simp
  have hwalk := walks_deepestFrom hsize hstays _ (roots.reverse.map (·, 0)) ∅ 0 (fun s hs => ?_) hleft
  · rwa [hnone] at hwalk
  · obtain ⟨r, hr, rfl⟩ := List.mem_map.mp hs
    exact hroots r (List.mem_reverse.mp hr)

end Made

/-! ### Graphs that are walked alike -/

section Alike

variable {isa : InstructionSet} {g : Graph} {across : Nat → Nat → Option (List (Nat × Nat))}
  {inside instruction : Nat → Prop} {label rank : Nat → Nat}

theorem Compresses.walks (hc : Compresses (onward? isa g) across inside instruction label rank)
    (hsize : ∀ n, inside n → n < g.size) {root : Nat} (hroot : inside root) :
    Walks across [(label root, 0)] (fun _ => 0) 0 (maxStackDepth isa g [root]) := by
  have hstays : ∀ n, inside n → ∀ depth next, onward? isa g n depth = some next →
      ∀ s ∈ next, inside s.1 := by
    intro n hn depth next hnext s hs
    by_cases hi : instruction n
    · exact hc.stays n hn hi depth next hnext s hs
    · obtain ⟨m, hm, hin, -⟩ := hc.through n hn hi depth
      obtain rfl := Option.some.inj (hm.symm.trans hnext)
      rw [List.mem_singleton.mp hs]
      exact hin
  have hroots : ∀ r ∈ [root], inside r := fun r hr => List.mem_singleton.mp hr ▸ hroot
  have hwalk := walks_maxStackDepth hsize hstays hroots
  refine hwalk.compress hc ⟨fun s hs => ?_, fun _ => Nat.zero_le _, fun _ _ _ => rfl,
    fun _ _ _ => Or.inl (Nat.le_refl _)⟩
  rw [List.mem_singleton.mp hs]
  exact ⟨hroot, Nat.le_refl _⟩

/-- **Graphs that are walked alike have the same greatest depth.** -/
theorem maxStackDepth_eq {h : Graph} {inside' instruction' : Nat → Prop} {label' rank' : Nat → Nat}
    (hc : Compresses (onward? isa g) across inside instruction label rank)
    (hsize : ∀ n, inside n → n < g.size)
    (hc' : Compresses (onward? isa h) across inside' instruction' label' rank')
    (hsize' : ∀ n, inside' n → n < h.size) {root root' : Nat} (hroot : inside root)
    (hroot' : inside' root') (hlabel : label root = label' root') :
    maxStackDepth isa g [root] = maxStackDepth isa h [root'] :=
  (hc.walks hsize hroot).unique (hlabel ▸ hc'.walks hsize' hroot')

end Alike

end StackDepth

end Wordcode
