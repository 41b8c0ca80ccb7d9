/-
# The stack depth that is found

`StackDepth.Runs` says how execution can get to an instruction: from a root, where the
stack is empty, along edges, each instruction on the way popping no more than there is.
The walk of `maxStackDepth` makes some of these runs. It goes to an instruction again only
with more values than before, and so passes over runs that get there with less.

No depth is lost by that. An instruction that can be left with some values can be left
with more, and then leaves more behind: so every run is overtaken by one that the walk made
(`StackDepth.Follows.overtaken`), and the depth that is found is exact.

An underflow may be lost. It is the run with the least values that underflows, and if
another run gets to the same instruction with more and can leave it, the walk may never try
with less. Such an underflow is `Hidden`, and then the order of roots and edges decides
whether there is an answer; nothing else depends on it.

Key definitions: `StackDepth.Runs`, `StackDepth.Refused`, `StackDepth.Hidden`,
`StackDepth.Follows`.
Key theorems: `StackDepth.Follows.overtaken`, `StackDepth.Follows.exact`,
`StackDepth.Follows.hidden`, `StackDepth.maxStackDepth_exact`,
`StackDepth.maxStackDepth_refuses`.
-/
import Wordcode.Proofs.BuiltIn
import Wordcode.Proofs.DepthWalk
import Wordcode.Proofs.Reachability

namespace Wordcode

namespace StackDepth

/-! ### Runs -/

section Runs

variable (isa : InstructionSet) (g : Graph)

/-- Execution from one of `roots` gets to an instruction along edges, with so many values on
the stack. The stack is empty at first, and no instruction on the way pops more than
there is. -/
inductive Runs (roots : List NodeId) : (n : NodeId) → (depth : Nat) → Prop
  | root {r : NodeId} (hr : r ∈ roots) : Runs roots r 0
  | step {n m : NodeId} {depth : Nat} {edge : Edge} {effect : StackEffect} (h : Runs roots n depth)
      (hedge : (m, edge) ∈ g.edges isa n) (heffect : (g.node n).effect isa edge = some effect)
      (hpops : effect.popped ≤ depth) : Runs roots m (depth - effect.popped + effect.pushed)

/-- The edges by which an instruction can be left. One that ends the flow takes its operands
as if it fell through. -/
def exits (n : NodeId) : List Edge :=
  if (g.edges isa n).isEmpty then [.fallthrough] else (g.edges isa n).map (·.2)

/-- The effect of an instruction is not known along an edge by which it can be left. -/
def Unknown (n : NodeId) : Prop := ∃ edge ∈ exits isa g n, (g.node n).effect isa edge = none

/-- An instruction pops more than `depth` values along an edge by which it can be left. -/
def Underflows (n : NodeId) (depth : Nat) : Prop :=
  ∃ edge ∈ exits isa g n, ∃ effect, (g.node n).effect isa edge = some effect ∧
    depth < effect.popped

/-- Execution cannot go on at an instruction with `depth` values: its effect is not known, it pops
more than that, or there are too many. -/
def Refused (n : NodeId) (depth : Nat) : Prop :=
  Unknown isa g n ∨ Underflows isa g n depth ∨ depthLimit < depth

/-- Another run gets to the instruction with more than `depth` values, and has enough for it. -/
def Hidden (roots : List NodeId) (n : NodeId) (depth : Nat) : Prop :=
  ∃ deeper, depth < deeper ∧ Runs isa g roots n deeper ∧ ¬ Underflows isa g n deeper

variable {isa g} {roots roots' : List NodeId} {n m : NodeId} {depth : Nat}

theorem Runs.of_roots (hroots : ∀ r ∈ roots, r ∈ roots') (h : Runs isa g roots n depth) :
    Runs isa g roots' n depth := by
  induction h with
  | root hr => exact .root (hroots _ hr)
  | step _ hedge heffect hpops ih => exact ih.step hedge heffect hpops

theorem Hidden.of_roots (hroots : ∀ r ∈ roots, r ∈ roots') (h : Hidden isa g roots n depth) :
    Hidden isa g roots' n depth := by
  obtain ⟨deeper, hlt, hruns, henough⟩ := h
  exact ⟨deeper, hlt, hruns.of_roots hroots, henough⟩

/-! ### One step -/

theorem leave?_eq_some_iff {edge : Edge} {after : Nat} :
    leave? isa g n depth edge = some after ↔ ∃ effect, (g.node n).effect isa edge = some effect ∧
      effect.popped ≤ depth ∧ depth - effect.popped + effect.pushed = after := by
  unfold leave?
  cases (g.node n).effect isa edge with
  | none => simp
  | some effect =>
    by_cases hpops : depth < effect.popped
    · have hno : ¬ effect.popped ≤ depth := Nat.not_le.mpr hpops
      simp [hpops, hno]
    · simp [hpops, Nat.not_lt.mp hpops]

theorem leave?_eq_none_iff {edge : Edge} :
    leave? isa g n depth edge = none ↔ (g.node n).effect isa edge = none ∨
      ∃ effect, (g.node n).effect isa edge = some effect ∧ depth < effect.popped := by
  unfold leave?
  cases (g.node n).effect isa edge with
  | none => simp
  | some effect => simp

theorem Runs.leave {edge : Edge} {after : Nat} (h : Runs isa g roots n depth)
    (hedge : (m, edge) ∈ g.edges isa n) (hleave : leave? isa g n depth edge = some after) :
    Runs isa g roots m after := by
  obtain ⟨effect, heffect, hpops, rfl⟩ := leave?_eq_some_iff.mp hleave
  exact h.step hedge heffect hpops

theorem leave?_mono {edge : Edge} {after deeper : Nat}
    (h : leave? isa g n depth edge = some after) (hle : depth ≤ deeper) :
    ∃ after', leave? isa g n deeper edge = some after' ∧ after ≤ after' := by
  obtain ⟨effect, heffect, hpops, rfl⟩ := leave?_eq_some_iff.mp h
  refine ⟨_, leave?_eq_some_iff.mpr ⟨effect, heffect, Nat.le_trans hpops hle, rfl⟩, ?_⟩
  exact Nat.add_le_add_right (Nat.sub_le_sub_right hle _) _

end Runs

/-! ### Steps in any order -/

section Follows

/-- `onward` leads from an instruction to where its edges lead, in some order; it leads nowhere
if one of the edges cannot be taken. -/
structure Follows (isa : InstructionSet) (g : Graph)
    (onward : Nat → Nat → Option (List (Nat × Nat))) : Prop where
  none_iff : ∀ n depth, onward n depth = none ↔ Unknown isa g n ∨ Underflows isa g n depth
  mem_iff : ∀ n depth next, onward n depth = some next → ∀ m after, (m, after) ∈ next ↔
    ∃ edge, (m, edge) ∈ g.edges isa n ∧ leave? isa g n depth edge = some after

theorem exists_mem_of_mapM {α β : Type} {f : α → Option β} : ∀ {xs : List α} {ys : List β},
    xs.mapM f = some ys → ∀ x ∈ xs, ∃ y ∈ ys, f x = some y
  | [], _, _, x, hx => absurd hx List.not_mem_nil
  | x :: xs, ys, h, x', hx => by
    rw [List.mapM_cons] at h
    obtain ⟨y, hfirst, h⟩ := Option.bind_eq_some_iff.mp h
    obtain ⟨ys', hrest, h⟩ := Option.bind_eq_some_iff.mp h
    obtain rfl : y :: ys' = ys := Option.some.inj h
    rcases List.mem_cons.mp hx with rfl | hx
    · exact ⟨y, List.mem_cons_self, hfirst⟩
    · obtain ⟨y', hy', heq⟩ := exists_mem_of_mapM hrest x' hx
      exact ⟨y', List.mem_cons_of_mem y hy', heq⟩

theorem mapM_eq_none_iff {α β : Type} {f : α → Option β} : ∀ {xs : List α},
    xs.mapM f = none ↔ ∃ x ∈ xs, f x = none
  | [] => by simp
  | x :: xs => by
    have ih : xs.mapM f = none ↔ ∃ x ∈ xs, f x = none := mapM_eq_none_iff
    rw [List.mapM_cons]
    cases hfirst : f x with
    | none => simp [hfirst]
    | some y =>
      cases hrest : xs.mapM f with
      | none =>
        rw [hrest] at ih
        simpa [hfirst] using ih
      | some ys =>
        rw [hrest] at ih
        simpa [hfirst] using ih

variable {isa : InstructionSet} {g : Graph}

theorem exists_leave?_eq_none_iff {n depth : Nat} :
    (∃ edge ∈ exits isa g n, leave? isa g n depth edge = none) ↔
      Unknown isa g n ∨ Underflows isa g n depth := by
  simp only [leave?_eq_none_iff, Unknown, Underflows]
  constructor
  · rintro ⟨edge, hmem, hnone | hpops⟩
    · exact Or.inl ⟨edge, hmem, hnone⟩
    · exact Or.inr ⟨edge, hmem, hpops⟩
  · rintro (⟨edge, hmem, hnone⟩ | ⟨edge, hmem, hpops⟩)
    · exact ⟨edge, hmem, Or.inl hnone⟩
    · exact ⟨edge, hmem, Or.inr hpops⟩

theorem onwardOf_cons (leave : Edge → Option Nat) (t : Nat × Edge) (edges : List (Nat × Edge)) :
    onwardOf leave (t :: edges) = (t :: edges).mapM fun t => (leave t.2).map (t.1, ·) := rfl

theorem onward?_of_effects {n : Nat} {next target : Option NodeId}
    {effect : Edge → Option StackEffect} (hnext : g.fallthrough? isa n = next)
    (htarget : g.branch? isa n = target)
    (heffect : ∀ edge, (g.node n).effect isa edge = effect edge) (depth : Nat) :
    onward? isa g n depth = onwardOf
      (fun edge => (effect edge).bind fun e =>
        if depth < e.popped then none else some (depth - e.popped + e.pushed))
      (next.toList.map (·, .fallthrough) ++ target.toList.map (·, .branch)) := by
  have hleave : leave? isa g n depth = fun edge => (effect edge).bind fun e =>
      if depth < e.popped then none else some (depth - e.popped + e.pushed) := by
    funext edge
    rw [leave?, heffect]
    cases effect edge <;> rfl
  rw [onward?_eq, Graph.edges, hnext, htarget, hleave]

theorem follows_onward? (isa : InstructionSet) (g : Graph) : Follows isa g (onward? isa g) where
  none_iff := fun n depth => by
    rw [← exists_leave?_eq_none_iff, onward?_eq, exits]
    cases g.edges isa n with
    | nil => simp [onwardOf]
    | cons t edges =>
      rw [onwardOf_cons, mapM_eq_none_iff]
      constructor
      · rintro ⟨t', ht', hnone⟩
        exact ⟨t'.2, List.mem_map_of_mem ht', Option.map_eq_none_iff.mp hnone⟩
      · rintro ⟨edge, hmem, hnone⟩
        obtain ⟨t', ht', rfl⟩ := List.mem_map.mp hmem
        exact ⟨t', ht', Option.map_eq_none_iff.mpr hnone⟩
  mem_iff := fun n depth next hnext m after => by
    rw [onward?_eq] at hnext
    cases hedges : g.edges isa n with
    | nil =>
      rw [hedges] at hnext
      obtain ⟨_, -, rfl⟩ := Option.map_eq_some_iff.mp hnext
      simp
    | cons t edges =>
      rw [hedges] at hnext
      constructor
      · intro hmem
        obtain ⟨t', ht', heq⟩ := exists_of_mem_mapM hnext _ hmem
        obtain ⟨_, hleave, heq⟩ := Option.map_eq_some_iff.mp heq
        obtain ⟨rfl, rfl⟩ := Prod.mk.inj heq
        exact ⟨t'.2, ht', hleave⟩
      · rintro ⟨edge, hmem, hleave⟩
        obtain ⟨s, hs, heq⟩ := exists_mem_of_mapM hnext _ hmem
        rw [hleave] at heq
        obtain rfl : (m, after) = s := Option.some.inj heq
        exact hs

end Follows

/-! ### What the walk has seen -/

section Walk

variable {onward : Nat → Nat → Option (List (Nat × Nat))} {work : List (Nat × Nat)}
  {seen : Nat → Nat} {deepest m : Nat} {r : Option Nat} {P : Nat → Nat → Prop}

theorem foldl_max_eq_or_mem : ∀ (depths : List Nat) (deepest : Nat),
    depths.foldl max deepest = deepest ∨ depths.foldl max deepest ∈ depths
  | [], _ => Or.inl rfl
  | depth :: depths, deepest => by
    rw [List.foldl_cons]
    rcases foldl_max_eq_or_mem depths (max deepest depth) with heq | hmem
    · rw [heq]
      rcases Nat.le_total deepest depth with hle | hle
      · rw [Nat.max_eq_right hle]
        exact Or.inr List.mem_cons_self
      · exact Or.inl (Nat.max_eq_left hle)
    · exact Or.inr (List.mem_cons_of_mem _ hmem)

/-- What holds of the states that wait, and goes on holding, holds of the state at which the walk
gives up, or else of one with the depth that it answers, unless that was there before. -/
theorem Walks.reaches (hstep : ∀ n depth next, P n depth → onward n depth = some next →
      ∀ s ∈ next, P s.1 s.2) (h : Walks onward work seen deepest r)
    (hwork : ∀ s ∈ work, P s.1 s.2) :
    (r = none → ∃ n depth, P n depth ∧ (onward n depth = none ∨ depthLimit < depth)) ∧
      ∀ m, r = some m → m = deepest ∨ ∃ n, P n m := by
  induction h with
  | done =>
    exact ⟨fun h => absurd h (Option.some_ne_none _), fun m hm => Or.inl (Option.some.inj hm).symm⟩
  | pass _ _ ih => exact ih fun s hs => hwork s (List.mem_cons_of_mem _ hs)
  | @far n depth _ _ _ _ hfar =>
    exact ⟨fun _ => ⟨n, depth, hwork _ List.mem_cons_self, Or.inr hfar⟩,
      fun _ hm => absurd hm.symm (Option.some_ne_none _)⟩
  | @stuck n depth _ _ _ _ _ hstuck =>
    exact ⟨fun _ => ⟨n, depth, hwork _ List.mem_cons_self, Or.inl hstuck⟩,
      fun _ hm => absurd hm.symm (Option.some_ne_none _)⟩
  | @visit n depth deepest work next seen r _ _ hnext _ ih =>
    have hn : P n depth := hwork _ List.mem_cons_self
    have hafter := hstep n depth next hn hnext
    obtain ⟨hnone, hsome⟩ := ih fun s hs => by
      rcases List.mem_append.mp hs with hs | hs
      · exact hafter s (List.mem_reverse.mp hs)
      · exact hwork s (List.mem_cons_of_mem _ hs)
    refine ⟨hnone, fun m hm => ?_⟩
    rcases hsome m hm with heq | hmem
    · -- the greatest depth so far is that of an earlier state, of this one, or of one behind it
      rcases foldl_max_eq_or_mem (next.map (·.2)) (max deepest depth) with hmax | hmax
      · rcases Nat.le_total deepest depth with hle | hle
        · rw [heq, hmax, Nat.max_eq_right hle]
          exact Or.inr ⟨n, hn⟩
        · rw [heq, hmax]
          exact Or.inl (Nat.max_eq_left hle)
      · rw [← heq] at hmax
        obtain ⟨s, hs, rfl⟩ := List.mem_map.mp hmax
        exact Or.inr ⟨s.1, hafter s hs⟩
    · exact Or.inr hmem

/-- What a walk that answers `m` has seen at its end, when `seen` was seen and `work` waited. As
in `Walks`, `final` is one more than the depth of the last visit. -/
structure Exhausts (onward : Nat → Nat → Option (List (Nat × Nat))) (P : Nat → Nat → Prop)
    (work : List (Nat × Nat)) (seen final : Nat → Nat) (deepest m : Nat) : Prop where
  seen_le : ∀ n, seen n ≤ final n
  work_lt : ∀ s ∈ work, s.2 < final s.1
  deepest_le : deepest ≤ m
  visited : ∀ n, seen n < final n → ∃ depth next, final n = depth + 1 ∧ P n depth ∧ depth ≤ m ∧
    depth ≤ depthLimit ∧ onward n depth = some next ∧ ∀ s ∈ next, s.2 < final s.1

/-- **A walk that ends with an answer has gone on from the deepest state of every node.** -/
theorem Walks.exhausts (hstep : ∀ n depth next, P n depth → onward n depth = some next →
      ∀ s ∈ next, P s.1 s.2) (h : Walks onward work seen deepest r) : ∀ {m : Nat}, r = some m →
    (∀ s ∈ work, P s.1 s.2) → ∃ final, Exhausts onward P work seen final deepest m := by
  induction h with
  | @done seen deepest =>
    intro m hm _
    obtain rfl := Option.some.inj hm
    exact ⟨seen, fun _ => Nat.le_refl _, by simp, Nat.le_refl _,
      fun n hn => absurd hn (Nat.lt_irrefl _)⟩
  | pass hseen _ ih =>
    intro m hm hwork
    obtain ⟨final, hf⟩ := ih hm fun s hs => hwork s (List.mem_cons_of_mem _ hs)
    refine ⟨final, hf.seen_le, ?_, hf.deepest_le, hf.visited⟩
    exact List.forall_mem_cons.mpr ⟨Nat.lt_of_lt_of_le hseen (hf.seen_le _), hf.work_lt⟩
  | far => exact fun hm => absurd hm.symm (Option.some_ne_none _)
  | stuck => exact fun hm => absurd hm.symm (Option.some_ne_none _)
  | @visit n depth deepest work next seen r hseen hnear hnext _ ih =>
    intro m hm hwork
    obtain ⟨hn, hrest⟩ := List.forall_mem_cons.mp hwork
    obtain ⟨final, hf⟩ := ih hm fun s hs => by
      rcases List.mem_append.mp hs with hs | hs
      · exact hstep n depth next hn hnext s (List.mem_reverse.mp hs)
      · exact hrest s hs
    have hself : depth + 1 ≤ final n := by
      have hle := hf.seen_le n
      rwa [Function.update_self] at hle
    have hdeep : max deepest depth ≤ m := Nat.le_trans (le_foldl_max _ _).1 hf.deepest_le
    refine ⟨final, fun k => ?_, ?_, Nat.le_trans (Nat.le_max_left _ _) hdeep, fun k hk => ?_⟩
    · by_cases hkn : k = n
      · rw [hkn]
        exact Nat.le_trans (Nat.le_succ_of_le hseen) hself
      · have hle := hf.seen_le k
        rwa [Function.update_of_ne hkn] at hle
    · exact List.forall_mem_cons.mpr
        ⟨hself, fun s hs => hf.work_lt s (List.mem_append_right _ hs)⟩
    · by_cases hkn : k = n
      · subst hkn
        rcases Nat.lt_or_eq_of_le hself with hlt | heq
        · exact hf.visited k (by rwa [Function.update_self])
        · -- this was the last visit to the node
          refine ⟨depth, next, heq.symm, hn, Nat.le_trans (Nat.le_max_right _ _) hdeep, hnear,
            hnext, fun s hs => hf.work_lt s ?_⟩
          exact List.mem_append_left _ (List.mem_reverse.mpr hs)
      · exact hf.visited k (by rwa [Function.update_of_ne hkn])

end Walk

/-! ### The walk against the runs -/

namespace Follows

variable {isa : InstructionSet} {g : Graph} {onward : Nat → Nat → Option (List (Nat × Nat))}
  {roots : List NodeId} {m n depth : Nat} {r r' : Option Nat}

theorem runs_step (hf : Follows isa g onward) (roots : List NodeId) :
    ∀ n depth next, Runs isa g roots n depth → onward n depth = some next →
      ∀ s ∈ next, Runs isa g roots s.1 s.2 := by
  intro n depth next hruns hnext s hs
  obtain ⟨edge, hedge, hleave⟩ := (hf.mem_iff n depth next hnext s.1 s.2).mp hs
  exact hruns.leave hedge hleave

theorem runs_roots : ∀ s ∈ roots.map (·, 0), Runs isa g roots s.1 s.2 := by
  intro s hs
  obtain ⟨r, hr, rfl⟩ := List.mem_map.mp hs
  exact .root hr

/-- **Every run is overtaken by one that the walk made.** That one gets to the same instruction with
at least as many values, no more than were found, and the instruction can be left with them. -/
theorem overtaken (hf : Follows isa g onward)
    (h : Walks onward (roots.map (·, 0)) (fun _ => 0) 0 (some m))
    (hruns : Runs isa g roots n depth) :
    ∃ top, depth ≤ top ∧ top ≤ m ∧ top ≤ depthLimit ∧ Runs isa g roots n top ∧
      ¬ Unknown isa g n ∧ ¬ Underflows isa g n top := by
  obtain ⟨final, hfinal⟩ := h.exhausts (hf.runs_step roots) rfl runs_roots
  have hlt : depth < final n := by
    induction hruns with
    | root hr => exact hfinal.work_lt _ (List.mem_map_of_mem hr)
    | @step n m depth edge effect _ hedge heffect hpops ih =>
      obtain ⟨top, next, htop, -, -, -, hnext, hbelow⟩ := hfinal.visited n (Nat.zero_lt_of_lt ih)
      have hleave := leave?_eq_some_iff.mpr ⟨effect, heffect, hpops, rfl⟩
      rw [htop] at ih
      obtain ⟨after, hafter, hle⟩ := leave?_mono hleave (Nat.lt_succ_iff.mp ih)
      have hmem := (hf.mem_iff n top next hnext m after).mpr ⟨edge, hedge, hafter⟩
      exact Nat.lt_of_le_of_lt hle (hbelow _ hmem)
  obtain ⟨top, next, htop, htopruns, hm, hlimit, hnext, -⟩ :=
    hfinal.visited n (Nat.zero_lt_of_lt hlt)
  have hleft : ¬ (Unknown isa g n ∨ Underflows isa g n top) := by
    rw [← hf.none_iff, hnext]
    exact Option.some_ne_none next
  rw [htop] at hlt
  exact ⟨top, Nat.lt_succ_iff.mp hlt, hm, hlimit, htopruns, not_or.mp hleft⟩

/-- A depth that is found is the greatest of the depths of all runs. -/
theorem exact (hf : Follows isa g onward)
    (h : Walks onward (roots.map (·, 0)) (fun _ => 0) 0 (some m)) (hne : roots ≠ []) :
    (∀ n depth, Runs isa g roots n depth → depth ≤ m) ∧
      ∃ n, Runs isa g roots n m ∧ ¬ Unknown isa g n ∧ ¬ Underflows isa g n m := by
  have hle : ∀ n depth, Runs isa g roots n depth → depth ≤ m := by
    intro n depth hruns
    obtain ⟨top, htop, hm, -⟩ := hf.overtaken h hruns
    exact Nat.le_trans htop hm
  obtain ⟨n, hruns⟩ : ∃ n, Runs isa g roots n m := by
    rcases (h.reaches (hf.runs_step roots) runs_roots).2 m rfl with rfl | hruns
    · obtain ⟨r, hr⟩ := List.exists_mem_of_ne_nil roots hne
      exact ⟨r, .root hr⟩
    · exact hruns
  obtain ⟨top, htop, hm, -, htopruns, hleft⟩ := hf.overtaken h hruns
  obtain rfl : top = m := Nat.le_antisymm hm htop
  exact ⟨hle, n, htopruns, hleft⟩

theorem refused (hf : Follows isa g onward)
    (h : Walks onward (roots.map (·, 0)) (fun _ => 0) 0 none) :
    ∃ n depth, Runs isa g roots n depth ∧ Refused isa g n depth := by
  obtain ⟨n, depth, hruns, hend⟩ :=
    (h.reaches (hf.runs_step roots) runs_roots).1 rfl
  rw [hf.none_iff, or_assoc] at hend
  exact ⟨n, depth, hruns, hend⟩

/-- If a depth is found, a run that cannot go on underflows, and is hidden. -/
theorem hidden (hf : Follows isa g onward)
    (h : Walks onward (roots.map (·, 0)) (fun _ => 0) 0 (some m)) (hruns : Runs isa g roots n depth)
    (hend : Refused isa g n depth) : Underflows isa g n depth ∧ Hidden isa g roots n depth := by
  obtain ⟨top, htop, -, hlimit, htopruns, hknown, henough⟩ := hf.overtaken h hruns
  rcases hend with hunknown | hunder | hfar
  · exact absurd hunknown hknown
  · have hne : depth ≠ top := fun heq => henough (heq ▸ hunder)
    exact ⟨hunder, top, Nat.lt_of_le_of_ne htop hne, htopruns, henough⟩
  · exact absurd (Nat.le_trans htop hlimit) (Nat.not_le.mpr hfar)

/-- Two orders of the same steps find the same depth, or one of them meets an underflow that is
hidden from the other. -/
theorem eq_or_hidden {onward' : Nat → Nat → Option (List (Nat × Nat))} {roots' : List NodeId}
    (hf : Follows isa g onward) (hf' : Follows isa g onward') (hroots : ∀ n, n ∈ roots' ↔ n ∈ roots)
    (h : Walks onward (roots.map (·, 0)) (fun _ => 0) 0 r)
    (h' : Walks onward' (roots'.map (·, 0)) (fun _ => 0) 0 r') :
    r' = r ∨ (r' = none ∨ r = none) ∧ ∃ n depth, Runs isa g roots n depth ∧
      Underflows isa g n depth ∧ Hidden isa g roots n depth := by
  have hto : ∀ n ∈ roots', n ∈ roots := fun n => (hroots n).mp
  have hfrom : ∀ n ∈ roots, n ∈ roots' := fun n => (hroots n).mpr
  cases r with
  | none =>
    cases r' with
    | none => exact Or.inl rfl
    | some m' =>
      obtain ⟨n, depth, hruns, hend⟩ := hf.refused h
      obtain ⟨hunder, hhidden⟩ := hf'.hidden h' (hruns.of_roots hfrom) hend
      exact Or.inr ⟨Or.inr rfl, n, depth, hruns, hunder, hhidden.of_roots hto⟩
  | some m =>
    cases r' with
    | none =>
      obtain ⟨n, depth, hruns, hend⟩ := hf'.refused h'
      obtain ⟨hunder, hhidden⟩ := hf.hidden h (hruns.of_roots hto) hend
      exact Or.inr ⟨Or.inl rfl, n, depth, hruns.of_roots hto, hunder, hhidden⟩
    | some m' =>
      left
      by_cases hempty : roots = []
      · have hempty' : roots' = [] :=
          List.eq_nil_iff_forall_not_mem.mpr fun n hn => by
            rw [hempty] at hto
            exact absurd (hto n hn) List.not_mem_nil
        subst hempty
        subst hempty'
        rw [h.unique .done, h'.unique .done]
      · have hempty' : roots' ≠ [] := by
          obtain ⟨n, hn⟩ := List.exists_mem_of_ne_nil roots hempty
          exact List.ne_nil_of_mem (hfrom n hn)
        obtain ⟨hle, n, hruns, -⟩ := hf.exact h hempty
        obtain ⟨hle', n', hruns', -⟩ := hf'.exact h' hempty'
        exact congrArg some (Nat.le_antisymm (hle n' m' (hruns'.of_roots hto))
          (hle' n m (hruns.of_roots hfrom)))

end Follows

/-! ### The greatest depth -/

section Greatest

variable {isa : InstructionSet} {g : Graph} {roots : List NodeId}

theorem walks_roots (isa : InstructionSet) (hg : g.Closed) (hroots : ∀ r ∈ roots, r < g.size) :
    Walks (onward? isa g) (roots.reverse.map (·, 0)) (fun _ => 0) 0 (maxStackDepth isa g roots) := by
  have hsize : ∀ n, n < g.size → n < g.size := fun _ hn => hn
  exact walks_maxStackDepth hsize
    (fun _ _ _ _ hnext s hs => hg.lt_of_mem_targets (mem_targets_of_onward? hnext s hs)) hroots

/-- A constant is pushed once, and a value popped every time round. -/
def draining : Graph := ⟨#[{ opcode := ⟨100⟩, operand := .constant .none, successor := some 1 },
  { opcode := ⟨1⟩, successor := some 2 },
  { opcode := ⟨113⟩, operand := .jump, branch := some 1 }]⟩

theorem onward?_draining : onward? .python38 draining 0 0 = some [(1, 1)] ∧
    onward? .python38 draining 1 1 = some [(2, 0)] ∧
    onward? .python38 draining 2 0 = some [(1, 0)] ∧ onward? .python38 draining 1 0 = none := by
  obtain ⟨hfall₀, hfall₁, hfall₂⟩ : draining.fallthrough? .python38 0 = some 1 ∧
      draining.fallthrough? .python38 1 = some 2 ∧ draining.fallthrough? .python38 2 = none := by
    refine ⟨?_, ?_, ?_⟩ <;> rw [Graph.fallthrough?, Node.fallsThrough, Node.flags,
      InstructionSet.flags, InstructionSet.info_python38] <;> decide +kernel
  obtain ⟨hjump₀, hjump₁, hjump₂⟩ : draining.branch? .python38 0 = none ∧
      draining.branch? .python38 1 = none ∧ draining.branch? .python38 2 = some 1 := by
    refine ⟨?_, ?_, ?_⟩ <;> rw [Graph.branch?, Node.isJump, Node.flags, InstructionSet.flags,
      InstructionSet.info_python38] <;> decide +kernel
  obtain ⟨hpush, hpop, hback⟩ : (∀ e, (draining.node 0).effect .python38 e = some ⟨1, 0, []⟩) ∧
      (∀ e, (draining.node 1).effect .python38 e = some ⟨0, 1, []⟩) ∧
      ∀ e, (draining.node 2).effect .python38 e = some ⟨0, 0, []⟩ := by
    refine ⟨fun e => ?_, fun e => ?_, fun e => ?_⟩ <;> rw [Node.effect, InstructionSet.effect,
      InstructionSet.info_python38] <;> cases e <;> decide +kernel
  exact ⟨onward?_of_effects hfall₀ hjump₀ hpush 0, onward?_of_effects hfall₁ hjump₁ hpop 1,
    onward?_of_effects hfall₂ hjump₂ hback 0, onward?_of_effects hfall₁ hjump₁ hpop 0⟩

theorem maxStackDepth_draining {work : List (NodeId × Nat)}
    (hroots : ∀ r ∈ roots, r < draining.size) (hfirst : roots.reverse.map (·, 0) = (0, 0) :: work)
    (hwork : ∀ seen, seen 1 = 2 → Walks (onward? .python38 draining) work seen 1 (some 1)) :
    maxStackDepth .python38 draining roots = some 1 := by
  obtain ⟨hpush, hpop, hback, -⟩ := onward?_draining
  have hclosed : draining.Closed := by decide
  have hwalk := walks_roots .python38 hclosed hroots
  rw [hfirst] at hwalk
  refine hwalk.unique ?_
  -- push, pop and jump back; the head was visited with more, so its second round is passed over
  refine .visit (by decide) (by decide) hpush ?_
  refine .visit (by decide) (by decide) hpop ?_
  refine .visit (by decide) (by decide) hback ?_
  exact .pass (by decide) (hwork _ (by decide))

theorem underflows_draining :
    Runs .python38 draining [0] 1 0 ∧ Underflows .python38 draining 1 0 := by
  obtain ⟨hpush, hpop, hback, hempty⟩ := onward?_draining
  have hf := follows_onward? .python38 draining
  have hstep := hf.runs_step [0]
  have hfirst := hstep 0 0 _ (.root List.mem_cons_self) hpush (1, 1) List.mem_cons_self
  have hagain := hstep 1 1 _ hfirst hpop (2, 0) List.mem_cons_self
  refine ⟨hstep 2 0 _ hagain hback (1, 0) List.mem_cons_self, ?_⟩
  rcases (hf.none_iff 1 0).mp hempty with hunknown | hunder
  · -- with a value on the stack the instruction can be left, so its effect is known
    have hleft := mt (hf.none_iff 1 1).mpr (hpop ▸ Option.some_ne_none _)
    exact absurd (Or.inl hunknown) hleft
  · exact hunder

/-- **The depth that is found is exact.** No run gets to any instruction with more values on the
stack, and some run gets to an instruction with that many, and can leave it. -/
theorem maxStackDepth_exact (hg : g.Closed) (hroots : ∀ r ∈ roots, r < g.size) (hne : roots ≠ [])
    {m : Nat} (h : maxStackDepth isa g roots = some m) :
    (∀ n depth, Runs isa g roots n depth → depth ≤ m) ∧
      ∃ n, Runs isa g roots n m ∧ ¬ Unknown isa g n ∧ ¬ Underflows isa g n m := by
  have hwalk := walks_roots isa hg hroots
  rw [h] at hwalk
  have hto : ∀ r ∈ roots, r ∈ roots.reverse := fun r => List.mem_reverse.mpr
  have hfrom : ∀ r ∈ roots.reverse, r ∈ roots := fun r => List.mem_reverse.mp
  obtain ⟨hle, n, hruns, hleft⟩ :=
    (follows_onward? isa g).exact hwalk (List.reverse_ne_nil_iff.mpr hne)
  exact ⟨fun n depth hd => hle n depth (hd.of_roots hto), n, hruns.of_roots hfrom, hleft⟩

/-- The loop is entered with one value and again with none: one is the most. -/
theorem maxStackDepth_exact_draining :
    (draining.Closed ∧ (∀ r ∈ [0], r < draining.size) ∧ [0] ≠ [] ∧
      maxStackDepth .python38 draining [0] = some 1) ∧
      (∀ n depth, Runs .python38 draining [0] n depth → depth ≤ 1) ∧
      ∃ n, Runs .python38 draining [0] n 1 ∧ ¬ Unknown .python38 draining n ∧
        ¬ Underflows .python38 draining n 1 := by
  have hclosed : draining.Closed := by decide
  have hroots : ∀ r ∈ [0], r < draining.size := by decide
  have hne : [0] ≠ [] := List.cons_ne_nil 0 []
  have hdepth : maxStackDepth .python38 draining [0] = some 1 :=
    maxStackDepth_draining hroots rfl fun _ _ => .done
  exact ⟨⟨hclosed, hroots, hne, hdepth⟩, maxStackDepth_exact hclosed hroots hne hdepth⟩

/-- **Whether a depth is found.** If none is, then some run gets to an instruction of unknown
effect, to one that pops more than there is, or beyond the limit. If some run does, then none is
found, except that an underflow may be hidden. Other orders of the roots and of the edges lead to
the same answer, except that a hidden underflow may be met in one order and not in the other. -/
theorem maxStackDepth_refuses (hg : g.Closed) (hroots : ∀ r ∈ roots, r < g.size) :
    (maxStackDepth isa g roots = none →
      ∃ n depth, Runs isa g roots n depth ∧ Refused isa g n depth) ∧
    (∀ n depth, Runs isa g roots n depth → Refused isa g n depth →
      maxStackDepth isa g roots = none ∨
        Underflows isa g n depth ∧ Hidden isa g roots n depth) ∧
    ∀ onward (roots' : List NodeId) r, Follows isa g onward → (∀ n, n ∈ roots' ↔ n ∈ roots) →
      Walks onward (roots'.map (·, 0)) (fun _ => 0) 0 r →
      r = maxStackDepth isa g roots ∨ (r = none ∨ maxStackDepth isa g roots = none) ∧
        ∃ n depth, Runs isa g roots n depth ∧ Underflows isa g n depth ∧
          Hidden isa g roots n depth := by
  have hwalk := walks_roots isa hg hroots
  have hf := follows_onward? isa g
  have hto : ∀ r ∈ roots, r ∈ roots.reverse := fun r => List.mem_reverse.mpr
  have hfrom : ∀ r ∈ roots.reverse, r ∈ roots := fun r => List.mem_reverse.mp
  refine ⟨fun hnone => ?_, fun n depth hruns hend => ?_, fun onward roots' r hf' hsame h' => ?_⟩
  · rw [hnone] at hwalk
    obtain ⟨n, depth, hruns, hend⟩ := hf.refused hwalk
    exact ⟨n, depth, hruns.of_roots hfrom, hend⟩
  · cases hdepth : maxStackDepth isa g roots with
    | none => exact Or.inl rfl
    | some m =>
      rw [hdepth] at hwalk
      obtain ⟨hunder, hhidden⟩ := hf.hidden hwalk (hruns.of_roots hto) hend
      exact Or.inr ⟨hunder, hhidden.of_roots hfrom⟩
  · have hsame' : ∀ n, n ∈ roots' ↔ n ∈ roots.reverse := fun n => by
      rw [hsame, List.mem_reverse]
    rcases hf.eq_or_hidden hf' hsame' hwalk h' with heq | ⟨hone, n, depth, hruns, hunder, hhidden⟩
    · exact Or.inl heq
    · exact Or.inr ⟨hone, n, depth, hruns.of_roots hfrom, hunder, hhidden.of_roots hfrom⟩

/-- The underflow in the second round is hidden behind the first. -/
theorem maxStackDepth_refuses_draining :
    (draining.Closed ∧ ∀ r ∈ [0], r < draining.size) ∧ Runs .python38 draining [0] 1 0 ∧
      Underflows .python38 draining 1 0 ∧ Hidden .python38 draining [0] 1 0 := by
  have hclosed : draining.Closed := by decide
  have hroots : ∀ r ∈ [0], r < draining.size := by decide
  have hdepth : maxStackDepth .python38 draining [0] = some 1 :=
    maxStackDepth_draining hroots rfl fun _ _ => .done
  obtain ⟨hruns, hunder⟩ := underflows_draining
  obtain ⟨-, hrefuses, -⟩ := @maxStackDepth_refuses .python38 draining [0] hclosed hroots
  rcases hrefuses 1 0 hruns (Or.inr (Or.inl hunder)) with hnone | hhidden
  · rw [hdepth] at hnone
    exact absurd hnone (Option.some_ne_none 1)
  · exact ⟨⟨hclosed, hroots⟩, hruns, hhidden⟩

/-- The second round of the draining loop pops from an empty stack, and still a depth is found. With
the head of the loop as a root too, the order of the roots decides. -/
theorem underflow_hidden_in_loop :
    draining.Closed ∧ (∀ r ∈ [0, 1], r < draining.size) ∧ Runs .python38 draining [0] 1 0 ∧
      Underflows .python38 draining 1 0 ∧ maxStackDepth .python38 draining [0] = some 1 ∧
      maxStackDepth .python38 draining [1, 0] = some 1 ∧
      maxStackDepth .python38 draining [0, 1] = none := by
  have hclosed : draining.Closed := by decide
  have hroots : ∀ r ∈ [0, 1], r < draining.size := by decide
  obtain ⟨hruns, hunder⟩ := underflows_draining
  refine ⟨hclosed, hroots, hruns, hunder, ?_, ?_, ?_⟩
  · exact maxStackDepth_draining (by decide) rfl fun _ _ => .done
  · exact maxStackDepth_draining (by decide) rfl fun seen hseen =>
      .pass (hseen ▸ Nat.zero_lt_two) .done
  · obtain ⟨-, -, -, hempty⟩ := onward?_draining
    have hwalk := walks_roots .python38 hclosed hroots
    exact hwalk.unique (.stuck (Nat.le_refl 0) (Nat.zero_le _) hempty)

end Greatest

end StackDepth

end Wordcode
