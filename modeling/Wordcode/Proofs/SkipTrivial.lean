/-
# Where trivial instructions lead

A trivial instruction has at most one edge, so from any node there is one way on
through trivial instructions. It ends at an instruction that is not trivial, at
one that leads nowhere, or it runs into an empty loop. Both ends and the nodes of
the loop are what comes back to itself when one goes on and stays where nothing
leads on: the periodic points of `Graph.onward`.

Skipping stops at the first of them. Past a tail of nodes that never come back
it meets one; going round from there, the first node that was already passed is
that one itself, since up to the period all nodes on the way differ.

Key definitions: `Graph.Trivial`, `Graph.onward`, `Graph.Settled`.
Key theorems: `Graph.skipTrivial_spec`, `Graph.skipTrivial_of_settled`,
`Graph.skipTrivial_of_not_settled`, `Graph.edges_of_trivial`.
-/
import Mathlib.Dynamics.PeriodicPts.Defs
import Wordcode.Simplify
import Wordcode.Proofs.BuiltIn
import Wordcode.Proofs.Reachability

namespace Wordcode

namespace Graph

open Function

/-! ### Trivial instructions -/

section Trivial

variable (isa : InstructionSet) (g : Graph)

/-- The instruction is a no-op, an extension unit or an unconditional jump. -/
def Trivial (n : NodeId) : Prop :=
  ((g.node n).flags isa).noOp = true ∨ ((g.node n).flags isa).extension = true ∨
    ((g.node n).flags isa).isJump = true ∧ ((g.node n).flags isa).unconditional = true

instance (n : NodeId) : Decidable (g.Trivial isa n) := by
  unfold Trivial
  infer_instance

/-- One step on past a trivial instruction; where nothing leads on, no step. -/
def onward (n : Nat) : Nat := (g.trivialNext? isa n).getD n

/-- The node comes back to itself: it leads nowhere by itself, or lies on an empty
loop. -/
def Settled (n : Nat) : Prop := n ∈ periodicPts (g.onward isa)

variable {isa g} {n m : Nat}

theorem trivialNext?_of_not_trivial (h : ¬ g.Trivial isa n) : g.trivialNext? isa n = none := by
  simp only [Trivial, not_or, not_and, Bool.not_eq_true] at h
  obtain ⟨hnop, hext, hjump⟩ := h
  simp only [trivialNext?, hnop, hext, Bool.or_self, Bool.false_eq_true, if_false]
  rw [if_neg]
  rw [Bool.and_eq_true]
  rintro ⟨hj, hu⟩
  rw [hjump hj] at hu
  cases hu

theorem trivial_of_trivialNext? (h : g.trivialNext? isa n = some m) : g.Trivial isa n := by
  by_contra hn
  rw [trivialNext?_of_not_trivial hn] at h
  cases h

theorem onward_of_some (h : g.trivialNext? isa n = some m) : g.onward isa n = m := by
  rw [onward, h, Option.getD_some]

theorem onward_of_none (h : g.trivialNext? isa n = none) : g.onward isa n = n := by
  rw [onward, h, Option.getD_none]

theorem settled_of_none (h : g.trivialNext? isa n = none) : g.Settled isa n :=
  mk_mem_periodicPts Nat.one_pos (IsFixedPt.isPeriodicPt (onward_of_none h) 1)

theorem settled_of_not_trivial (h : ¬ g.Trivial isa n) : g.Settled isa n :=
  settled_of_none (trivialNext?_of_not_trivial h)

theorem Settled.iterate (h : g.Settled isa n) (i : Nat) : g.Settled isa ((g.onward isa)^[i] n) := by
  obtain ⟨p, hp, hper⟩ := h
  exact ⟨p, hp, hper.apply_iterate i⟩

theorem Settled.onward (h : g.Settled isa n) : g.Settled isa (g.onward isa n) := h.iterate 1

theorem Closed.onward_lt (hg : g.Closed) (hn : n < g.size) : g.onward isa n < g.size := by
  cases h : g.trivialNext? isa n with
  | none => rwa [onward_of_none h]
  | some m =>
    rw [onward_of_some h]
    unfold trivialNext? at h
    by_cases hidle : ((g.node n).flags isa).noOp || ((g.node n).flags isa).extension
    · simp only [hidle, if_true] at h
      exact hg.lt_of_successor h
    · by_cases hjump : ((g.node n).flags isa).isJump && ((g.node n).flags isa).unconditional
      · simp only [hidle, hjump, Bool.false_eq_true, if_false, if_true] at h
        exact hg.lt_of_branch h
      · simp only [hidle, hjump, Bool.false_eq_true, if_false] at h
        cases h

theorem Closed.iterate_lt (hg : g.Closed) (hn : n < g.size) :
    ∀ i : Nat, (g.onward isa)^[i] n < g.size
  | 0 => hn
  | i + 1 => by
    rw [iterate_succ_apply']
    exact hg.onward_lt (hg.iterate_lt hn i)

end Trivial

/-! ### Skipping -/

section Skip

variable {isa : InstructionSet} {g : Graph} (hg : g.Closed) {n : Nat}
include hg

omit hg in
theorem skipFrom_succ (room : Nat) {passed : Std.HashSet NodeId}
    (hp : passed.contains n = false) (hne : g.onward isa n ≠ n) :
    g.skipFrom isa (room + 1) passed n =
      g.skipFrom isa room (passed.insert n) (g.onward isa n) := by
  cases h : g.trivialNext? isa n with
  | none => exact absurd (onward_of_none h) hne
  | some m => simp only [skipFrom, h, hp, Bool.false_eq_true, if_false, onward_of_some h]

omit hg in
theorem skipFrom_stop (room : Nat) {passed : Std.HashSet NodeId}
    (h : passed.contains n = true ∨ g.onward isa n = n) :
    g.skipFrom isa room passed n = n := by
  induction room generalizing passed with
  | zero => rfl
  | succ room ih =>
    cases hnext : g.trivialNext? isa n with
    | none => simp only [skipFrom, hnext]
    | some m =>
      simp only [skipFrom, hnext]
      split
      · rfl
      · rename_i hp
        have hfix := h.resolve_left hp
        have hm : m = n := (onward_of_some hnext).symm.trans hfix
        rw [hm]
        exact ih (Or.inr hfix)

/-- Round a loop: when the nodes from `n` on up to its `j`-th are the settled ones that
were passed, skipping goes on until it comes back to `n`. -/
theorem skipFrom_of_settled (hs : g.Settled isa n) (hn : n < g.size) :
    ∀ (room j : Nat) (passed : Std.HashSet NodeId), j ≤ minimalPeriod (g.onward isa) n →
      (∀ m, passed.contains m = true → g.Settled isa m → ∃ i < j, (g.onward isa)^[i] n = m) →
      (∀ i < j, passed.contains ((g.onward isa)^[i] n) = true) →
      unseen (List.range g.size) passed ≤ room →
      g.skipFrom isa room passed ((g.onward isa)^[j] n) = n
  | room, j, passed, hj, honly, hall, hroom => by
    rcases Nat.lt_or_eq_of_le hj with hlt | rfl
    · have hp : passed.contains ((g.onward isa)^[j] n) = false := by
        by_contra hc
        obtain ⟨i, hij, heq⟩ := honly _ (by simpa using hc) (hs.iterate j)
        have := iterate_injOn_Iio_minimalPeriod (Nat.lt_trans hij hlt) hlt heq
        omega
      by_cases hfix : g.onward isa ((g.onward isa)^[j] n) = (g.onward isa)^[j] n
      · have hperiod : (g.onward isa)^[minimalPeriod (g.onward isa) n] n = n := iterate_minimalPeriod
        obtain ⟨d, hd⟩ := Nat.exists_eq_add_of_le hj
        rw [hd, Nat.add_comm, iterate_add_apply, iterate_fixed hfix] at hperiod
        rw [skipFrom_stop room (Or.inr hfix), hperiod]
      · have hmem : (g.onward isa)^[j] n ∈ List.range g.size :=
          List.mem_range.mpr (hg.iterate_lt hn j)
        have hless := unseen_insert_lt hp hmem
        obtain ⟨room, rfl⟩ : ∃ r, room = r + 1 := ⟨room - 1, by omega⟩
        rw [skipFrom_succ room hp hfix, ← iterate_succ_apply' (g.onward isa)]
        refine skipFrom_of_settled hs hn room (j + 1) _ hlt ?_ ?_ (by omega)
        · intro m hm hms
          rw [Std.HashSet.contains_insert, Bool.or_eq_true, beq_iff_eq] at hm
          rcases hm with rfl | hm
          · exact ⟨j, Nat.lt_succ_self j, rfl⟩
          · obtain ⟨i, hij, heq⟩ := honly m hm hms
            exact ⟨i, Nat.lt_succ_of_lt hij, heq⟩
        · intro i hi
          rw [Std.HashSet.contains_insert, Bool.or_eq_true, beq_iff_eq]
          rcases Nat.lt_succ_iff_lt_or_eq.mp hi with hi | rfl
          · exact Or.inr (hall i hi)
          · exact Or.inl rfl
    · have hpos : 0 < minimalPeriod (g.onward isa) n := minimalPeriod_pos_of_mem_periodicPts hs
      have hn := hall 0 hpos
      rw [iterate_minimalPeriod]
      exact skipFrom_stop room (Or.inl hn)

/-- Along a tail: when the nodes passed lead here and none of them comes back to itself,
skipping goes on to the first node that does. -/
theorem skipFrom_spec : ∀ (room : Nat) (passed : Std.HashSet NodeId) (n : Nat), n < g.size →
    (∀ m, passed.contains m = true → ¬ g.Settled isa m ∧ ∃ i > 0, (g.onward isa)^[i] m = n) →
    unseen (List.range g.size) passed ≤ room →
    ∃ k, g.skipFrom isa room passed n = (g.onward isa)^[k] n ∧
      g.Settled isa ((g.onward isa)^[k] n) ∧ ∀ i < k, ¬ g.Settled isa ((g.onward isa)^[i] n)
  | room, passed, n, hn, hpassed, hroom => by
    by_cases hs : g.Settled isa n
    · refine ⟨0, ?_, hs, fun i hi => absurd hi (Nat.not_lt_zero i)⟩
      refine skipFrom_of_settled hg hs hn room 0 passed (Nat.zero_le _) ?_ ?_ hroom
      · exact fun m hm hms => absurd hms (hpassed m hm).1
      · exact fun i hi => absurd hi (Nat.not_lt_zero i)
    · have hp : passed.contains n = false := by
        by_contra hc
        obtain ⟨-, i, hi, hper⟩ := hpassed n (by simpa using hc)
        exact hs (mk_mem_periodicPts hi hper)
      have hne : g.onward isa n ≠ n := fun hfix =>
        hs (mk_mem_periodicPts Nat.one_pos (IsFixedPt.isPeriodicPt hfix 1))
      have hless := unseen_insert_lt hp (List.mem_range.mpr hn)
      obtain ⟨room, rfl⟩ : ∃ r, room = r + 1 := ⟨room - 1, by omega⟩
      obtain ⟨k, hk, hset, hfirst⟩ := skipFrom_spec room (passed.insert n) (g.onward isa n)
        (hg.onward_lt hn) (fun m hm => by
          rw [Std.HashSet.contains_insert, Bool.or_eq_true, beq_iff_eq] at hm
          rcases hm with rfl | hm
          · exact ⟨hs, 1, Nat.one_pos, rfl⟩
          · obtain ⟨hms, i, hi, heq⟩ := hpassed m hm
            exact ⟨hms, i + 1, Nat.succ_pos i, by rw [iterate_succ_apply', heq]⟩) (by omega)
      refine ⟨k + 1, ?_, ?_, fun i hi => ?_⟩
      · rw [skipFrom_succ room hp hne, hk, iterate_succ_apply]
      · rwa [iterate_succ_apply]
      · cases i with
        | zero => exact hs
        | succ i =>
          rw [iterate_succ_apply]
          exact hfirst i (by omega)

variable (isa) in
/-- **Skipping stops at the first node that comes back to itself.** -/
theorem skipTrivial_spec (hn : n < g.size) : ∃ k, g.skipTrivial isa n = (g.onward isa)^[k] n ∧
    g.Settled isa (g.skipTrivial isa n) ∧ ∀ i < k, ¬ g.Settled isa ((g.onward isa)^[i] n) := by
  obtain ⟨k, hk, hset, hfirst⟩ := skipFrom_spec hg g.size ∅ n hn (by simp)
    (Nat.le_trans List.countP_le_length (by simp))
  have heq : g.skipTrivial isa n = (g.onward isa)^[k] n := hk
  exact ⟨k, heq, by rwa [heq], hfirst⟩

theorem skipTrivial_settled (hn : n < g.size) : g.Settled isa (g.skipTrivial isa n) := by
  obtain ⟨k, -, hs, -⟩ := skipTrivial_spec isa hg hn
  exact hs

theorem skipTrivial_lt (hn : n < g.size) : g.skipTrivial isa n < g.size := by
  obtain ⟨k, hk, -⟩ := skipTrivial_spec isa hg hn
  rw [hk]
  exact hg.iterate_lt hn k

/-- A node that comes back to itself is not skipped. -/
theorem skipTrivial_of_settled (hn : n < g.size) (hs : g.Settled isa n) :
    g.skipTrivial isa n = n := by
  obtain ⟨k, hk, -, hfirst⟩ := skipTrivial_spec isa hg hn
  cases k with
  | zero => exact hk
  | succ k => exact absurd hs (hfirst 0 (Nat.succ_pos k))

/-- One that does not is. -/
theorem skipTrivial_of_not_settled (hn : n < g.size) (hs : ¬ g.Settled isa n) :
    g.skipTrivial isa n = g.skipTrivial isa (g.onward isa n) := by
  obtain ⟨k, hk, hset, hfirst⟩ := skipTrivial_spec isa hg hn
  have hnext : g.onward isa n < g.size := hg.onward_lt hn
  obtain ⟨l, hl, hset', hfirst'⟩ := skipTrivial_spec isa hg hnext
  rw [← iterate_succ_apply] at hl
  rw [hl] at hset'
  rw [hk] at hset
  rcases Nat.lt_trichotomy k (l + 1) with hlt | heq | hgt
  · cases k with
    | zero => exact absurd hset hs
    | succ k => exact absurd hset (hfirst' k (by omega))
  · rw [hk, hl, heq]
  · exact absurd hset' (hfirst (l + 1) hgt)

end Skip

/-! ### Edges of trivial instructions -/

section Edges

variable {isa : InstructionSet} {g : Graph} {n m : Nat}

/-- A trivial instruction has one edge, to where skipping goes on, or none. -/
theorem edges_of_trivial (hisa : isa.Regular) (h : g.Trivial isa n) :
    (∃ m e, g.trivialNext? isa n = some m ∧ g.edges isa n = [(m, e)]) ∨
      g.trivialNext? isa n = none ∧ g.edges isa n = [] := by
  by_cases hidle : ((g.node n).flags isa).noOp = true ∨ ((g.node n).flags isa).extension = true
  · -- no-ops and extension units fall through and are no jumps
    obtain ⟨hfalls, hjump⟩ : (g.node n).fallsThrough isa = true ∧ (g.node n).isJump isa = false :=
      (hisa.opcodes (g.node n).opcode).idle hidle.symm
    have hnext : g.trivialNext? isa n = (g.node n).successor := by
      simp only [trivialNext?, Bool.or_eq_true, hidle, if_true]
    rw [hnext]
    cases hs : (g.node n).successor with
    | none => exact Or.inr ⟨rfl, by simp [edges, fallthrough?, branch?, hfalls, hjump, hs]⟩
    | some m =>
      exact Or.inl ⟨m, .fallthrough, rfl, by simp [edges, fallthrough?, branch?, hfalls, hjump, hs]⟩
  · -- an unconditional jump does not fall through
    have hjumps : ((g.node n).flags isa).isJump = true ∧
        ((g.node n).flags isa).unconditional = true := by
      rcases h with h | h | h
      · exact absurd (Or.inl h) hidle
      · exact absurd (Or.inr h) hidle
      · exact h
    have hfalls : (g.node n).fallsThrough isa = false := by
      simp [Node.fallsThrough, Flags.fallsThrough, hjumps.2]
    have hjump : (g.node n).isJump isa = true := hjumps.1
    have hnext : g.trivialNext? isa n = (g.node n).branch := by
      simp only [trivialNext?, Bool.or_eq_true, hidle, if_false, Bool.and_eq_true, hjumps, and_self,
        if_true]
    rw [hnext]
    cases hb : (g.node n).branch with
    | none => exact Or.inr ⟨rfl, by simp [edges, fallthrough?, branch?, hfalls, hjump, hb]⟩
    | some m =>
      exact Or.inl ⟨m, .branch, rfl, by simp [edges, fallthrough?, branch?, hfalls, hjump, hb]⟩

end Edges

end Graph

end Wordcode
