/-
# A unit's predecessor index is never stale

A unit keeps the predecessor index that it has built. An operation leaves the unit as it is
but for an index of the graph as it then is, or it drops the index, also when it fails on the
way (`CodeUnit.perform_cases`). So as long as nothing but the unit's own operations edits the
graph, an index that is kept is that of the graph.

Nor can it be told that there is one: a unit that forgets its index before every operation
goes through the same graphs and gives the same answers (`CodeUnit.runForgetful_eq`).

Key definitions: `CodeUnit.Operation`, `CodeUnit.perform`, `CodeUnit.run`, `CodeUnit.Fresh`,
`CodeUnit.runForgetful`.
Key theorems: `CodeUnit.perform_cases`, `CodeUnit.UpToDate.run`, `CodeUnit.runForgetful_eq`,
`CodeUnit.upToDate_of_fresh`.
-/
import Wordcode.Proofs.Removal

namespace Wordcode

namespace CodeUnit

/-! ### Operations -/

/-- What a unit can be asked to do. -/
inductive Operation where
  | predecessors
  | rebuild
  | producers (n : NodeId) (depth : Nat)
  | consumers (n : NodeId) (depth : Nat)
  | optimise
  | remove (n : NodeId)
  | encode

/-- What it answers. -/
inductive Answer where
  | index (index : PredecessorIndex)
  | found (nodes : List NodeId)
  | done
  | removed (outcome : Except GraphError Unit)
  | encoded (outcome : Except Error (CodeObject × EncodeStats))

/-- The unit after an operation, whether it succeeds or fails, and the answer. -/
def perform (u : CodeUnit) : Operation → CodeUnit × Answer
  | .predecessors => (u.indexed.2, .index u.indexed.1)
  | .rebuild => (u.rebuilt, .index (.build u.isa u.graph u.roots))
  | .producers n depth => ((u.producers n depth).2, .found (u.producers n depth).1)
  | .consumers n depth => (u, .found (u.consumers n depth))
  | .optimise => (u.optimise, .done)
  | .remove n => ((u.remove n).1, .removed (u.remove n).2)
  | .encode => (u.encode.1, .encoded u.encode.2)

/-- The unit after some operations, one after the other, and their answers. -/
def run (u : CodeUnit) : List Operation → CodeUnit × List Answer
  | [] => (u, [])
  | op :: ops => (((u.perform op).1.run ops).1, (u.perform op).2 :: ((u.perform op).1.run ops).2)

/-- The unit was just made, from a code object or from a graph. -/
inductive Fresh : CodeUnit → Prop
  | decoded {isa : InstructionSet} {object : CodeObject} {u : CodeUnit}
    (h : decode isa object = .ok u) : Fresh u
  | ofGraph (isa : InstructionSet) (graph : Graph) (entry : NodeId) (pools : Pools)
    (header : Header) : Fresh (.ofGraph isa graph entry pools header)

variable {u : CodeUnit}

/-! ### What an operation does to the index -/

theorem upToDate_of_none (h : u.predecessors? = none) : u.UpToDate := by
  intro index hindex
  rw [h] at hindex
  cases hindex

theorem UpToDate.indexed_snd (h : u.UpToDate) : u.indexed.2.UpToDate := by
  intro index hindex
  rw [CodeUnit.indexed_snd] at hindex ⊢
  obtain rfl := Option.some.inj hindex
  exact h.indexed

theorem upToDate_rebuilt (u : CodeUnit) : u.rebuilt.UpToDate :=
  fun _ hindex => (Option.some.inj hindex).symm

theorem producers_eq (u : CodeUnit) (n : NodeId) (depth : Nat) : u.producers n depth =
    (Trace.producers u.isa u.graph u.indexed.1 n depth, u.indexed.2) := by
  have hindexed := CodeUnit.indexed_snd u
  rw [producers]
  cases hi : u.indexed with
  | mk index v =>
    rw [hi] at hindexed
    simp only at hindexed ⊢
    rw [hindexed]

theorem predecessors?_flatten (u : CodeUnit) : u.flatten.1.predecessors? = u.predecessors? := rfl

theorem predecessors?_encode (u : CodeUnit) : u.encode.1.predecessors? = none := by
  rw [encode]
  have hflatten := predecessors?_flatten { u with predecessors? := none }
  cases hf : flatten { u with predecessors? := none } with
  | mk v outcome =>
    rw [hf] at hflatten
    cases outcome with
    | error e => exact hflatten
    | ok =>
      cases hasm : v.graph.assemble v.isa v.entry v.exceptions.handlers v.pools with
      | mk g assembled =>
        cases assembled with
        | error e =>
          simp only [hasm]
          exact hflatten
        | ok a =>
          simp only [hasm]
          exact hflatten

/-- **All that an operation does to the index**: it builds one and leaves the rest as it is, or
it leaves none. -/
theorem perform_cases (u : CodeUnit) (op : Operation) :
    (u.perform op).1 = u ∨ (u.perform op).1 = u.indexed.2 ∨ (u.perform op).1 = u.rebuilt ∨
      (u.perform op).1.predecessors? = none := by
  cases op with
  | predecessors => exact Or.inr (Or.inl rfl)
  | rebuild => exact Or.inr (Or.inr (Or.inl rfl))
  | producers n depth => exact Or.inr (Or.inl (congrArg Prod.snd (producers_eq u n depth)))
  | consumers n depth => exact Or.inl rfl
  | optimise => exact Or.inr (Or.inr (Or.inr rfl))
  | remove n =>
    rw [perform, remove_eq]
    cases u.graph.continuation? u.isa n with
    | none => exact Or.inr (Or.inl (CodeUnit.indexed_snd u).symm)
    | some next => exact Or.inr (Or.inr (Or.inr rfl))
  | encode => exact Or.inr (Or.inr (Or.inr (predecessors?_encode u)))

theorem UpToDate.perform (h : u.UpToDate) (op : Operation) : (u.perform op).1.UpToDate := by
  rcases perform_cases u op with heq | heq | heq | hnone
  · rwa [heq]
  · rw [heq]
    exact h.indexed_snd
  · rw [heq]
    exact upToDate_rebuilt u
  · exact upToDate_of_none hnone

theorem UpToDate.run : ∀ (ops : List Operation) {u : CodeUnit}, u.UpToDate →
    (u.run ops).1.UpToDate
  | [], _, h => h
  | op :: ops, _, h => UpToDate.run ops (h.perform op)

/-! ### A unit without memory -/

/-- The unit without its index. -/
def forget (u : CodeUnit) : CodeUnit := { u with predecessors? := none }

/-- The same operations on a unit that forgets its index before each of them, so that every
query is about the graph as it then is. -/
def runForgetful (u : CodeUnit) : List Operation → CodeUnit × List Answer
  | [] => (u.forget, [])
  | op :: ops =>
    (((u.forget.perform op).1.runForgetful ops).1,
      (u.forget.perform op).2 :: ((u.forget.perform op).1.runForgetful ops).2)

theorem forget_forget (u : CodeUnit) : u.forget.forget = u.forget := rfl

theorem UpToDate.perform_forget (h : u.UpToDate) (op : Operation) :
    (u.forget.perform op).1.forget = (u.perform op).1.forget ∧
      (u.forget.perform op).2 = (u.perform op).2 := by
  -- an index of the graph is the one that would be built
  have hindexed : u.forget.indexed.1 = u.indexed.1 := h.indexed.symm
  cases op with
  | predecessors =>
    rw [CodeUnit.perform, CodeUnit.perform, CodeUnit.indexed_snd, CodeUnit.indexed_snd, hindexed]
    exact ⟨rfl, rfl⟩
  | rebuild => exact ⟨rfl, rfl⟩
  | producers n depth =>
    rw [CodeUnit.perform, CodeUnit.perform, producers_eq, producers_eq, CodeUnit.indexed_snd,
      CodeUnit.indexed_snd, hindexed]
    exact ⟨rfl, rfl⟩
  | consumers n depth => exact ⟨rfl, rfl⟩
  | optimise => exact ⟨rfl, rfl⟩
  | remove n =>
    rw [CodeUnit.perform, CodeUnit.perform, remove_eq, remove_eq, hindexed]
    have hcontinuation : u.forget.graph.continuation? u.forget.isa n =
      u.graph.continuation? u.isa n := rfl
    rw [hcontinuation]
    cases u.graph.continuation? u.isa n with
    | none => exact ⟨rfl, rfl⟩
    | some next => exact ⟨rfl, rfl⟩
  | encode => exact ⟨rfl, rfl⟩

theorem runForgetful_forget (ops : List Operation) (u : CodeUnit) :
    u.forget.runForgetful ops = u.runForgetful ops := by
  cases ops with
  | nil => rfl
  | cons op ops => rw [runForgetful, runForgetful, forget_forget]

/-- **The index cannot be told.** A unit that forgets it has the same graphs and answers. -/
theorem runForgetful_eq : ∀ (ops : List Operation) {u : CodeUnit}, u.UpToDate →
    u.runForgetful ops = ((u.run ops).1.forget, (u.run ops).2)
  | [], _, _ => rfl
  | op :: ops, u, h => by
    obtain ⟨hunit, hanswer⟩ := h.perform_forget op
    have hrest : (u.forget.perform op).1.runForgetful ops =
        (((u.perform op).1.run ops).1.forget, ((u.perform op).1.run ops).2) := by
      rw [← runForgetful_forget, hunit, runForgetful_forget]
      exact runForgetful_eq ops (h.perform op)
    rw [runForgetful, hrest, hanswer]
    rfl

/-! ### Units that were just made -/

theorem predecessors?_decode {isa : InstructionSet} {object : CodeObject}
    (h : decode isa object = .ok u) : u.predecessors? = none := by
  rw [decode] at h
  cases hd : Stream.decode isa object.code object.pools with
  | error e =>
    rw [hd] at h
    cases h
  | ok g =>
    simp only [hd] at h
    cases hl : LineTable.decode isa.lineFormat object.lineTable object.header.firstlineno
        g.size with
    | error e =>
      rw [hl] at h
      cases h
    | ok lines =>
      simp only [hl] at h
      obtain rfl := Except.ok.inj h
      rfl

theorem Fresh.predecessors?_eq (h : u.Fresh) : u.predecessors? = none := by
  cases h with
  | decoded h => exact predecessors?_decode h
  | ofGraph => rfl

/-- **A unit's own operations leave no stale index.** Whatever was done with a unit since it was
made, an index that it has kept is that of its graph, entry and handlers; and all answers are those
of a unit that has kept none. -/
theorem upToDate_of_fresh (h : u.Fresh) (ops : List Operation) :
    (∀ index, (u.run ops).1.predecessors? = some index →
      index = .build (u.run ops).1.isa (u.run ops).1.graph (u.run ops).1.roots) ∧
    u.runForgetful ops = ((u.run ops).1.forget, (u.run ops).2) := by
  have hfresh : u.UpToDate := upToDate_of_none h.predecessors?_eq
  exact ⟨hfresh.run ops, runForgetful_eq ops hfresh⟩

/-- An instruction that does nothing, and a return. -/
def idle : CodeUnit :=
  .ofGraph .python38 ⟨#[{ opcode := ⟨9⟩, successor := some 1 }, { opcode := ⟨83⟩ }]⟩ 0 {} {}

namespace idle

theorem continuation_first : idle.graph.continuation? idle.isa 0 = some 1 := by
  show idle.graph.continuation? .python38 0 = some 1
  rw [Graph.continuation?, Node.flags, InstructionSet.flags, InstructionSet.info_python38]
  decide +kernel

theorem flags_return : ((idle.graph.node 1).flags idle.isa).fallsThrough = false ∧
    ((idle.graph.node 1).flags idle.isa).isJump = false := by
  show ((idle.graph.node 1).flags .python38).fallsThrough = false ∧
    ((idle.graph.node 1).flags .python38).isJump = false
  rw [Node.flags, InstructionSet.flags, InstructionSet.info_python38]
  decide +kernel

theorem continuation_return (ways : List (NodeId × Edge)) :
    (idle.graph.ledPast ways 1).continuation? idle.isa 1 = none := by
  rw [Graph.continuation?]
  simp only [Graph.flags_ledPast, flags_return, Bool.false_and, Bool.false_eq_true, if_false]

end idle

/-- The first instruction goes and the return cannot: the second removal fails, with the index that
was built for it still there, and it is that of the shorter code. -/
theorem upToDate_of_fresh_refused :
    idle.Fresh ∧ ∃ v index, (idle.run [.predecessors, .remove 0, .remove 1]).1 = v ∧
      v.entry = 1 ∧ v.predecessors? = some index ∧ index = .build v.isa v.graph v.roots := by
  have hfresh : idle.Fresh := .ofGraph ..
  obtain ⟨hindex, -⟩ := upToDate_of_fresh hfresh [.predecessors, .remove 0, .remove 1]
  have hcontinues : idle.indexed.2.graph.continuation? idle.indexed.2.isa 0 = some 1 := by
    rw [indexed_snd]
    exact idle.continuation_first
  obtain ⟨ways, hfirst⟩ : ∃ ways, (idle.indexed.2.remove 0).1 = { idle with
      graph := idle.graph.ledPast ways 1
      entry := bypass 0 1 idle.entry } := by
    rw [remove_eq, hcontinues, indexed_snd]
    exact ⟨_, rfl⟩
  have hrun : (idle.run [.predecessors, .remove 0, .remove 1]).1 =
      ((idle.indexed.2.remove 0).1.remove 1).1 := by
    simp only [run, perform]
  rw [hfirst, remove_eq] at hrun
  simp only [idle.continuation_return] at hrun
  rw [hrun] at hindex ⊢
  exact ⟨hfresh, _, _, rfl, bypass_self 0 1, rfl, hindex _ rfl⟩

end CodeUnit

end Wordcode
