/-
# What assembly gives

A successful assembly is a layout of the graph with a place in the code for each of
its runs (`Graph.Emits`). The steps on the way, numbering among them, change
offsets and pool indices of nodes alone, so all of this can be said of the graph as
it is in the end.

Key definitions: `Graph.Emits`.
Key theorems: `Relaxation.Settles.of_sameCode`, `Graph.assemble_eq_ok`,
`Graph.assemble_of_steps`, `Graph.exists_emits`, `Graph.emits_of_assemble`.
-/
import Wordcode.Proofs.Emission
import Wordcode.Proofs.Layout
import Wordcode.Proofs.Numbering
import Wordcode.Proofs.Widening

namespace Wordcode

/-! ### Graphs with the same code again -/

section SameCode

variable {isa : InstructionSet} {g h : Graph} (s : g.SameCode h)
include s

theorem Relaxation.Shaped.of_sameCode {r : Run} (hr : Relaxation.Shaped isa g r) :
    Relaxation.Shaped isa h r where
  reserved := fun n hn => by rw [s.isExtension]; exact hr.reserved n hn
  instruction := by rw [s.isExtension]; exact hr.instruction

theorem Relaxation.asks_of_sameCode {placed : List Relaxation.Placed} {p : Relaxation.Placed} :
    Relaxation.Asks isa h placed p ↔ Relaxation.Asks isa g placed p := by
  unfold Relaxation.Asks
  simp only [s.isJump, s.branch, s.flags, s.opcode]

/-- Offsets and pool indices do not matter for relaxation. -/
theorem Relaxation.Settles.of_sameCode {layout arguments : List Nat}
    {placed : List Relaxation.Placed} (hs : Relaxation.Settles isa g layout arguments placed) :
    Relaxation.Settles isa h layout arguments placed :=
  { hs with
    shaped := fun p hp => (hs.shaped p hp).of_sameCode s
    asks := fun p hp => (asks_of_sameCode s).mpr (hs.asks p hp) }

theorem Relaxation.Narrowest.of_sameCode {placed : List Relaxation.Placed}
    (hn : Relaxation.Narrowest isa g placed) : Relaxation.Narrowest isa h placed :=
  fun width hreserved hwide => hn width hreserved fun other hruns hplaces hasks =>
    hwide other hruns hplaces fun p hp => ⟨(hasks p hp).1, (asks_of_sameCode s).mpr (hasks p hp).2⟩

theorem Relaxation.wordsOf_of_sameCode (p : Relaxation.Placed) :
    Relaxation.wordsOf isa h p = Relaxation.wordsOf isa g p := by
  rw [Relaxation.wordsOf, Relaxation.wordsOf, s.opcode]

theorem Assembly.Collects.of_sameCode {pools : Pools} {n : Nat} {c : Assembly.Collected}
    (hc : Assembly.Collects isa g pools n c) : Assembly.Collects isa h pools n c := by
  unfold Assembly.Collects at hc ⊢
  rw [s.isExtension, s.operand, s.opcode]
  exact hc

end SameCode

namespace Graph

open Relaxation Assembly

variable {isa : InstructionSet} {g g' : Graph} {entry : NodeId} {handlers : List NodeId}
  {pools : Pools} {a : Assembled}

/-- The code `a` of the graph `g'` has its runs at the places `placed`. -/
structure Emits (isa : InstructionSet) (g' : Graph) (a : Assembled) (placed : List Placed) :
    Prop where
  shaped : ∀ p ∈ placed, Shaped isa g' p.run
  nodes_eq : (placed.flatMap fun p => p.run.nodes) = a.layout
  consecutive : Consecutive 0 placed
  reserved : ∀ p ∈ placed, p.run.reserved.length ≤ p.width
  wide : ∀ p ∈ placed, extraDigits p.operand ≤ p.width
  asks : ∀ p ∈ placed, Asks isa g' placed p
  narrowest : Narrowest isa g' placed
  /-- The operand of each instruction was collected, and unless it is a jump the number is
  what it was numbered with. -/
  numbered : ∀ p ∈ placed, ∃ growth c, growth.pools = a.pools ∧
    Collects isa g' a.pools p.run.instruction c ∧
    ((g'.node p.run.instruction).isJump isa = false →
      Numbers isa growth (g'.node p.run.instruction).opcode c p.operand)
  words_eq : a.words = placed.flatMap (wordsOf isa g')
  units_eq : a.units = placed.flatMap unitsOf
  offset : ∀ p ∈ placed, ∀ n o, (n, o) ∈ offsetsOf p → (g'.node n).offset = some o

/-- The steps of a successful assembly. -/
theorem assemble_eq_ok (h : g.assemble isa entry handlers pools = (g', .ok a)) :
    ∃ g₁ operands growth g₂ arguments r,
      g.linearize isa entry handlers = .ok (g₁, a.layout) ∧
      collect isa g₁ a.layout (.ofPools pools) #[] = .ok (operands, growth) ∧
      number isa growth (a.layout.zip operands.toList) g₁ #[] = (g₂, .ok arguments) ∧
      relax isa g₂ a.layout arguments = .ok (g', r) ∧
      a.words = r.words ∧ a.units = r.units ∧ a.pools = growth.pools ∧
      a.stats = ⟨r.iterations, r.inserted⟩ := by
  unfold assemble at h
  cases hlin : g.linearize isa entry handlers with
  | error e => simp [hlin] at h
  | ok l =>
    obtain ⟨g₁, layout⟩ := l
    simp only [hlin] at h
    cases hcol : collect isa g₁ layout (.ofPools pools) #[] with
    | error e => simp [hcol] at h
    | ok c =>
      obtain ⟨operands, growth⟩ := c
      simp only [hcol] at h
      cases hnum : number isa growth (layout.zip operands.toList) g₁ #[] with
      | mk g₂ result =>
        cases result with
        | error e => simp [hnum] at h
        | ok arguments =>
          simp only [hnum] at h
          cases hrel : relax isa g₂ layout arguments with
          | error e => simp [hrel] at h
          | ok r =>
            simp only [hrel, Prod.mk.injEq, Except.ok.injEq] at h
            obtain ⟨rfl, rfl⟩ := h
            exact ⟨g₁, operands, growth, g₂, arguments, r.2, rfl, hcol, hnum, hrel, rfl, rfl, rfl,
              rfl⟩

/-- When all of its steps go through, so does assembly. -/
theorem assemble_of_steps {g₁ g₂ : Graph} {layout : List NodeId} {operands : Array Collected}
    {growth : PoolGrowth} {arguments : List Nat} {r : Relaxed}
    (hlin : g.linearize isa entry handlers = .ok (g₁, layout))
    (hcol : collect isa g₁ layout (.ofPools pools) #[] = .ok (operands, growth))
    (hnum : number isa growth (layout.zip operands.toList) g₁ #[] = (g₂, .ok arguments))
    (hrel : relax isa g₂ layout arguments = .ok (g', r)) :
    g.assemble isa entry handlers pools = (g', .ok
      { words := r.words, pools := growth.pools, layout, units := r.units
        stats := ⟨r.iterations, r.inserted⟩ }) := by
  simp only [assemble, hlin, hcol, hnum, hrel]

theorem exists_numbered {g₁ g₂ : Graph} {growth : PoolGrowth} {layout arguments : List Nat}
    {later : List Collected} {placed : List Placed} (hset : Settles isa g₂ layout arguments placed)
    (hcollects : List.Forall₂ (Collects isa g₁ growth.pools) layout later)
    (hnumbers : List.Forall₂ (fun item => Numbers isa growth (g₁.node item.1).opcode item.2)
      (layout.zip later) arguments) {p : Placed} (hp : p ∈ placed) :
    ∃ c, (p.run.instruction, c) ∈ layout.zip later ∧
      Collects isa g₁ growth.pools p.run.instruction c ∧
      ((g₂.node p.run.instruction).isJump isa = false →
        Numbers isa growth (g₁.node p.run.instruction).opcode c p.operand) := by
  obtain ⟨i, hi, hzip⟩ := List.mem_iff_getElem.mp (hset.argument p hp)
  have hlen := hcollects.length_eq
  rw [List.length_zip] at hi
  rw [List.getElem_zip, Prod.mk.injEq] at hzip
  have hcollect := hcollects.get (i := i) (by omega) (by omega)
  have hnumber := hnumbers.get (i := i) (by rw [List.length_zip]; omega) (by omega)
  simp only [List.get_eq_getElem, List.getElem_zip, hzip.1, hzip.2] at hcollect hnumber
  have hmem : (p.run.instruction, later[i]) ∈ layout.zip later := by
    rw [List.mem_iff_getElem]
    exact ⟨i, by rw [List.length_zip]; omega, by rw [List.getElem_zip, hzip.1]⟩
  refine ⟨later[i], hmem, hcollect, fun hjump => ?_⟩
  rw [(hset.asks p hp).1 hjump]
  exact hnumber

theorem offset_bind_runs {layout arguments : List Nat} {placed : List Placed}
    (hset : Settles isa g layout arguments placed) (hnd : layout.Nodup)
    (hlt : ∀ n ∈ layout, n < g.size) {p : Placed} (hp : p ∈ placed) {n o : Nat}
    (ho : (n, o) ∈ offsetsOf p) :
    ((bind g (placed.flatMap offsetsOf)).node n).offset = some o := by
  have hkeys : (placed.flatMap offsetsOf).map (·.1) = layout := by
    rw [List.map_flatMap, ← hset.nodes_eq]
    exact List.flatMap_congr fun p _ => keys_offsetsOf p
  have hmem : (n, o) ∈ placed.flatMap offsetsOf := List.mem_flatMap.mpr ⟨p, hp, ho⟩
  exact offset_bind (by rw [hkeys]; exact hnd) hmem (hlt n (hkeys ▸ List.mem_map_of_mem hmem))

/-- A successful assembly lays the graph out, collects the operands of the layout, and gives
each run a place in the code, with the number of its operand. -/
theorem exists_emits (hisa : isa.Regular) (hg : g.Closed)
    (hroots : ∀ r ∈ entry :: handlers, r < g.size)
    (h : g.assemble isa entry handlers pools = (g', .ok a)) : ∃ g₁ operands growth placed,
      g.linearize isa entry handlers = .ok (g₁, a.layout) ∧
      collect isa g₁ a.layout (.ofPools pools) #[] = .ok (operands, growth) ∧
      a.pools = growth.pools ∧ g₁.SameCode g' ∧ Emits isa g' a placed ∧
      ∀ p ∈ placed, ∃ c, (p.run.instruction, c) ∈ a.layout.zip operands.toList ∧
        ((g'.node p.run.instruction).isJump isa = false →
          Numbers isa growth (g'.node p.run.instruction).opcode c p.operand) := by
  obtain ⟨g₁, operands, growth, g₂, arguments, r, hlin, hcol, hnum, hrel, hwords, hunits, hpools, -⟩ :=
    assemble_eq_ok h
  have hlaid := laid_of_linearize hisa hg hroots hlin
  obtain ⟨-, later, rfl, hcollects⟩ := collect_spec hcol
  obtain ⟨hsame₂, numbers, hargs, hnumbers⟩ := number_spec hnum
  rw [Array.empty_append, List.toList_toArray] at hnumbers
  rw [Array.toList_empty, List.nil_append] at hargs
  subst hargs
  have hlen : arguments.length = a.layout.length := by
    rw [← hnumbers.length_eq, List.length_zip, ← hcollects.length_eq, Nat.min_self]
  obtain ⟨runs, s, hnd, hsettle, hsettles, hwords', hunits', rfl⟩ :=
    relax_spec hlaid.nodup hlen hrel
  have hnarrowest := narrowest_of_settle hnd hsettle
  generalize place 0 runs s.widths s.operands = placed at hsettles hwords' hunits' hnarrowest ⊢
  have hsame' := sameCode_bind (placed.flatMap offsetsOf) g₂
  have hsame := hsame₂.trans hsame'
  have hset := hsettles.of_sameCode hsame'
  have hnumbered := fun p hp => exists_numbered hset hcollects hnumbers (p := p) hp
  refine ⟨g₁, _, growth, placed, hlin, hcol, hpools, hsame, ⟨hset.shaped, hset.nodes_eq,
    hset.consecutive, hset.reserved, hset.wide, hset.asks,
    hnarrowest.of_sameCode hsame', fun p hp => ?_, ?_, hunits.trans hunits', ?_⟩, fun p hp => ?_⟩
  · obtain ⟨c, -, hcollect, hnumber⟩ := hnumbered p hp
    refine ⟨growth, c, hpools.symm, hpools ▸ hcollect.of_sameCode hsame, fun hjump => ?_⟩
    rw [hsame.opcode]
    exact hnumber hjump
  · rw [hwords, hwords']
    exact List.flatMap_congr fun p _ => (wordsOf_of_sameCode hsame' p).symm
  · intro p hp n o ho
    refine offset_bind_runs hsettles hlaid.nodup (fun n hn => ?_) hp ho
    rw [hsame₂.size_eq]
    exact hlaid.lt hn
  · obtain ⟨c, hmem, -, hnumber⟩ := hnumbered p hp
    rw [Array.empty_append, List.toList_toArray]
    refine ⟨c, hmem, fun hjump => ?_⟩
    rw [hsame.opcode]
    exact hnumber hjump

/-- **A successful assembly emits a layout of the graph.** -/
theorem emits_of_assemble (hisa : isa.Regular) (hg : g.Closed)
    (hroots : ∀ r ∈ entry :: handlers, r < g.size)
    (h : g.assemble isa entry handlers pools = (g', .ok a)) :
    Laid isa g g' entry handlers a.layout ∧ ∃ placed, Emits isa g' a placed := by
  obtain ⟨g₁, operands, growth, placed, hlin, -, -, hsame, he, -⟩ := exists_emits hisa hg hroots h
  exact ⟨(laid_of_linearize hisa hg hroots hlin).of_sameCode hsame, placed, he⟩

end Graph

end Wordcode
