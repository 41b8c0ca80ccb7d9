/-
# Where cells and free variables are after growth

The index of a cell operand is read off when all operands are in, because every new cell
moves the free variables up by one. What is given out for it is a place in one of the two
lists, and a place holds its name for ever: cells are only added at the end and the free
variables stay as they are (`Pools.CellsAdded`). So the index that is read off in the end
is one at which the name stands (`PoolGrowth.cellName?_cellIndex`).

One operand is `PoolGrowth.internCell_cases`: either nothing changes, or the name was in
neither list and becomes the last cell. A run of operands is an induction on it.

Key definitions: `PoolGrowth.internCells`, `Pools.CellsAdded`.
Key theorems: `PoolGrowth.internCell_cases`, `PoolGrowth.holds_internCell`,
`PoolGrowth.cellName?_cellIndex`, `PoolGrowth.cellsAdded_internCells`,
`PoolGrowth.cellName?_internCells`.
-/
import Wordcode.Proofs.Unedited

namespace Wordcode

/-! ### Cells that were added -/

/-- The pools `q` are `p` with more cells: each of them once, all of them names that were
called for and that neither list of `p` held. -/
structure Pools.CellsAdded (p : Pools) (names : List String) (q : Pools) : Prop where
  /-- Only the cells differ. -/
  rest : q = { p with cells := q.cells }
  cells : ∃ added : List String, q.cells.toList = p.cells.toList ++ added ∧ added.Nodup ∧
    ∀ x ∈ added, x ∈ names ∧ x ∉ p.cells ∧ x ∉ p.free

namespace Pools.CellsAdded

variable {p q r : Pools} {names : List String} {name : String}

theorem refl (p : Pools) : p.CellsAdded [] p :=
  ⟨rfl, [], (List.append_nil _).symm, List.nodup_nil, List.forall_mem_nil _⟩

theorem free_eq (h : p.CellsAdded names q) : q.free = p.free := by
  rw [h.rest]

theorem grows (h : p.CellsAdded names q) : p.Grows q := by
  obtain ⟨added, hcells, -⟩ := h.cells
  have hrest := h.rest
  constructor
  case cells => exact ⟨added, hcells.symm⟩
  case free => exact h.free_eq
  all_goals rw [hrest]

theorem cons (h : p.CellsAdded names q) (name : String) : p.CellsAdded (name :: names) q := by
  obtain ⟨added, hcells, hnodup, hnew⟩ := h.cells
  refine ⟨h.rest, added, hcells, hnodup, fun x hx => ?_⟩
  obtain ⟨hname, hout⟩ := hnew x hx
  exact ⟨List.mem_cons_of_mem _ hname, hout⟩

theorem push (hcell : name ∉ p.cells) (hfree : name ∉ p.free)
    (h : CellsAdded { p with cells := p.cells.push name } names q) :
    p.CellsAdded (name :: names) q := by
  obtain ⟨added, hcells, hnodup, hnew⟩ := h.cells
  refine ⟨h.rest, name :: added, ?_, List.nodup_cons.mpr ⟨fun hmem => ?_, hnodup⟩, fun x hx => ?_⟩
  · rw [hcells, Array.toList_push, List.append_assoc]
    rfl
  · exact (hnew name hmem).2.1 (Array.mem_push_self ..)
  · rcases List.mem_cons.mp hx with rfl | hx
    · exact ⟨List.mem_cons_self, hcell, hfree⟩
    · obtain ⟨hname, hnot, hout⟩ := hnew x hx
      exact ⟨List.mem_cons_of_mem _ hname, fun hmem => hnot (Array.mem_push_of_mem _ hmem), hout⟩

end Pools.CellsAdded

namespace PoolGrowth

open Assembly

variable (g : PoolGrowth) (name : String) (hint : Option Nat)

/-! ### One operand -/

theorem placeCell_cases : (g.placeCell name).2 = g ∨
    (name ∉ g.pools.cells ∧ name ∉ g.pools.free ∧ (g.placeCell name).2 =
      { g with pools := { g.pools with cells := g.pools.cells.push name } }) := by
  unfold placeCell
  cases hcell : Pool.find? g.pools.cells name with
  | some i => exact Or.inl rfl
  | none =>
    cases hfree : Pool.find? g.pools.free name with
    | some i => exact Or.inl rfl
    | none => exact Or.inr ⟨Pool.find?_eq_none_iff.mp hcell, Pool.find?_eq_none_iff.mp hfree, rfl⟩

/-- **A cell operand changes nothing, or adds a name that was in neither list.** -/
theorem internCell_cases : (g.internCell name hint).2 = g ∨
    (name ∉ g.pools.cells ∧ name ∉ g.pools.free ∧ (g.internCell name hint).2 =
      { g with pools := { g.pools with cells := g.pools.cells.push name } }) := by
  unfold internCell
  cases hint.bind (g.hintedCell? name) with
  | some place => exact Or.inl rfl
  | none => exact g.placeCell_cases name

/-- The place that is given out holds the name, also one that a hint means. -/
theorem holds_internCell (flags : Nat) : Holds (g.internCell name hint).2.pools (.cell name)
    (.cell (g.internCell name hint).1 flags) :=
  (collectOperand_spec
    { opcode := default, operand := .cell name, operandFlags := flags, poolHint := hint } g).1

/-- **The index of a place that holds a name is the index of the name.** -/
theorem cellName?_cellIndex {g : PoolGrowth} {name : String} {place : CellRef} {flags : Nat}
    (h : Holds g.pools (.cell name) (.cell place flags)) :
    g.pools.cellName? (g.cellIndex place) = some name := by
  cases place with
  | cell i =>
    have hi : g.pools.cells[i]? = some name := h
    obtain ⟨hlt, -⟩ := Array.getElem?_eq_some_iff.mp hi
    rw [cellIndex, Pools.cellName?, if_pos hlt, hi]
  | free i =>
    have hi : g.pools.free[i]? = some name := h
    rw [cellIndex, Pools.cellName?, if_neg (by omega), Nat.add_sub_cancel_left, hi]

variable {g name} in
/-- A hint that points at the name in the pools as they were before the first cell was added is
good at any time: neither what it means nor what stands there changes. -/
theorem internCell_of_hint {seed : Pools} {hint : Nat} (hgrows : seed.Grows g.pools)
    (hseed : g.seedCells = seed.cells.size) (h : seed.cellName? hint = some name) :
    g.internCell name (some hint) =
      (if hint < seed.cells.size then .cell hint else .free (hint - seed.cells.size), g) := by
  rw [Pools.cellName?] at h
  rw [internCell, Option.bind_some, hintedCell?, hseed]
  by_cases hlt : hint < seed.cells.size
  · rw [if_pos hlt] at h
    have hcell := getElem?_of_prefix hgrows.cells h
    rw [if_pos hlt, if_pos hlt, if_pos hcell]
  · rw [if_neg hlt, ← hgrows.free] at h
    rw [if_neg hlt, if_neg hlt, if_pos h]

/-! ### A run of operands -/

/-- The places of cell operands, each a name and a hint, one after the other. -/
def internCells (g : PoolGrowth) : List (String × Option Nat) → List CellRef × PoolGrowth
  | [] => ([], g)
  | call :: calls =>
    let (place, g) := g.internCell call.1 call.2
    let (places, g) := internCells g calls
    (place :: places, g)

theorem internCells_cons (call : String × Option Nat) (calls : List (String × Option Nat)) :
    g.internCells (call :: calls) =
      ((g.internCell call.1 call.2).1 :: ((g.internCell call.1 call.2).2.internCells calls).1,
        ((g.internCell call.1 call.2).2.internCells calls).2) := rfl

/-- A run adds cells for names that neither list held, and changes nothing else. -/
theorem cellsAdded_internCells : ∀ (calls : List (String × Option Nat)) (g : PoolGrowth),
    g.pools.CellsAdded (calls.map (·.1)) (g.internCells calls).2.pools
  | [], g => .refl g.pools
  | (name, hint) :: calls, g => by
    have ih := cellsAdded_internCells calls (g.internCell name hint).2
    rw [internCells_cons]
    rcases g.internCell_cases name hint with hsame | ⟨hcell, hfree, hnew⟩
    · rw [hsame] at ih ⊢
      exact ih.cons name
    · rw [hnew] at ih ⊢
      exact ih.push hcell hfree

theorem holds_internCells : ∀ (calls : List (String × Option Nat)) (g : PoolGrowth),
    List.Forall₂
      (fun call place => Holds (g.internCells calls).2.pools (.cell call.1) (.cell place 0))
      calls (g.internCells calls).1
  | [], _ => .nil
  | (name, hint) :: calls, g =>
    have hlater := (cellsAdded_internCells calls (g.internCell name hint).2).grows
    .cons ((g.holds_internCell name hint 0).mono hlater) (holds_internCells calls _)

variable {g} in
theorem mem_of_internCells {calls : List (String × Option Nat)} {name : String}
    (h : name ∈ calls.map (·.1)) : name ∈ (g.internCells calls).2.pools.cells ∨
      name ∈ (g.internCells calls).2.pools.free := by
  obtain ⟨call, hcall, rfl⟩ := List.mem_map.mp h
  obtain ⟨i, hi, rfl⟩ := List.getElem_of_mem hcall
  obtain ⟨hlength, hholds⟩ := List.forall₂_iff_get.mp (holds_internCells calls g)
  have hplace := hholds i hi (hlength ▸ hi)
  cases hat : (g.internCells calls).1.get ⟨i, hlength ▸ hi⟩ with
  | cell j =>
    rw [hat] at hplace
    exact Or.inl (Array.mem_of_getElem? hplace)
  | free j =>
    rw [hat] at hplace
    exact Or.inr (Array.mem_of_getElem? hplace)

theorem place_of_hint {seed : Pools} : ∀ (calls : List (String × Option Nat)) (g : PoolGrowth),
    seed.Grows g.pools → g.seedCells = seed.cells.size →
    ∀ p ∈ calls.zip (g.internCells calls).1, ∀ hint, p.1.2 = some hint →
      seed.cellName? hint = some p.1.1 →
      p.2 = if hint < seed.cells.size then .cell hint else .free (hint - seed.cells.size)
  | [], _, _, _, _, hp, _, _, _ => by
    rw [List.zip_nil_left] at hp
    cases hp
  | (name, hint?) :: calls, g, hgrows, hseed, p, hp, hint, hhint, hname => by
    rw [internCells_cons, List.zip_cons_cons] at hp
    rcases List.mem_cons.mp hp with rfl | hp
    · obtain rfl : hint? = some hint := hhint
      exact congrArg Prod.fst (internCell_of_hint hgrows hseed hname)
    · refine place_of_hint calls _ ?_ ?_ p hp hint hhint hname
      · rcases g.internCell_cases name hint? with hsame | ⟨hcell, hfree, hnew⟩
        · rwa [hsame]
        · refine hgrows.trans ?_
          rw [hnew]
          exact ((Pools.CellsAdded.refl _).push hcell hfree).grows
      · rcases g.internCell_cases name hint? with hsame | ⟨-, -, hnew⟩
        · rwa [hsame]
        · rw [hnew]
          exact hseed

/-- **The index of a cell operand, read off in the end, is the index of its name**, for every
seed and all names and hints. The cells of the seed stay in front, the free variables and all
else stay as they are, and the cells that are added are the names called for that neither list
held, each of them once. A hint that was good in the seed is the index, moved up by the number
of new cells if it points at a free variable. -/
theorem cellName?_internCells (seed : Pools) (calls : List (String × Option Nat)) :
    let run := (ofPools seed).internCells calls
    List.Forall₂ (fun call place => run.2.pools.cellName? (run.2.cellIndex place) = some call.1)
        calls run.1 ∧
      run.2.pools = { seed with cells := run.2.pools.cells } ∧
      ∃ added : List String, run.2.pools.cells.toList = seed.cells.toList ++ added ∧
        added.Nodup ∧
        (∀ name, name ∈ added ↔
          name ∈ calls.map (·.1) ∧ name ∉ seed.cells ∧ name ∉ seed.free) ∧
        ∀ name hint place, ((name, some hint), place) ∈ calls.zip run.1 →
          seed.cellName? hint = some name →
          run.2.cellIndex place = if hint < seed.cells.size then hint else hint + added.length := by
  intro run
  have hadded : seed.CellsAdded (calls.map (·.1)) run.2.pools :=
    cellsAdded_internCells calls (ofPools seed)
  obtain ⟨added, hcells, hnodup, hnew⟩ := hadded.cells
  refine ⟨?_, hadded.rest, added, hcells, hnodup, fun name => ⟨hnew name, ?_⟩,
    fun name hint place hp hname => ?_⟩
  · exact (holds_internCells calls (ofPools seed)).imp fun _ _ hholds => cellName?_cellIndex hholds
  · rintro ⟨hcalled, hcell, hfree⟩
    rcases mem_of_internCells (g := ofPools seed) hcalled with hmem | hmem
    · have hmem : name ∈ seed.cells.toList ++ added := hcells ▸ Array.mem_toList_iff.mpr hmem
      exact (List.mem_append.mp hmem).resolve_left fun hold => hcell (Array.mem_toList_iff.mp hold)
    · exact absurd (hadded.free_eq ▸ hmem) hfree
  · have hplace := place_of_hint calls (ofPools seed) (.refl seed) rfl _ hp hint rfl hname
    have hsize : run.2.pools.cells.size = seed.cells.size + added.length := by
      rw [← Array.length_toList, hcells, List.length_append, Array.length_toList]
    obtain rfl : place = _ := hplace
    split
    · rfl
    · rw [cellIndex, hsize]
      omega

-- `y` was at index 1 and moves up when `z` becomes a cell; the hint for `x` is stale.
example :
    let run := (ofPools { cells := #["x"], free := #["y"] }).internCells
      [("y", some 1), ("z", none), ("x", some 4), ("z", some 0)]
    run.1.map run.2.cellIndex = [2, 1, 0, 1] ∧ run.2.pools.cells = #["x", "z"] := by
  decide +kernel

end PoolGrowth

end Wordcode
