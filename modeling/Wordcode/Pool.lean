/-
# Pools and interning

A code unit has five pools, which its operands index; cell operands index the
cell variables followed by the free variables. A pool only grows: interning a
value gives the index of the first equal entry, or of a hinted entry when that
one is equal, and appends the value when there is none. So indices that were
handed out stay good, also into pools that hold a value more than once.

Indices are natural numbers here, but 32 bits wide in a code unit: pools with
fewer than 2 ^ 32 entries are meant. Interning does not look at their size, and
what is proved about it holds of any. Where an index has to fit into 32 bits
this is said (`Pools.Indexable`).

Key definitions: `Pools`, `Pools.cellName?`, `Pool.find?`, `Pool.intern`,
`Pool.internHinted`, `Pool.FirstAt`.
Key theorems: `Pool.find?_eq_some_iff`, `Pool.find?_push`, `Pool.getElem?_intern`,
`Pool.getElem?_internHinted`.
-/
import Wordcode.Constant

namespace Wordcode

/-- The operand pools of a code unit. -/
structure Pools where
  constants : Array Constant := #[]
  names : Array String := #[]
  locals : Array String := #[]
  /-- Variables of this unit that inner functions use. -/
  cells : Array String := #[]
  /-- Variables of outer functions that this unit uses. -/
  free : Array String := #[]
deriving DecidableEq, Inhabited

namespace Pools

/-- The name at an index into the cells followed by the free variables. -/
def cellName? (p : Pools) (index : Nat) : Option String :=
  if index < p.cells.size then p.cells[index]? else p.free[index - p.cells.size]?

/-- How many cell and free variables there are. -/
def cellCount (p : Pools) : Nat := p.cells.size + p.free.size

theorem cellName?_eq (p : Pools) (index : Nat) : p.cellName? index = (p.cells ++ p.free)[index]? := by
  rw [cellName?, Array.getElem?_append]

end Pools

namespace Pool

variable {α : Type}

/-! ### The first place of a value -/

/-- `i` is the first place of the pool that holds `x`. -/
def FirstAt (pool : Array α) (x : α) (i : Nat) : Prop :=
  pool[i]? = some x ∧ ∀ j < i, pool[j]? ≠ some x

/-- The first place stays the first when more is added behind it. -/
theorem FirstAt.push {pool : Array α} {x : α} {i : Nat} (h : FirstAt pool x i) (y : α) :
    FirstAt (pool.push y) x i := by
  obtain ⟨hlt, -⟩ := Array.getElem?_eq_some_iff.mp h.1
  refine ⟨?_, fun j hj => ?_⟩
  · rw [Array.getElem?_push, if_neg (by omega), h.1]
  · rw [Array.getElem?_push, if_neg (by omega)]
    exact h.2 j hj

/-- A value that the pool did not hold is first at the end it is added to. -/
theorem firstAt_size {pool : Array α} {x : α} (h : x ∉ pool) : FirstAt (pool.push x) x pool.size := by
  refine ⟨Array.getElem?_push_size, fun j hj he => h ?_⟩
  rw [Array.getElem?_push, if_neg (by omega)] at he
  exact Array.mem_of_getElem? he

/-! ### Looking up and interning -/

variable [DecidableEq α]

/-- The index of the first entry equal to `x`. -/
def find? (pool : Array α) (x : α) : Option Nat := pool.idxOf? x

/-- The index of an entry equal to `x`, which is appended if there is none,
and the pool that holds it. -/
def intern (pool : Array α) (x : α) : Nat × Array α :=
  match find? pool x with
  | some i => (i, pool)
  | none => (pool.size, pool.push x)

/-- The hint, if the entry there equals `x`; else as `intern`. -/
def internHinted (pool : Array α) (x : α) (hint : Option Nat) : Nat × Array α :=
  match hint with
  | some h => if pool[h]? = some x then (h, pool) else intern pool x
  | none => intern pool x

theorem find?_eq_some_iff {pool : Array α} {x : α} {i : Nat} :
    find? pool x = some i ↔ FirstAt pool x i := by
  rw [find?, Array.idxOf?_eq_map_finIdxOf?_val, Option.map_eq_some_iff]
  constructor
  · rintro ⟨k, hk, rfl⟩
    rw [Array.finIdxOf?_eq_some_iff] at hk
    refine ⟨Array.getElem?_eq_some_iff.mpr ⟨k.isLt, hk.1⟩, fun j hj he => ?_⟩
    obtain ⟨hlt, he⟩ := Array.getElem?_eq_some_iff.mp he
    exact hk.2 ⟨j, hlt⟩ hj he
  · rintro ⟨hi, hfirst⟩
    obtain ⟨hlt, hx⟩ := Array.getElem?_eq_some_iff.mp hi
    refine ⟨⟨i, hlt⟩, Array.finIdxOf?_eq_some_iff.mpr ⟨hx, fun j hj he => ?_⟩, rfl⟩
    exact hfirst j hj (Array.getElem?_eq_some_iff.mpr ⟨j.isLt, he⟩)

theorem find?_eq_none_iff {pool : Array α} {x : α} : find? pool x = none ↔ x ∉ pool := by
  rw [find?, Array.idxOf?_eq_none_iff]

theorem getElem?_of_find? {pool : Array α} {x : α} {i : Nat} (h : find? pool x = some i) :
    pool[i]? = some x :=
  (find?_eq_some_iff.mp h).1

/-- A value that is added is found at the end, unless it was there before. -/
theorem find?_push (pool : Array α) (x y : α) :
    find? (pool.push x) y = (find? pool y).or (if x = y then some pool.size else none) := by
  cases h : find? pool y with
  | some i =>
    rw [Option.some_or]
    exact find?_eq_some_iff.mpr ((find?_eq_some_iff.mp h).push x)
  | none =>
    rw [Option.none_or]
    have hy : y ∉ pool := find?_eq_none_iff.mp h
    by_cases hxy : x = y
    · subst hxy
      rw [if_pos rfl]
      exact find?_eq_some_iff.mpr (firstAt_size hy)
    · rw [if_neg hxy, find?_eq_none_iff, Array.mem_push]
      exact not_or.mpr ⟨hy, Ne.symm hxy⟩

/-- The index points at the value. -/
theorem getElem?_intern (pool : Array α) (x : α) :
    (intern pool x).2[(intern pool x).1]? = some x := by
  unfold intern
  split
  · exact getElem?_of_find? ‹_›
  · simp

theorem getElem?_internHinted (pool : Array α) (x : α) (hint : Option Nat) :
    (internHinted pool x hint).2[(internHinted pool x hint).1]? = some x := by
  unfold internHinted
  split
  · split
    · assumption
    · exact getElem?_intern pool x
  · exact getElem?_intern pool x

end Pool

end Wordcode
