/-
# Pools with an index by hash

Searching a pool for every operand takes long, so a pool that grows carries an
index: for every value it holds, the first place that holds it. The index is
written only when an entry is added, and a place that is in it stays, also when
the seed holds a value twice. So what the index says is what the search through
the entries says (`IndexedPool.firsts_eq`, which every pool carries), and the
three ways to ask for a value answer as `Pool.find?`, `Pool.intern` and
`Pool.internHinted` do, whatever the hash is.

Places are natural numbers. As everywhere, pools with fewer than 2 ^ 32 entries
are meant, so that a place fits into the 32 bits that a code unit has for it.

Constants are hashed by what they are compared by: their kind, the bits of their
floats, the place of a code object in its table, and the items they nest.

Key definitions: `Constant.hashed`, `IndexedPool`, `IndexedPool.seeded`,
`IndexedPool.intern`, `IndexedPool.internHinted`, `IndexedPool.find?`.
Key theorems: `IndexedPool.entries_seeded`, `IndexedPool.intern_eq`,
`IndexedPool.internHinted_eq`.
-/
import Std.Data.HashMap
import Wordcode.Pool

namespace Wordcode

/-! ### Hashes of constants -/

namespace Constant

mutual
/-- The numbers that go into the hash of a constant: one for its kind, then what
it holds. A text is closed by a byte that is in no text, the length of a list
stands before its items. -/
def hashed : Constant → List Int
  | .none => [0]
  | .ellipsis => [1]
  | .bool value => [2, value.toNat]
  | .int value => [3, value]
  | .float bits => [4, bits.toNat]
  | .complex real imag => [5, real.toNat, imag.toNat]
  | .str text => 6 :: text.toUTF8.data.toList.map (fun b => (b.toNat : Int)) ++ [255]
  | .bytes block => 7 :: (block.length : Int) :: block.map fun b => (b.toNat : Int)
  | .tuple items => 8 :: (items.length : Int) :: hashedAll items
  | .frozenset items => 9 :: (items.length : Int) :: hashedAll items
  | .code index => [10, index]

/-- The numbers of several constants, one after the other. -/
def hashedAll : List Constant → List Int
  | [] => []
  | c :: cs => hashed c ++ hashedAll cs
end

instance : Hashable Constant := ⟨fun c => hash c.hashed⟩

end Constant

/-! ### The index -/

/-- A pool, and for every value in it the first place that holds it. -/
structure IndexedPool (α : Type) [DecidableEq α] [Hashable α] where
  entries : Array α
  firsts : Std.HashMap α Nat
  firsts_eq : ∀ x, firsts[x]? = Pool.find? entries x

namespace IndexedPool

variable {α : Type} [DecidableEq α] [Hashable α]

/-- An index of first places is one again when a value is added and its place put
in, unless it has one. -/
theorem getElem?_insertIfNew_size {entries : Array α} {firsts : Std.HashMap α Nat}
    (h : ∀ x, firsts[x]? = Pool.find? entries x) (x y : α) :
    (firsts.insertIfNew x entries.size)[y]? = Pool.find? (entries.push x) y := by
  rw [Std.HashMap.getElem?_insertIfNew, Pool.find?_push, ← h y]
  by_cases hxy : x = y
  · subst hxy
    rw [if_pos rfl]
    cases hx : firsts[x]? with
    | some i =>
      have hmem : x ∈ firsts := Std.HashMap.mem_iff_isSome_getElem?.mpr (by rw [hx]; rfl)
      rw [if_neg (fun hc => hc.2 hmem), Option.some_or]
    | none =>
      have hmem : x ∉ firsts := fun hm => by
        have := Std.HashMap.mem_iff_isSome_getElem?.mp hm
        rw [hx] at this
        cases this
      rw [if_pos ⟨beq_self_eq_true x, hmem⟩, Option.none_or]
  · rw [if_neg hxy, if_neg (fun hc => hxy (beq_iff_eq.mp hc.1)), Option.or_none]

/-- The pool with no entries. -/
def empty : IndexedPool α where
  entries := #[]
  firsts := ∅
  firsts_eq x := by simp [Pool.find?_eq_none_iff.mpr]

/-- The index of a new entry at the end, and the pool with it. The index by hash
keeps the place it has for a value. -/
def push (pool : IndexedPool α) (x : α) : Nat × IndexedPool α :=
  (pool.entries.size,
    { entries := pool.entries.push x
      firsts := pool.firsts.insertIfNew x pool.entries.size
      firsts_eq := getElem?_insertIfNew_size pool.firsts_eq x })

/-- The pool whose entries are those of the seed, repeated ones included. -/
def seeded (seed : Array α) : IndexedPool α := seed.foldl (fun pool x => (pool.push x).2) empty

/-- The index of an entry equal to `x`. -/
def find? (pool : IndexedPool α) (x : α) : Option Nat := pool.firsts[x]?

/-- The index of an entry equal to `x`, which is appended if there is none. -/
def intern (pool : IndexedPool α) (x : α) : Nat × IndexedPool α :=
  match pool.firsts[x]? with
  | some i => (i, pool)
  | none => pool.push x

/-- The hint, if the entry there equals `x`; else as `intern`. -/
def internHinted (pool : IndexedPool α) (x : α) (hint : Option Nat) : Nat × IndexedPool α :=
  match hint with
  | some h => if pool.entries[h]? = some x then (h, pool) else pool.intern x
  | none => pool.intern x

/-! ### The index answers as the search does -/

theorem entries_foldl_push (values : List α) (pool : IndexedPool α) :
    (values.foldl (fun pool x => (pool.push x).2) pool).entries = pool.entries ++ values.toArray := by
  induction values generalizing pool with
  | nil => exact Array.append_empty.symm
  | cons x xs ih =>
    rw [List.foldl_cons, ih]
    simp [push]

theorem entries_seeded (seed : Array α) : (seeded seed : IndexedPool α).entries = seed := by
  rw [seeded, ← Array.foldl_toList, entries_foldl_push]
  exact Array.empty_append

theorem find?_eq (pool : IndexedPool α) (x : α) : pool.find? x = Pool.find? pool.entries x :=
  pool.firsts_eq x

theorem intern_eq (pool : IndexedPool α) (x : α) :
    (pool.intern x).map id entries = Pool.intern pool.entries x := by
  rw [intern, Pool.intern, pool.firsts_eq]
  cases Pool.find? pool.entries x with
  | some i => rfl
  | none => rfl

theorem internHinted_eq (pool : IndexedPool α) (x : α) (hint : Option Nat) :
    (pool.internHinted x hint).map id entries = Pool.internHinted pool.entries x hint := by
  cases hint with
  | none => exact pool.intern_eq x
  | some h =>
    rw [internHinted, Pool.internHinted]
    split
    · rfl
    · exact pool.intern_eq x

end IndexedPool

end Wordcode
