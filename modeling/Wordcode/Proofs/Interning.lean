/-
# What pools answer

However a pool is used, its entries are those it was seeded with, followed by the
values that were added, each once and none of the seed (`Pool.Extends`). A call is
answered as `Pool.Served` says: by its hint, when the entry there is the value; else
by the first place that holds the value, which is a new one at the end when there was
none. An entry never moves, so an answer stays good.

One call is `Pool.served`, and a run of calls keeps `Pool.Extends` because a call adds
nothing but a value that the pool does not hold. All of it is about the search through
the entries; a pool with an index by hash answers the same (`IndexedPool.serve_eq`,
`IndexedPool.entries_run`).

Key definitions: `Pool.Call`, `Pool.serve`, `Pool.run`, `Pool.Served`, `Pool.Extends`,
`IndexedPool.serve`, `IndexedPool.run`.
Key theorems: `Pool.served`, `Pool.Extends.run`, `Pool.getElem?_run_serve`,
`IndexedPool.serve_eq`, `IndexedPool.run_seeded`.
-/
import Wordcode.Pool.Indexed
import Wordcode.Proofs.Numbering

namespace Wordcode

namespace Pool

variable {α : Type}

/-! ### Calls -/

/-- A call for the index of a value. -/
inductive Call (α : Type) where
  | intern (x : α)
  | internHinted (x : α) (hint : Option Nat)

namespace Call

/-- The value that is wanted. -/
def value : Call α → α
  | .intern x => x
  | .internHinted x _ => x

/-- Where the value may be. -/
def hint : Call α → Option Nat
  | .intern _ => none
  | .internHinted _ hint => hint

end Call

/-- The call made of `pool` is answered with `i`, as it has to be, and leaves the
pool `after`. -/
structure Served (pool : Array α) (call : Call α) (i : Nat) (after : Array α) : Prop where
  /-- A hint that points at the value is the answer. -/
  hinted : ∀ hint, call.hint = some hint → pool[hint]? = some call.value → i = hint
  /-- Without one, the answer is the first place of the value. -/
  first : (∀ hint, call.hint = some hint → pool[hint]? ≠ some call.value) →
    FirstAt after call.value i
  kept : call.value ∈ pool → after = pool
  added : call.value ∉ pool → i = pool.size ∧ after = pool.push call.value

/-- The pool is the seed, followed by values the seed does not hold, each of them once. -/
def Extends (seed pool : Array α) : Prop :=
  ∃ added : Array α, pool = seed ++ added ∧ added.toList.Nodup ∧ ∀ x ∈ added, x ∉ seed

theorem Served.getElem? {pool after : Array α} {call : Call α} {i : Nat}
    (h : Served pool call i after) : after[i]? = some call.value := by
  by_cases hgood : ∃ hint, call.hint = some hint ∧ pool[hint]? = some call.value
  · obtain ⟨hint, hcall, hp⟩ := hgood
    rw [h.hinted hint hcall hp, h.kept (Array.mem_of_getElem? hp), hp]
  · exact (h.first fun hint hcall hp => hgood ⟨hint, hcall, hp⟩).1

theorem Extends.refl (seed : Array α) : Extends seed seed :=
  ⟨#[], by simp, by simp, by simp⟩

theorem Extends.push {seed pool : Array α} (h : Extends seed pool) {x : α} (hx : x ∉ pool) :
    Extends seed (pool.push x) := by
  obtain ⟨added, rfl, hnodup, hnew⟩ := h
  rw [Array.mem_append, not_or] at hx
  refine ⟨added.push x, Array.push_append .., ?_, fun y hy => ?_⟩
  · rw [Array.toList_push, List.nodup_append]
    refine ⟨hnodup, by simp, fun y hy z hz hyz => hx.2 ?_⟩
    rw [← List.mem_singleton.mp hz, ← hyz]
    exact Array.mem_toList_iff.mp hy
  · obtain hy | rfl := Array.mem_push.mp hy
    · exact hnew y hy
    · exact hx.1

theorem Extends.served {seed pool after : Array α} {call : Call α} {i : Nat}
    (h : Extends seed pool) (hs : Served pool call i after) : Extends seed after := by
  by_cases hx : call.value ∈ pool
  · rw [hs.kept hx]
    exact h
  · rw [(hs.added hx).2]
    exact h.push hx

theorem Extends.prefix_toList {seed pool : Array α} (h : Extends seed pool) :
    seed.toList <+: pool.toList := by
  obtain ⟨added, rfl, -⟩ := h
  rw [Array.toList_append]
  exact List.prefix_append _ _

variable [DecidableEq α]

/-! ### One call -/

/-- The answer to a call, and the pool after it. -/
def serve (pool : Array α) : Call α → Nat × Array α
  | .intern x => intern pool x
  | .internHinted x hint => internHinted pool x hint

theorem intern_of_mem {pool : Array α} {x : α} (h : x ∈ pool) :
    ∃ i, intern pool x = (i, pool) ∧ FirstAt pool x i := by
  cases hf : find? pool x with
  | none => exact absurd h (find?_eq_none_iff.mp hf)
  | some i => exact ⟨i, by simp only [intern, hf], find?_eq_some_iff.mp hf⟩

theorem intern_of_not_mem {pool : Array α} {x : α} (h : x ∉ pool) :
    intern pool x = (pool.size, pool.push x) := by
  simp only [intern, find?_eq_none_iff.mpr h]

theorem firstAt_intern (pool : Array α) (x : α) :
    FirstAt (intern pool x).2 x (intern pool x).1 := by
  by_cases h : x ∈ pool
  · obtain ⟨i, hi, hfirst⟩ := intern_of_mem h
    rw [hi]
    exact hfirst
  · rw [intern_of_not_mem h]
    exact firstAt_size h

theorem serve_of_no_hint {pool : Array α} {call : Call α}
    (h : ∀ hint, call.hint = some hint → pool[hint]? ≠ some call.value) :
    serve pool call = intern pool call.value := by
  cases call with
  | intern x => rfl
  | internHinted x hint =>
    cases hint with
    | none => rfl
    | some hint =>
      have hstale : pool[hint]? ≠ some x := h hint rfl
      show internHinted pool x (some hint) = intern pool x
      rw [internHinted, if_neg hstale]

theorem serve_of_hint {pool : Array α} {call : Call α} {hint : Nat} (hcall : call.hint = some hint)
    (h : pool[hint]? = some call.value) : serve pool call = (hint, pool) := by
  cases call with
  | intern x => cases hcall
  | internHinted x given =>
    cases hcall
    exact internHinted_of_hint h

/-- **A call is answered as it has to be**, from any pool. -/
theorem served (pool : Array α) (call : Call α) :
    Served pool call (serve pool call).1 (serve pool call).2 := by
  by_cases hgood : ∃ hint, call.hint = some hint ∧ pool[hint]? = some call.value
  · obtain ⟨hint, hcall, hp⟩ := hgood
    have hmem : call.value ∈ pool := Array.mem_of_getElem? hp
    rw [serve_of_hint hcall hp]
    constructor
    case hinted =>
      intro other hother _
      exact Option.some.inj (hcall.symm.trans hother)
    case first =>
      intro hstale
      exact absurd hp (hstale hint hcall)
    case kept =>
      intro _
      rfl
    case added =>
      intro habsent
      exact absurd hmem habsent
  · have hstale : ∀ hint, call.hint = some hint → pool[hint]? ≠ some call.value :=
      fun hint hcall hp => hgood ⟨hint, hcall, hp⟩
    rw [serve_of_no_hint hstale]
    constructor
    case hinted =>
      intro hint hcall hp
      exact absurd hp (hstale hint hcall)
    case first =>
      intro _
      exact firstAt_intern pool call.value
    case kept =>
      intro hmem
      obtain ⟨i, hi, -⟩ := intern_of_mem hmem
      rw [hi]
    case added =>
      intro habsent
      rw [intern_of_not_mem habsent]
      exact ⟨rfl, rfl⟩

/-! ### A run of calls -/

/-- The pool after the calls. -/
def run (pool : Array α) (calls : List (Call α)) : Array α :=
  calls.foldl (fun pool call => (serve pool call).2) pool

theorem Extends.run {seed pool : Array α} (h : Extends seed pool) (calls : List (Call α)) :
    Extends seed (Pool.run pool calls) := by
  induction calls generalizing pool with
  | nil => exact h
  | cons call calls ih => exact ih (h.served (Pool.served pool call))

/-- An answer points at the value for as long as the pool is used. -/
theorem getElem?_run_serve (pool : Array α) (call : Call α) (later : List (Call α)) :
    (run (serve pool call).2 later)[(serve pool call).1]? = some call.value :=
  getElem?_of_prefix ((Extends.refl _).run later).prefix_toList (served pool call).getElem?

end Pool

/-! ### The same with the index -/

namespace IndexedPool

variable {α : Type} [DecidableEq α] [Hashable α]

/-- The answer to a call, and the pool after it. -/
def serve (pool : IndexedPool α) : Pool.Call α → Nat × IndexedPool α
  | .intern x => pool.intern x
  | .internHinted x hint => pool.internHinted x hint

/-- The pool after the calls. -/
def run (pool : IndexedPool α) (calls : List (Pool.Call α)) : IndexedPool α :=
  calls.foldl (fun pool call => (pool.serve call).2) pool

theorem serve_eq (pool : IndexedPool α) (call : Pool.Call α) :
    (pool.serve call).map id entries = Pool.serve pool.entries call := by
  cases call with
  | intern x => exact pool.intern_eq x
  | internHinted x hint => exact pool.internHinted_eq x hint

theorem serve_fst (pool : IndexedPool α) (call : Pool.Call α) :
    (pool.serve call).1 = (Pool.serve pool.entries call).1 :=
  congrArg Prod.fst (pool.serve_eq call)

-- A repeated entry keeps its index, a hint that is not good is passed over, and `3.0` is not `3`.
example :
    let pool : IndexedPool Constant := seeded #[.none, .int 3, .int 3]
    (pool.serve (.intern (.int 3))).1 = 1 ∧
      (pool.serve (.internHinted (.int 3) (some 2))).1 = 2 ∧
      (pool.serve (.internHinted (.int 3) (some 0))).1 = 1 ∧
      (pool.serve (.intern (.float 0x4008000000000000))).1 = 3 := by
  simp only [serve_fst, entries_seeded]
  decide +kernel

theorem entries_serve (pool : IndexedPool α) (call : Pool.Call α) :
    (pool.serve call).2.entries = (Pool.serve pool.entries call).2 :=
  congrArg Prod.snd (pool.serve_eq call)

theorem entries_run (pool : IndexedPool α) (calls : List (Pool.Call α)) :
    (pool.run calls).entries = Pool.run pool.entries calls := by
  induction calls generalizing pool with
  | nil => rfl
  | cons call calls ih =>
    calc (pool.run (call :: calls)).entries
      _ = ((pool.serve call).2.run calls).entries := rfl
      _ = Pool.run (pool.serve call).2.entries calls := ih _
      _ = Pool.run (Pool.serve pool.entries call).2 calls := by rw [entries_serve]

/-- **Pools stay consistent under any use.** For every seed and all calls, the entries
are the seed and then the added values, each once and none of the seed. Every call is
answered by its hint if the entry there is the value, else by the first place of the
value, which is a new one at the end if there was none; and whatever is called for
later, the answer points at the value. Looking a value up gives its first place, and
nothing exactly when no entry is equal. The index by hash shows in none of this: the
entries, the answers and what is found are those of the search through the entries. -/
theorem run_seeded (seed : Array α) (calls : List (Pool.Call α)) :
    let pool := (seeded seed).run calls
    Pool.Extends seed pool.entries ∧
      (∀ call, Pool.Served pool.entries call (pool.serve call).1 (pool.serve call).2.entries ∧
        ∀ later, ((pool.serve call).2.run later).entries[(pool.serve call).1]? =
          some call.value) ∧
      (∀ x, (∀ i, pool.find? x = some i ↔ Pool.FirstAt pool.entries x i) ∧
        (pool.find? x = none ↔ x ∉ pool.entries)) ∧
      pool.entries = Pool.run seed calls ∧
      (∀ call, (pool.serve call).1 = (Pool.serve (Pool.run seed calls) call).1) ∧
      ∀ x, pool.find? x = Pool.find? (Pool.run seed calls) x := by
  intro pool
  have hentries : pool.entries = Pool.run seed calls := by
    calc pool.entries
      _ = Pool.run (seeded seed : IndexedPool α).entries calls := entries_run _ calls
      _ = Pool.run seed calls := by rw [entries_seeded]
  refine ⟨?_, fun call => ⟨?_, fun later => ?_⟩, fun x => ⟨fun i => ?_, ?_⟩, hentries,
    fun call => ?_, fun x => ?_⟩
  · rw [hentries]
    exact (Pool.Extends.refl seed).run calls
  · rw [serve_fst, entries_serve]
    exact Pool.served pool.entries call
  · rw [entries_run, entries_serve, serve_fst]
    exact Pool.getElem?_run_serve pool.entries call later
  · rw [find?_eq]
    exact Pool.find?_eq_some_iff
  · rw [find?_eq]
    exact Pool.find?_eq_none_iff
  · rw [serve_fst, hentries]
  · rw [find?_eq, hentries]

end IndexedPool

end Wordcode
