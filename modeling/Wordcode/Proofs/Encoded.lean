/-
# What a successful encode is

Encoding writes the declared regions into the graph and assembles what comes out. When both
go through, the unit that is left differs from the one in between by the assembled graph,
the pools that grew and the header alone (`CodeUnit.Encoded`). Writing the regions one after
the other keeps all edges inside the graph, opens every region, and never closes one again.

Key definitions: `CodeUnit.Valid`, `CodeUnit.Encoded`.
Key theorems: `Flattening.opened_all`, `Flattening.valid_regionsAt`, `CodeUnit.exists_encoded`,
`CodeUnit.Encoded.valid`, `CodeUnit.Encoded.emits`.
-/
import Wordcode.CodeUnit
import Wordcode.Proofs.Emits
import Wordcode.Proofs.Reencoding
import Wordcode.Proofs.Writing

namespace Wordcode

namespace Flattening

variable {isa : InstructionSet} {f f' : Flattening} {r : Region} {i : Nat}

/-! ### All regions of a table -/

/-- A step of writing: the region at place `i` has been opened before, or is written now. -/
theorem regionsAt_cons_eq_ok {places : List Nat}
    (h : f.regionsAt isa (i :: places) = (f', .ok ())) :
    ∃ f₁, f₁.regionsAt isa places = (f', .ok ()) ∧
      ((f₁ = f ∧ ∀ r, f.table.regions[i]? = some r → r.setup.isSome = true) ∨
        ∃ r, f.table.regions[i]? = some r ∧ f.region isa i r = .ok f₁) := by
  rw [regionsAt] at h
  cases hi : f.table.regions[i]? with
  | none =>
    simp only [hi] at h
    exact ⟨f, h, Or.inl ⟨rfl, fun _ hr => nomatch hr⟩⟩
  | some r =>
    simp only [hi] at h
    by_cases hopen : r.setup.isSome = true
    · rw [if_pos hopen] at h
      exact ⟨f, h, Or.inl ⟨rfl, fun _ hr => Option.some.inj hr ▸ hopen⟩⟩
    · rw [if_neg hopen] at h
      cases hregion : f.region isa i r with
      | error e =>
        simp only [hregion] at h
        cases (Prod.mk.inj h).2
      | ok f₁ =>
        simp only [hregion] at h
        exact ⟨f₁, h, Or.inr ⟨r, rfl, hregion⟩⟩

theorem opened_region (h : f.region isa i r = .ok f') {j : Nat} {r' : Region}
    (hj : f'.table.regions[j]? = some r') :
    ∃ s, f.table.regions[j]? = some s ∧ ((j = i ∨ s.setup.isSome = true) → r'.setup.isSome = true)
    := by
  rw [region_eq] at h
  split at h
  · obtain rfl := Except.ok.inj h
    obtain ⟨s, hs, rfl⟩ := Option.map_eq_some_iff.mp (List.getElem?_mapIdx.symm.trans hj)
    refine ⟨s, hs, fun hopen => ?_⟩
    by_cases hji : j = i
    · rw [if_pos hji]
      rfl
    · rw [if_neg hji, enclose, if_pos (hopen.resolve_left hji)]
      exact hopen.resolve_left hji
  · cases h

theorem opened_regionsAt : ∀ {places : List Nat} {f : Flattening},
    f.regionsAt isa places = (f', .ok ()) → ∀ {j : Nat} {r' : Region},
      f'.table.regions[j]? = some r' → ∃ r, f.table.regions[j]? = some r ∧
        ((j ∈ places ∨ r.setup.isSome = true) → r'.setup.isSome = true)
  | [], f, h, j, r', hj => by
    obtain ⟨rfl, -⟩ := Prod.mk.inj h
    exact ⟨r', hj, fun hopen => hopen.resolve_left List.not_mem_nil⟩
  | i :: places, f, h, j, r', hj => by
    obtain ⟨f₁, hrest, hstep⟩ := regionsAt_cons_eq_ok h
    obtain ⟨s, hs, hopens⟩ := opened_regionsAt hrest hj
    -- whichever way the step goes, the region at `i` is open after it
    obtain ⟨s', hs', hopen⟩ : ∃ s', f.table.regions[j]? = some s' ∧
        ((j = i ∨ s'.setup.isSome = true) → s.setup.isSome = true) := by
      rcases hstep with ⟨rfl, hopen⟩ | ⟨r, hr, hregion⟩
      · refine ⟨s, hs, fun hor => ?_⟩
        rcases hor with rfl | hset
        · exact hopen s hs
        · exact hset
      · exact opened_region hregion hs
    refine ⟨s', hs', fun hor => hopens ?_⟩
    rcases hor with hmem | hset
    · rcases List.mem_cons.mp hmem with rfl | hmem
      · exact Or.inr (hopen (Or.inl rfl))
      · exact Or.inl hmem
    · exact Or.inr (hopen (Or.inr hset))

/-- **When all declared regions are written, every region has been opened.** -/
theorem opened_all (h : f.all isa = (f', .ok ())) : f'.table.Opened := by
  intro r' hr'
  obtain ⟨j, hj⟩ := List.mem_iff_getElem?.mp hr'
  obtain ⟨r, hr, hopens⟩ := opened_regionsAt h hj
  exact hopens (Or.inl (List.mem_range.mpr (List.getElem?_eq_some_iff.mp hr).1))

/-- **Writing regions keeps what the table speaks of inside the graph.** -/
theorem valid_regionsAt (hisa : isa.Blocks) : ∀ {places : List Nat} {f : Flattening}, f.Valid →
    f.regionsAt isa places = (f', .ok ()) → f'.Valid
  | [], f, hf, h => (Prod.mk.inj h).1 ▸ hf
  | i :: places, f, hf, h => by
    obtain ⟨f₁, hrest, ⟨rfl, -⟩ | ⟨r, hr, hregion⟩⟩ := regionsAt_cons_eq_ok h
    · exact valid_regionsAt hisa hf hrest
    · obtain ⟨first, exit, moved, w⟩ := exists_written hf hisa hr hregion
      exact valid_regionsAt hisa w.valid hrest

end Flattening

theorem Assembled.length_code (a : Assembled) : a.code.length = a.words.length * 2 := by
  simp [Assembled.code, Word.toBytes, List.length_flatMap]

namespace CodeUnit

variable {u u' v : CodeUnit} {object : CodeObject} {stats : EncodeStats} {a : Assembled}

/-! ### The steps of an encode -/

/-- All that a unit speaks of are nodes of its graph. -/
def Valid (u : CodeUnit) : Prop := (⟨u.graph, u.entry, u.exceptions⟩ : Flattening).Valid

theorem Decoded.valid {isa : InstructionSet} {words : List Word} {lines : List LineTable.Line}
    (hd : Decoded isa object words lines u) : u.Valid where
  closed := hd.unedited.closed
  entry_lt := by
    show u.entry < u.graph.size
    rw [hd.entry_eq]
    exact hd.roots_lt 0 List.mem_cons_self
  handler_lt := fun h hh => hd.roots_lt h (List.mem_cons_of_mem _ hh)
  -- decoding leaves no region declared
  member_lt := fun r hr hdeclared => by
    have hopen := hd.opened r hr
    rw [hdeclared] at hopen
    cases hopen

/-- The unit `u` was encoded as `object`, which left `u'` behind: writing its regions gave `v`,
and the code `a` was assembled from that. -/
structure Encoded (u u' : CodeUnit) (object : CodeObject) (stats : EncodeStats) (v : CodeUnit)
    (a : Assembled) : Prop where
  flattened : flatten { u with predecessors? := none } = (v, .ok ())
  assembled : v.graph.assemble v.isa v.entry v.exceptions.handlers v.pools = (u'.graph, .ok a)
  after : u' = { v with
    graph := u'.graph
    pools := a.pools
    header := encodedHeader u'.graph v.entry a.pools v.header v.isa }
  object_eq : object = v.written u'.graph a
  stats_eq : stats = a.stats

/-- **An encode that succeeds writes the regions and assembles the code.** -/
theorem exists_encoded (h : u.encode = (u', .ok (object, stats))) :
    ∃ v a, Encoded u u' object stats v a := by
  unfold encode at h
  cases hflat : flatten { u with predecessors? := none } with
  | mk v outcome =>
    cases outcome with
    | error e =>
      simp only [hflat] at h
      cases (Prod.mk.inj h).2
    | ok ok =>
      simp only [hflat] at h
      cases hasm : v.graph.assemble v.isa v.entry v.exceptions.handlers v.pools with
      | mk g result =>
        cases result with
        | error e =>
          simp only [hasm] at h
          cases (Prod.mk.inj h).2
        | ok a =>
          simp only [hasm, Prod.mk.injEq, Except.ok.injEq] at h
          obtain ⟨rfl, rfl, rfl⟩ := h
          exact ⟨v, a, hflat, hasm, rfl, rfl, rfl⟩

theorem Encoded.encode_eq (e : Encoded u u' object stats v a) :
    u.encode = (u', .ok (object, stats)) := by
  unfold encode
  simp only [e.flattened, e.assembled]
  rw [e.after, e.object_eq, e.stats_eq]
  rfl

theorem flatten_eq_ok (h : flatten { u with predecessors? := none } = (v, .ok ())) :
    ∃ f, (⟨u.graph, u.entry, u.exceptions⟩ : Flattening).all u.isa = (f, .ok ()) ∧
      v = { u with
        graph := f.graph
        entry := f.entry
        exceptions := f.table
        predecessors? := none } := by
  unfold flatten at h
  cases hall : (⟨u.graph, u.entry, u.exceptions⟩ : Flattening).all u.isa with
  | mk f outcome =>
    simp only [hall, Prod.mk.injEq] at h
    obtain ⟨rfl, rfl⟩ := h
    exact ⟨f, rfl, rfl⟩

namespace Encoded

variable (e : Encoded u u' object stats v a)
include e

theorem isa_eq : v.isa = u.isa := by
  obtain ⟨f, -, rfl⟩ := flatten_eq_ok e.flattened
  rfl

theorem header_eq : v.header = u.header := by
  obtain ⟨f, -, rfl⟩ := flatten_eq_ok e.flattened
  rfl

theorem predecessors_eq : v.predecessors? = none := by
  obtain ⟨f, -, rfl⟩ := flatten_eq_ok e.flattened
  rfl

theorem opened : v.exceptions.Opened := by
  obtain ⟨f, hall, rfl⟩ := flatten_eq_ok e.flattened
  exact Flattening.opened_all hall

theorem valid (hisa : u.isa.Blocks) (hu : u.Valid) : v.Valid := by
  obtain ⟨f, hall, rfl⟩ := flatten_eq_ok e.flattened
  exact Flattening.valid_regionsAt hisa hu hall

/-- The code lays out what execution can get to, and emits the layout. -/
theorem emits (hisa : u.isa.BuiltIn) (hu : u.Valid) :
    Graph.Laid u.isa v.graph u'.graph v.entry v.exceptions.handlers a.layout ∧
      ∃ placed, Graph.Emits u.isa u'.graph a placed := by
  have hv := e.valid hisa.blocks hu
  have hasm := e.assembled
  rw [e.isa_eq] at hasm
  exact Graph.emits_of_assemble hisa.regular hv.closed hv.roots_lt hasm

end Encoded

end CodeUnit

end Wordcode
