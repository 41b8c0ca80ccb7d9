/-
# Tables of opened regions

The regions of decoded code have been opened by instructions of the code, so nothing is
left to write into the graph: flattening leaves it alone. Their handlers are the places
where the instructions that open a block lead to.

Key definitions: `RegionTable.Opened`, `Graph.IsHandler`.
Key theorems: `Flattening.all_of_opened`, `RegionTable.mem_handlers`,
`RegionTable.opened_reconstruct`, `RegionTable.mem_handlers_reconstruct`.
-/
import Wordcode.Proofs.Reachability
import Wordcode.Region.Flatten

namespace Wordcode

variable {isa : InstructionSet} {g : Graph} {t : RegionTable}

/-- Some instruction that opens a block has its handler here. -/
def Graph.IsHandler (isa : InstructionSet) (g : Graph) (h : NodeId) : Prop :=
  ∃ s < g.size, ((g.node s).flags isa).handlerSetup = true ∧ (g.node s).branch = some h

namespace RegionTable

/-- Every region was opened by an instruction. -/
def Opened (t : RegionTable) : Prop := ∀ r ∈ t.regions, r.setup.isSome = true

theorem mem_handlers {h : NodeId} : h ∈ t.handlers ↔ ∃ r ∈ t.regions, r.handler = h := by
  rw [handlers, mem_firsts, List.mem_map]

theorem regionOf?_eq_some {n : NodeId} {r : Region} (h : regionOf? isa g n = some r) :
    ((g.node n).flags isa).handlerSetup = true ∧ r.setup = some n ∧
      (g.node n).branch = some r.handler := by
  unfold regionOf? at h
  obtain ⟨handler, hbranch, h⟩ := Option.bind_eq_some_iff.mp h
  obtain ⟨start, -, h⟩ := Option.bind_eq_some_iff.mp h
  obtain ⟨stop, -, h⟩ := Option.bind_eq_some_iff.mp h
  by_cases hsetup : ((g.node n).flags isa).handlerSetup = true
  · rw [if_pos hsetup] at h
    obtain rfl := Option.some.inj h
    exact ⟨hsetup, rfl, hbranch⟩
  · rw [if_neg hsetup] at h
    cases h

theorem exists_regionOf? {n handler start stop : Nat}
    (hsetup : ((g.node n).flags isa).handlerSetup = true) (hbranch : (g.node n).branch = some handler)
    (hstart : (g.node n).offset = some start) (hstop : (g.node handler).offset = some stop) :
    ∃ r, regionOf? isa g n = some r ∧ r.handler = handler := by
  unfold regionOf?
  simp only [hbranch, hstart, hstop, hsetup, if_true, Option.bind_eq_bind, Option.bind_some]
  exact ⟨_, rfl, rfl⟩

/-- The regions that were found have been opened. -/
theorem opened_reconstruct (nodes : List NodeId) : (reconstruct isa g nodes).Opened := by
  intro r hr
  obtain ⟨n, -, hregion⟩ := List.mem_filterMap.mp hr
  rw [(regionOf?_eq_some hregion).2.1]
  rfl

/-- **The handlers that are found are those of the instructions that open a block**, if
every node has an offset. -/
theorem mem_handlers_reconstruct (hg : g.Closed)
    (hoffset : ∀ n < g.size, ∃ o, (g.node n).offset = some o) {h : NodeId} :
    h ∈ (reconstruct isa g (List.range g.size)).handlers ↔ g.IsHandler isa h := by
  rw [mem_handlers]
  constructor
  · rintro ⟨r, hr, rfl⟩
    obtain ⟨n, hn, hregion⟩ := List.mem_filterMap.mp hr
    obtain ⟨hsetup, -, hbranch⟩ := regionOf?_eq_some hregion
    exact ⟨n, List.mem_range.mp hn, hsetup, hbranch⟩
  · rintro ⟨n, hn, hsetup, hbranch⟩
    obtain ⟨start, hstart⟩ := hoffset n hn
    obtain ⟨stop, hstop⟩ := hoffset h (hg.lt_of_branch hbranch)
    obtain ⟨r, hregion, hhandler⟩ := exists_regionOf? hsetup hbranch hstart hstop
    exact ⟨r, List.mem_filterMap.mpr ⟨n, List.mem_range.mpr hn, hregion⟩, hhandler⟩

end RegionTable

namespace Flattening

variable {f : Flattening}

theorem regionsAt_of_opened (hopened : f.table.Opened) : ∀ places : List Nat,
    f.regionsAt isa places = (f, .ok ())
  | [] => rfl
  | i :: rest => by
    have hrest := regionsAt_of_opened hopened rest
    unfold regionsAt
    cases hr : f.table.regions[i]? with
    | none => exact hrest
    | some r =>
      have hsetup := hopened r (List.mem_of_getElem? hr)
      simp only [hsetup, if_true]
      exact hrest

/-- **When all regions have been opened, nothing is written.** -/
theorem all_of_opened (hopened : f.table.Opened) : f.all isa = (f, .ok ()) :=
  regionsAt_of_opened hopened _

end Flattening

end Wordcode
