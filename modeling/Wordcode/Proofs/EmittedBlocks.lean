/-
# Blocks in emitted code

The region that an instruction opens is searched from the instruction behind it. The search
keeps to the code strictly between the opener and the handler and ends at exits, so where
nothing else opens a block what it finds is what execution gets to in the block
(`Graph.InBlock`). That is said of a graph with offsets, and there are two of them: the graph
that code was emitted from, and the one that it is read as. An instruction of the first is a
run of units in the second, its extension units first. A run lies between two others as a
whole, its extension units lead on inside it and neither open nor close a block, and its
last unit leads where the instruction does. So the units of a run are in the block of the
code exactly if its instruction is in the block of the graph.

Key definitions: `Graph.within`, `Graph.InBlock`, `Graph.ReadsBack`.
Key theorems: `RegionTable.mem_membersFrom`, `RegionTable.handlerFor?_reconstruct`,
`Graph.ReadsBack.mem_targets_instruction`, `Graph.ReadsBack.inBlock_iff`.
-/
import Wordcode.Proofs.Rereading

namespace Wordcode

/-! ### The search of a region -/

section Keys

variable {α κ : Type} [BEq κ] [Hashable κ]

/-- A search is one over its keys, if each comes with one state only. -/
theorem exploreFrom_map {key : α → κ} {next : α → List α} {state : κ → α} {onward : κ → List κ}
    {P : κ → Prop} (hkey : ∀ k, key (state k) = k)
    (hnext : ∀ k, P k → next (state k) = (onward k).map state)
    (hkept : ∀ k, P k → ∀ j ∈ onward k, P j) :
    ∀ (room : Nat) (work : List κ) (seen : Std.HashSet κ) (found : Array κ), (∀ k ∈ work, P k) →
      exploreFrom key next room (work.map state) seen (found.map state) =
        (exploreFrom id onward room work seen found).map state
  | 0, _, _, _, _ => rfl
  | room + 1, work, seen, found, hwork => by
    have hpass : (work.map state).dropWhile (fun a => seen.contains (key a)) =
        (work.dropWhile fun k => seen.contains (id k)).map state := by
      rw [List.dropWhile_map]
      simp only [Function.comp_def, hkey, id]
    rw [exploreFrom, exploreFrom, hpass]
    cases hleft : work.dropWhile fun k => seen.contains (id k) with
    | nil => rfl
    | cons k rest =>
      have hmem : ∀ j ∈ k :: rest, P j := fun j hj =>
        hwork j ((List.dropWhile_suffix _).subset (hleft ▸ hj))
      have hk := hmem k List.mem_cons_self
      rw [List.map_cons]
      simp only [hnext k hk, hkey, id, ← List.map_append, ← Array.map_push]
      refine exploreFrom_map hkey hnext hkept room _ _ _ fun j hj => ?_
      rcases List.mem_append.mp hj with hj | hj
      · exact hkept k hk j hj
      · exact hmem j (List.mem_cons_of_mem k hj)

end Keys

namespace RegionTable

variable {t : RegionTable} {n m : NodeId}

theorem mem_of_smallest? : ∀ {l : List Region} {r : Region}, smallest? l = some r → r ∈ l
  | s :: l, r, h => by
    rw [smallest?] at h
    cases hl : smallest? l with
    | none =>
      rw [hl] at h
      exact Option.some.inj h ▸ List.mem_cons_self
    | some s' =>
      simp only [hl] at h
      split at h
      · exact List.mem_cons_of_mem s (mem_of_smallest? (hl.trans h))
      · exact Option.some.inj h ▸ List.mem_cons_self

theorem smallest?_eq_none_iff {l : List Region} : smallest? l = none ↔ l = [] := by
  cases l with
  | nil => exact iff_of_true rfl rfl
  | cons r l =>
    refine iff_of_false (fun h => ?_) (List.cons_ne_nil r l)
    rw [smallest?] at h
    split at h
    · split at h <;> cases h
    · cases h

theorem handlerFor?_eq_none_iff : t.handlerFor? n = none ↔ ∀ r ∈ t.regions, n ∉ r.members := by
  rw [handlerFor?, Option.map_eq_none_iff, smallest?_eq_none_iff, List.filter_eq_nil_iff]
  simp only [Std.HashSet.contains_iff_mem]

theorem exists_region_of_handlerFor? (h : t.handlerFor? n = some m) :
    ∃ r ∈ t.regions, n ∈ r.members ∧ r.handler = m := by
  obtain ⟨r, hr, rfl⟩ := Option.map_eq_some_iff.mp h
  obtain ⟨hmem, hcontains⟩ := List.mem_filter.mp (mem_of_smallest? hr)
  exact ⟨r, hmem, Std.HashSet.contains_iff_mem.mp hcontains, rfl⟩

theorem isBetween_iff {g : Graph} {start stop : Nat} : isBetween g start stop n = true ↔
    ∃ offset, (g.node n).offset = some offset ∧ start < offset ∧ offset < stop := by
  unfold isBetween
  cases (g.node n).offset <;> simp

end RegionTable

namespace Graph

/-- Where control goes on from `n` without leaving the code strictly between two offsets. An exit
ends the block. -/
def within (isa : InstructionSet) (g : Graph) (start stop : Nat) (n : NodeId) : List NodeId :=
  if ((g.node n).flags isa).blockExit then []
  else (g.targets isa n).filter (RegionTable.isBetween g start stop)

/-- Execution gets to `n` from the instruction behind `opener`, and all the way it stays strictly
between two offsets and goes past no exit. -/
def InBlock (isa : InstructionSet) (g : Graph) (opener start stop n : Nat) : Prop :=
  Reach (g.within isa start stop)
    ((g.node opener).successor.toList.filter (RegionTable.isBetween g start stop)) n

variable {isa : InstructionSet} {g : Graph} {opener start stop n m s : Nat}

theorem mem_within : m ∈ g.within isa start stop n ↔ ((g.node n).flags isa).blockExit = false ∧
    m ∈ g.targets isa n ∧ RegionTable.isBetween g start stop m = true := by
  unfold within
  cases ((g.node n).flags isa).blockExit <;> simp

theorem InBlock.isBetween (h : g.InBlock isa opener start stop n) :
    RegionTable.isBetween g start stop n = true :=
  Reach.induct (Q := fun n => RegionTable.isBetween g start stop n = true)
    (fun _ hr => (List.mem_filter.mp hr).2) (fun _ _ _ hm => (mem_within.mp hm).2.2) h

theorem InBlock.first (hs : (g.node opener).successor = some s)
    (hbetween : RegionTable.isBetween g start stop s = true) : g.InBlock isa opener start stop s :=
  .root (List.mem_filter.mpr ⟨Option.mem_toList.mpr hs, hbetween⟩)

theorem InBlock.next (h : g.InBlock isa opener start stop n)
    (hexit : ((g.node n).flags isa).blockExit = false) (hm : m ∈ g.targets isa n)
    (hbetween : RegionTable.isBetween g start stop m = true) : g.InBlock isa opener start stop m :=
  .step h (mem_within.mpr ⟨hexit, hm, hbetween⟩)

end Graph

namespace RegionTable

variable {isa : InstructionSet} {g : Graph} {start stop n h : Nat}

/-- **The search of a region finds what execution gets to in its block**, if no block is opened
between the offsets. -/
theorem mem_membersFrom {opener : Nat} (hg : g.Closed)
    (hplain : ∀ n, isBetween g start stop n = true → ((g.node n).flags isa).handlerSetup = false) :
    n ∈ membersFrom isa g start stop (g.node opener).successor ↔
      g.InBlock isa opener start stop n := by
  -- no count but zero ever comes up
  let state : NodeId → NodeId × Nat := fun n => (n, 0)
  let first := (g.node opener).successor.toList.filter (isBetween g start stop)
  have hfilter : ∀ l : List NodeId, (l.map state).filter (fun s => isBetween g start stop s.1) =
      (l.filter (isBetween g start stop)).map state := fun l => List.filter_map
  have hsteps : ∀ k, isBetween g start stop k = true →
      (stepInside isa g k 0).filter (fun s => isBetween g start stop s.1) =
        ((g.within isa start stop k).reverse).map state := by
    intro k hk
    unfold stepInside Graph.within
    simp only [hplain k hk, Bool.false_eq_true, if_false]
    cases ((g.node k).flags isa).blockExit with
    | true => rfl
    | false =>
      simp only [Bool.false_eq_true, if_false]
      exact (hfilter _).trans (by rw [List.filter_reverse])
  have hfound : membersFrom isa g start stop (g.node opener).successor =
      explore id (fun k => (g.within isa start stop k).reverse) g.size first := by
    have hrun : exploreFrom Prod.fst (fun s : NodeId × Nat =>
        (stepInside isa g s.1 s.2).filter fun s => isBetween g start stop s.1) g.size
          (first.map state) ∅ (#[].map state) =
        (exploreFrom id (fun k => (g.within isa start stop k).reverse) g.size first ∅ #[]).map
          state :=
      exploreFrom_map (P := fun k => isBetween g start stop k = true) (fun _ => rfl) hsteps
        (fun _ _ j hj => (Graph.mem_within.mp (List.mem_reverse.mp hj)).2.2) g.size first ∅ #[]
        fun _ hj => (List.mem_filter.mp hj).2
    rw [Array.map_empty] at hrun
    unfold membersFrom explore
    dsimp only
    rw [hfilter, hrun, Array.toList_map, List.map_map]
    exact List.map_id _
  rw [hfound, mem_explore (List.range g.size)]
  · simp only [Reach, List.mem_reverse, Graph.InBlock, first]
  · intro r hr
    obtain ⟨hr, -⟩ := List.mem_filter.mp hr
    exact List.mem_range.mpr (hg.lt_of_successor (Option.mem_toList.mp hr))
  · intro k _ j hj
    have hmem := (Graph.mem_within.mp (List.mem_reverse.mp hj)).2.1
    exact List.mem_range.mpr (hg.lt_of_mem_targets hmem)
  · rw [List.length_range]

/-- What is protected in code where one instruction opens a block. -/
theorem handlerFor?_reconstruct {opener : Nat} (hg : g.Closed) (hopener : opener < g.size)
    (hsetup : ((g.node opener).flags isa).handlerSetup = true)
    (honly : ∀ n < g.size, ((g.node n).flags isa).handlerSetup = true → n = opener)
    (hbranch : (g.node opener).branch = some h) (hstart : (g.node opener).offset = some start)
    (hstop : (g.node h).offset = some stop) :
    ((reconstruct isa g (List.range g.size)).handlerFor? n = some h ↔
      g.InBlock isa opener start stop n) ∧
    ((reconstruct isa g (List.range g.size)).handlerFor? n = none ↔
      ¬ g.InBlock isa opener start stop n) := by
  have hregion : regionOf? isa g opener = some ⟨some opener, h,
      Std.HashSet.ofList (membersFrom isa g start stop (g.node opener).successor)⟩ := by
    unfold regionOf?
    simp only [hbranch, hstart, hstop, hsetup, if_true, Option.bind_eq_bind, Option.bind_some]
  have hregions : ∀ r, r ∈ (reconstruct isa g (List.range g.size)).regions ↔
      regionOf? isa g opener = some r := by
    intro r
    rw [reconstruct, List.mem_filterMap]
    constructor
    · rintro ⟨n, hn, hr⟩
      exact honly n (List.mem_range.mp hn) (regionOf?_eq_some hr).1 ▸ hr
    · exact fun hr => ⟨opener, List.mem_range.mpr hopener, hr⟩
  have hplain : ∀ n, isBetween g start stop n = true →
      ((g.node n).flags isa).handlerSetup = false := by
    intro n hn
    by_contra hopens
    obtain ⟨offset, hoffset, hlt, -⟩ := isBetween_iff.mp hn
    have hlt' : n < g.size := by
      by_contra hge
      rw [Graph.node_of_size_le (Nat.not_lt.mp hge)] at hoffset
      cases hoffset
    obtain rfl := honly n hlt' (Bool.eq_true_of_not_eq_false hopens)
    rw [hstart] at hoffset
    exact absurd (Option.some.inj hoffset) (Nat.ne_of_lt hlt)
  have hmem : (∃ r ∈ (reconstruct isa g (List.range g.size)).regions, n ∈ r.members) ↔
      g.InBlock isa opener start stop n := by
    simp only [hregions, hregion, Option.some.injEq, exists_eq_left', Std.HashSet.mem_ofList,
      List.contains_iff_mem]
    exact mem_membersFrom hg hplain
  have hnone : (reconstruct isa g (List.range g.size)).handlerFor? n = none ↔
      ¬ g.InBlock isa opener start stop n := by
    rw [handlerFor?_eq_none_iff, ← hmem]
    simp only [not_exists, not_and]
  refine ⟨⟨fun hprotected => ?_, fun hin => ?_⟩, hnone⟩
  · obtain ⟨r, hr, hn, -⟩ := exists_region_of_handlerFor? hprotected
    exact hmem.mp ⟨r, hr, hn⟩
  · cases hfound : (reconstruct isa g (List.range g.size)).handlerFor? n with
    | none => exact absurd hin (hnone.mp hfound)
    | some h' =>
      obtain ⟨r, hr, -, rfl⟩ := exists_region_of_handlerFor? hfound
      rw [hregions, hregion] at hr
      rw [← Option.some.inj hr]

end RegionTable

/-! ### Blocks of emitted code -/

/-- The extension units and the jumps that assembly adds neither open nor close a block. -/
theorem InstructionSet.BuiltIn.keeps_blocks {isa : InstructionSet} (h : isa.BuiltIn) {op : Opcode}
    (hop : op = isa.extension ∨ op = isa.jumpForward ∨ op = isa.jumpAbsolute) :
    (isa.flags op).handlerSetup = false ∧ (isa.flags op).blockExit = false := by
  rcases h with rfl | rfl <;> rcases hop with rfl | rfl | rfl <;>
    rw [InstructionSet.flags, InstructionSet.info_eq rfl] <;> decide +kernel

namespace Graph

open Relaxation

/-- The code that `g'` was emitted as was read as `d`, for a built-in instruction set. -/
structure ReadsBack (isa : InstructionSet) (g g' : Graph) (entry : NodeId) (handlers : List NodeId)
    (a : Assembled) (placed : List Placed) (d : Graph) : Prop
    extends ReadsUnits isa g g' entry handlers a placed d where
  builtIn : isa.BuiltIn

namespace ReadsBack

variable {isa : InstructionSet} {g g' d : Graph} {entry : NodeId} {handlers : List NodeId}
  {a : Assembled} {placed : List Placed} {o p q : Placed} {n m k j : Nat}
  (r : ReadsBack isa g g' entry handlers a placed d)
include r

/-! #### Where nodes and units stand -/

theorem offset_unit (hk : k < d.size) : (d.node k).offset = some (2 * k) := by
  obtain ⟨word, argument, hw, ha⟩ := r.unedited.at_lt hk
  exact r.unedited.offset hw ha

theorem offset_node (hp : p ∈ placed) (hn : n ∈ p.run.nodes) :
    ∃ j ≤ p.width, (g'.node n).offset = some (2 * (p.start + j)) := by
  rcases List.mem_append.mp hn with hres | hlast
  · obtain ⟨j, hj⟩ := List.mem_iff_getElem?.mp hres
    have hlt := (List.getElem?_eq_some_iff.mp hj).1
    refine ⟨j, Nat.le_of_lt (Nat.lt_of_lt_of_le hlt (r.emits.reserved p hp)), ?_⟩
    rw [Nat.mul_comm]
    refine r.emits.offset p hp n _ (List.mem_append_left _ (List.mem_map.mpr ⟨(n, j), ?_, rfl⟩))
    exact List.mem_zipIdx_iff_getElem?.mpr hj
  · obtain rfl := List.mem_singleton.mp hlast
    exact ⟨p.width, Nat.le_refl _, r.emits.offset_instruction hp⟩

omit r in
/-- Between the end of a run and the start of another one runs lie as a whole. -/
theorem isBetween_iff (he : Emits isa g' a placed) (ho : o ∈ placed) (hq : q ∈ placed)
    (hp : p ∈ placed) (hj : j ≤ p.width) {h : Graph}
    (hoffset : (h.node n).offset = some (2 * (p.start + j))) :
    RegionTable.isBetween h (2 * (o.start + o.width)) (2 * q.start) n = true ↔
      o.start + o.width < p.start ∧ p.start < q.start := by
  rw [RegionTable.isBetween_iff]
  simp only [hoffset, Option.some.injEq, exists_eq_left', Nat.mul_lt_mul_left Nat.two_pos]
  refine and_congr ⟨fun hlt => ?_, fun hlt => by omega⟩ ⟨fun hlt => by omega, fun hlt => ?_⟩
  · by_contra hle
    -- the last unit of `o` would be one of `p`
    obtain rfl := he.consecutive.eq_of_unit ho hp (Nat.le_refl _)
      (j := o.start + o.width - p.start) (by omega) (by omega)
    omega
  · by_contra hle
    obtain rfl := he.consecutive.eq_of_unit hq hp (Nat.zero_le _)
      (j := q.start - p.start) (by omega) (by omega)
    omega

theorem isBetween_node (ho : o ∈ placed) (hq : q ∈ placed) (hp : p ∈ placed)
    (hn : n ∈ p.run.nodes) :
    RegionTable.isBetween g' (2 * (o.start + o.width)) (2 * q.start) n = true ↔
      o.start + o.width < p.start ∧ p.start < q.start := by
  obtain ⟨j, hj, hoffset⟩ := r.offset_node hp hn
  exact isBetween_iff r.emits ho hq hp hj hoffset

theorem isBetween_unit (ho : o ∈ placed) (hq : q ∈ placed) (hp : p ∈ placed) (hj : j ≤ p.width) :
    RegionTable.isBetween d (2 * (o.start + o.width)) (2 * q.start) (p.start + j) = true ↔
      o.start + o.width < p.start ∧ p.start < q.start :=
  isBetween_iff r.emits ho hq hp hj (r.offset_unit (r.unit_lt hp hj))

/-! #### Where they lead -/

theorem targets_extension (hp : p ∈ placed) (hj : j < p.width) :
    d.targets isa (p.start + j) = [p.start + (j + 1)] := by
  rw [targets, r.edges_extension hp hj]
  rfl

theorem target_mem (hmem : n ∈ a.layout) (hm : m ∈ g'.targets isa n) : m ∈ a.layout := by
  rcases mem_targets.mp hm with hs | ht
  · obtain ⟨hf, hs⟩ := fallthrough?_eq_some.mp hs
    obtain ⟨s, hs', hinfix⟩ := r.laid.next _ hmem hf
    obtain rfl : s = m := Option.some.inj (hs'.symm.trans hs)
    exact hinfix.subset (by simp)
  · obtain ⟨hj, ht⟩ := branch?_eq_some.mp ht
    obtain ⟨t, hlaid, ht'⟩ := r.laid.target _ hmem hj
    obtain rfl : t = m := Option.some.inj (ht'.symm.trans ht)
    exact hlaid

/-- The unit of an instruction leads to the first units of the runs that the instruction leads
into. -/
theorem mem_targets_instruction (hp : p ∈ placed) : m ∈ d.targets isa (p.start + p.width) ↔
    ∃ t ∈ g'.targets isa p.run.instruction, ∃ q ∈ placed, t ∈ q.run.nodes ∧ m = q.start := by
  rw [r.targets_instruction hp, List.mem_map]
  constructor
  · rintro ⟨t, ht, rfl⟩
    obtain ⟨q, hq, hmem⟩ := r.emits.exists_run (r.target_mem (r.emits.instruction_mem hp) ht)
    exact ⟨t, ht, q, hq, hmem, r.startOf_eq hq hmem⟩
  · rintro ⟨t, ht, q, hq, hmem, rfl⟩
    exact ⟨t, ht, r.startOf_eq hq hmem⟩

theorem keeps_blocks_extension {h : Graph} (hext : (h.node n).isExtension isa = true) :
    ((h.node n).flags isa).handlerSetup = false ∧ ((h.node n).flags isa).blockExit = false := by
  have hop : (h.node n).opcode = isa.extension := by
    have heq := (r.regular.opcodes (h.node n).opcode).extension_eq
    exact beq_iff_eq.mp (heq.symm.trans hext)
  exact r.builtIn.keeps_blocks (Or.inl hop)

theorem targets_reserved (hp : p ∈ placed) (hn : n ∈ p.run.reserved) :
    ∃ s ∈ p.run.nodes, g'.targets isa n = [s] ∧ [n, s] <:+: a.layout := by
  obtain ⟨s, hs, hinfix, hedges⟩ := r.emits.edges_reserved r.regular r.laid hp hn
  refine ⟨s, hs, ?_, hinfix⟩
  rw [targets, hedges]
  rfl

/-- What goes on along the extension units of a run gets to its instruction. -/
theorem run_induct {Q : NodeId → Prop} (hp : p ∈ placed) (hstep : ∀ n ∈ p.run.reserved,
    ∀ s ∈ p.run.nodes, g'.targets isa n = [s] → Q n → Q s) :
    ∀ n ∈ p.run.nodes, Q n → Q p.run.instruction := by
  intro n hn
  induction hleft : a.layout.length - a.layout.idxOf n using Nat.strong_induction_on
    generalizing n with
  | h left ih =>
    intro hQ
    rcases List.mem_append.mp hn with hres | hlast
    · obtain ⟨s, hs, htargets, hinfix⟩ := r.targets_reserved hp hres
      -- the next node of the run stands further on in the layout
      have hlater : a.layout.idxOf s = a.layout.idxOf n + 1 := by
        obtain ⟨before, after, hlay⟩ := hinfix
        have hnd := r.laid.nodup
        have hn' : a.layout[before.length]? = some n := by simp [← hlay]
        have hs' : a.layout[before.length + 1]? = some s := by simp [← hlay]
        obtain ⟨hlt, rfl⟩ := List.getElem?_eq_some_iff.mp hn'
        obtain ⟨hlt', rfl⟩ := List.getElem?_eq_some_iff.mp hs'
        rw [List.Nodup.idxOf_getElem hnd, List.Nodup.idxOf_getElem hnd]
      have hlt := List.idxOf_lt_length_of_mem (r.emits.mem_layout hp hs)
      exact ih _ (by omega) s hs rfl (hstep n hres s hs htargets hQ)
    · exact List.mem_singleton.mp hlast ▸ hQ

/-! #### The same blocks -/

section Block

variable (ho : o ∈ placed) (hq : q ∈ placed)
include ho hq

theorem inBlock_instruction {opener : Nat} (hp : p ∈ placed) (hn : n ∈ p.run.nodes)
    (h : g'.InBlock isa opener (2 * (o.start + o.width)) (2 * q.start) n) :
    g'.InBlock isa opener (2 * (o.start + o.width)) (2 * q.start) p.run.instruction := by
  have hin := (r.isBetween_node ho hq hp hn).mp h.isBetween
  refine r.run_induct hp (fun m hm s hs htargets hblock => ?_) n hn h
  refine hblock.next (r.keeps_blocks_extension ((r.emits.shaped p hp).reserved m hm)).2 ?_
    ((r.isBetween_node ho hq hp hs).mpr hin)
  rw [htargets]
  exact List.mem_singleton.mpr rfl

theorem inBlock_units {opener : Nat} (hp : p ∈ placed)
    (h : d.InBlock isa opener (2 * (o.start + o.width)) (2 * q.start) p.start) :
    ∀ j ≤ p.width, d.InBlock isa opener (2 * (o.start + o.width)) (2 * q.start) (p.start + j)
  | 0, _ => h
  | j + 1, hj => by
    have hin := (r.isBetween_unit ho hq hp (Nat.zero_le _)).mp h.isBetween
    have hext := r.unit_extension hp hj
    refine (inBlock_units hp h j (Nat.le_of_lt hj)).next (r.keeps_blocks_extension hext).2 ?_
      ((r.isBetween_unit ho hq hp hj).mpr hin)
    rw [r.targets_extension hp hj]
    exact List.mem_singleton.mpr rfl

variable (hfalls : (g'.node o.run.instruction).fallsThrough isa = true)
include hfalls

/-- What is in the block of the code belongs to an instruction in the block of the graph. -/
theorem inBlock_of_unit (h : d.InBlock isa (o.start + o.width) (2 * (o.start + o.width))
    (2 * q.start) k) : ∀ p ∈ placed, ∀ j ≤ p.width, k = p.start + j →
      g'.InBlock isa o.run.instruction (2 * (o.start + o.width)) (2 * q.start)
        p.run.instruction := by
  refine Reach.induct (Q := fun k => ∀ p ∈ placed, ∀ j ≤ p.width, k = p.start + j →
    g'.InBlock isa o.run.instruction (2 * (o.start + o.width)) (2 * q.start) p.run.instruction)
    (fun k hk p hp j hj heq => ?_) (fun k m hk hm p hp j hj heq => ?_) h
  · obtain ⟨hk, hbetween⟩ := List.mem_filter.mp hk
    obtain ⟨s, hs, q₀, hq₀, hmem, -, hunit⟩ :=
      r.emits.unit_successor r.regular r.narrow r.unedited r.laid ho hfalls
    obtain rfl : q₀.start = k := Option.some.inj (hunit.symm.trans (Option.mem_toList.mp hk))
    obtain rfl := r.emits.consecutive.eq_of_unit hp hq₀ hj (Nat.zero_le _) heq.symm
    have hin := (r.isBetween_unit ho hq hp (Nat.zero_le _)).mp hbetween
    exact r.inBlock_instruction ho hq hp hmem
      (.first hs ((r.isBetween_node ho hq hp hmem).mpr hin))
  · obtain ⟨hexit, hm, hbetween⟩ := mem_within.mp hm
    obtain ⟨p₀, hp₀, i, hi, rfl⟩ := r.exists_place (lt_of_mem_targets hm)
    have hblock := hk p₀ hp₀ i hi rfl
    by_cases hlast : i < p₀.width
    · rw [r.targets_extension hp₀ hlast] at hm
      obtain rfl := r.emits.consecutive.eq_of_unit hp hp₀ hj hlast
        (heq.symm.trans (List.mem_singleton.mp hm))
      exact hblock
    · obtain rfl : i = p₀.width := by omega
      obtain ⟨t, ht, q₁, hq₁, hmem, rfl⟩ := (r.mem_targets_instruction hp₀).mp hm
      obtain rfl := r.emits.consecutive.eq_of_unit hp hq₁ hj (Nat.zero_le _) heq.symm
      have hin := (r.isBetween_unit ho hq hp (Nat.zero_le _)).mp hbetween
      rw [r.unit_flags hp₀] at hexit
      exact r.inBlock_instruction ho hq hp hmem
        (hblock.next hexit ht ((r.isBetween_node ho hq hp hmem).mpr hin))

/-- What is in the block of the graph belongs to a run in the block of the code. -/
theorem inBlock_start (h : g'.InBlock isa o.run.instruction (2 * (o.start + o.width))
    (2 * q.start) n) : ∃ p ∈ placed, n ∈ p.run.nodes ∧
      d.InBlock isa (o.start + o.width) (2 * (o.start + o.width)) (2 * q.start) p.start := by
  refine Reach.induct (Q := fun n => ∃ p ∈ placed, n ∈ p.run.nodes ∧
    d.InBlock isa (o.start + o.width) (2 * (o.start + o.width)) (2 * q.start) p.start)
    (fun n hn => ?_) (fun n m hn hm => ?_) h
  · obtain ⟨hn, hbetween⟩ := List.mem_filter.mp hn
    obtain ⟨s, hs, p, hp, hmem, -, hunit⟩ :=
      r.emits.unit_successor r.regular r.narrow r.unedited r.laid ho hfalls
    obtain rfl : s = n := Option.some.inj (hs.symm.trans (Option.mem_toList.mp hn))
    have hin := (r.isBetween_node ho hq hp hmem).mp hbetween
    exact ⟨p, hp, hmem, .first hunit ((r.isBetween_unit ho hq hp (Nat.zero_le _)).mpr hin)⟩
  · obtain ⟨p, hp, hmem, hblock⟩ := hn
    obtain ⟨hexit, hm, hbetween⟩ := mem_within.mp hm
    rcases List.mem_append.mp hmem with hres | hlast
    · obtain ⟨s, hs, htargets, -⟩ := r.targets_reserved hp hres
      rw [htargets] at hm
      exact ⟨p, hp, List.mem_singleton.mp hm ▸ hs, hblock⟩
    · obtain rfl := List.mem_singleton.mp hlast
      obtain ⟨p₁, hp₁, hmem₁⟩ := r.emits.exists_run (r.target_mem (r.emits.instruction_mem hp) hm)
      have hin := (r.isBetween_node ho hq hp₁ hmem₁).mp hbetween
      rw [← r.unit_flags hp] at hexit
      exact ⟨p₁, hp₁, hmem₁, (r.inBlock_units ho hq hp hblock p.width (Nat.le_refl _)).next hexit
        ((r.mem_targets_instruction hp).mpr ⟨m, hm, p₁, hp₁, hmem₁, rfl⟩)
        ((r.isBetween_unit ho hq hp₁ (Nat.zero_le _)).mpr hin)⟩

/-- **A unit is in the block of the code exactly if the instruction of its run is in the block of
the graph.** -/
theorem inBlock_iff (hp : p ∈ placed) (hj : j ≤ p.width) :
    d.InBlock isa (o.start + o.width) (2 * (o.start + o.width)) (2 * q.start) (p.start + j) ↔
      g'.InBlock isa o.run.instruction (2 * (o.start + o.width)) (2 * q.start)
        p.run.instruction := by
  refine ⟨fun h => r.inBlock_of_unit ho hq hfalls h p hp j hj rfl, fun h => ?_⟩
  obtain ⟨p', hp', hmem, hblock⟩ := r.inBlock_start ho hq hfalls h
  obtain rfl := r.run_unique hp hp' (List.mem_append_right _ List.mem_cons_self) hmem
  exact r.inBlock_units ho hq hp hblock j hj

end Block

end ReadsBack

end Graph

end Wordcode
