/-
# Written code, read again

Code that was written from a layout has a run of units for each instruction of the layout.
When it is read, the run is a chain: its extension units lead on to the unit of the
instruction, and this unit leads to the first units of the runs that the instruction led into
(`Graph.ReadsUnits.edges_instruction`).

So where the layout has no new jumps the two graphs agree on what does not see the extension
units: how deep the stack gets, and to which instructions execution gets, as long as it starts
at corresponding places. These differ in the handlers, as those of the written code are only
those of the instructions that were laid out (`Graph.Retained`).

Key definitions: `Graph.ReadsUnits`, `Graph.Rereads`, `Graph.Retained`.
Key theorems: `Graph.ReadsUnits.edges_instruction`, `Graph.Rereads.maxStackDepth_eq`,
`Graph.Rereads.reached_iff`.
-/
import Wordcode.Proofs.DepthWalk
import Wordcode.Proofs.Opened
import Wordcode.Proofs.Narrowing

namespace Wordcode

namespace Relaxation

/-- The first unit of the run that a node was laid out in. -/
def startOf (placed : List Placed) (n : NodeId) : Nat :=
  ((placed.find? (·.run.nodes.contains n)).map (·.start)).getD 0

/-- The unit of the instruction of the run that starts at a unit. -/
def unitOf (placed : List Placed) (start : Nat) : Nat :=
  ((placed.find? (·.start == start)).map fun p => p.start + p.width).getD 0

theorem eq_of_mem_flatMap {α β : Type} {f : α → List β} : ∀ {xs : List α}, (xs.flatMap f).Nodup →
    ∀ {a b : α} {x : β}, a ∈ xs → b ∈ xs → x ∈ f a → x ∈ f b → a = b
  | c :: xs, h, a, b, x, ha, hb, hxa, hxb => by
    rw [List.flatMap_cons, List.nodup_append] at h
    obtain ⟨-, hrest, hdisjoint⟩ := h
    have hlater : ∀ {e}, e ∈ xs → x ∈ f e → x ∈ xs.flatMap f := fun he hx =>
      List.mem_flatMap.mpr ⟨_, he, hx⟩
    rcases List.mem_cons.mp ha with rfl | ha' <;> rcases List.mem_cons.mp hb with rfl | hb'
    · rfl
    · exact absurd rfl (hdisjoint x hxa x (hlater hb' hxb))
    · exact absurd rfl (hdisjoint x hxb x (hlater ha' hxa))
    · exact eq_of_mem_flatMap hrest ha' hb' hxa hxb

theorem startOf_eq {placed : List Placed} (h : (placed.flatMap (·.run.nodes)).Nodup) {p : Placed}
    (hp : p ∈ placed) {n : Nat} (hn : n ∈ p.run.nodes) : startOf placed n = p.start := by
  unfold startOf
  cases hf : placed.find? (·.run.nodes.contains n) with
  | none =>
    have hnone := List.find?_eq_none.mp hf p hp
    exact absurd (List.contains_iff_mem.mpr hn) hnone
  | some q =>
    have hq := List.contains_iff_mem.mp (List.find?_some (p := fun q : Placed =>
      q.run.nodes.contains n) hf)
    obtain rfl := eq_of_mem_flatMap h hp (List.mem_of_find?_eq_some hf) hn hq
    rfl

end Relaxation

namespace Graph

open Relaxation

theorem not_extension_of_branch? {isa : InstructionSet} {g : Graph} {n t : Nat} (hisa : isa.Regular)
    (ht : g.branch? isa n = some t) : (g.node n).isExtension isa = false := by
  by_contra hext
  have hidle := (hisa.opcodes _).idle (Or.inl (Bool.eq_true_of_not_eq_false hext))
  have hj := (branch?_eq_some.mp ht).1
  rw [Node.isJump, Node.flags, InstructionSet.flags, hidle.2] at hj
  cases hj

/-- The code that `g'` was emitted as was read as `d`. -/
structure ReadsUnits (isa : InstructionSet) (g g' : Graph) (entry : NodeId) (handlers : List NodeId)
    (a : Assembled) (placed : List Placed) (d : Graph) : Prop where
  regular : isa.Regular
  laid : Laid isa g g' entry handlers a.layout
  emits : Emits isa g' a placed
  narrow : ∀ p ∈ placed, p.operand < UInt32.size
  addressable : Addressable isa g' placed
  unedited : Stream.Unedited isa a.words a.pools d

namespace ReadsUnits

variable {isa : InstructionSet} {g g' d : Graph} {entry : NodeId} {handlers : List NodeId}
  {a : Assembled} {placed : List Placed} {p q : Placed} {n k j : Nat}
  (r : ReadsUnits isa g g' entry handlers a placed d)
include r

/-! ### Where nodes and units stand -/

theorem run_unique (hp : p ∈ placed) (hq : q ∈ placed) (hn : n ∈ p.run.nodes)
    (hn' : n ∈ q.run.nodes) : p = q :=
  eq_of_mem_flatMap (r.emits.nodes_eq ▸ r.laid.nodup) hp hq hn hn'

theorem startOf_eq (hp : p ∈ placed) (hn : n ∈ p.run.nodes) : startOf placed n = p.start :=
  Relaxation.startOf_eq (r.emits.nodes_eq ▸ r.laid.nodup) hp hn

theorem startOf_instruction (hp : p ∈ placed) : startOf placed p.run.instruction = p.start :=
  r.startOf_eq hp (List.mem_append_right _ List.mem_cons_self)

theorem exists_place (hk : k < d.size) : ∃ p ∈ placed, ∃ j ≤ p.width, k = p.start + j := by
  rw [r.unedited.size_eq, r.emits.words_eq] at hk
  obtain ⟨p, hp, j, hj, heq⟩ :=
    exists_of_lt_length r.emits.consecutive (fun p _ => length_wordsOf p) hk
  exact ⟨p, hp, j, hj, by omega⟩

theorem unit_lt (hp : p ∈ placed) (hj : j ≤ p.width) : p.start + j < d.size := by
  have hlt := r.emits.start_add_lt hp
  rw [r.unedited.size_eq]
  omega

theorem unit_extension (hp : p ∈ placed) (hj : j < p.width) :
    (d.node (p.start + j)).isExtension isa = true :=
  r.emits.unit_extension r.regular r.narrow r.unedited hp hj

theorem unit_flags (hp : p ∈ placed) :
    (d.node (p.start + p.width)).flags isa = (g'.node p.run.instruction).flags isa :=
  r.emits.unit_flags r.regular r.narrow r.unedited hp

theorem not_extension_unit (hp : p ∈ placed) :
    (d.node (p.start + p.width)).isExtension isa = false :=
  r.emits.not_extension_unit r.regular r.narrow r.unedited hp

theorem exists_place_of_not_extension (hk : k < d.size) (hext : (d.node k).isExtension isa = false) :
    ∃ p ∈ placed, k = p.start + p.width := by
  obtain ⟨p, hp, j, hj, rfl⟩ := r.exists_place hk
  refine ⟨p, hp, ?_⟩
  by_contra hne
  rw [r.unit_extension hp (show j < p.width by omega)] at hext
  cases hext

/-! ### Where units lead -/

theorem edges_extension (hp : p ∈ placed) (hj : j < p.width) :
    d.edges isa (p.start + j) = [(p.start + (j + 1), .fallthrough)] := by
  obtain ⟨hw, ha⟩ := r.emits.extension_at r.regular r.narrow hp hj
  have hext := r.unit_extension hp hj
  have hfalls : (d.node (p.start + j)).fallsThrough isa = true :=
    ((r.regular.opcodes _).idle (Or.inl hext)).1
  refine edges_of_extension r.regular hext ?_
  rw [r.unedited.successor hw ha, if_pos hfalls, Nat.add_assoc]

theorem fallthrough?_unit (hp : p ∈ placed) : d.fallthrough? isa (p.start + p.width) =
    (g'.fallthrough? isa p.run.instruction).map (startOf placed) := by
  rw [fallthrough?, fallthrough?, Node.fallsThrough, Node.fallsThrough, r.unit_flags hp]
  cases hf : ((g'.node p.run.instruction).flags isa).fallsThrough with
  | false => rfl
  | true =>
    obtain ⟨s, hs, q, hq, hmem, -, hunit⟩ :=
      r.emits.unit_successor r.regular r.narrow r.unedited r.laid hp hf
    rw [if_pos rfl, if_pos rfl, hunit, hs, Option.map_some, r.startOf_eq hq hmem]

theorem branch?_unit (hp : p ∈ placed) : d.branch? isa (p.start + p.width) =
    (g'.branch? isa p.run.instruction).map (startOf placed) := by
  rw [branch?, branch?, Node.isJump, Node.isJump, r.unit_flags hp]
  cases hj : ((g'.node p.run.instruction).flags isa).isJump with
  | false => rfl
  | true =>
    obtain ⟨t, ht, q, hq, hmem, hunit⟩ :=
      r.emits.unit_branch r.regular r.narrow r.unedited r.addressable hp hj
    rw [if_pos rfl, if_pos rfl, hunit, ht, Option.map_some, r.startOf_eq hq hmem]

/-- **The unit of an instruction leads to the first units of the runs that the instruction
leads into.** -/
theorem edges_instruction (hp : p ∈ placed) : d.edges isa (p.start + p.width) =
    (g'.edges isa p.run.instruction).map fun t => (startOf placed t.1, t.2) := by
  rw [edges, edges, r.fallthrough?_unit hp, r.branch?_unit hp]
  cases g'.fallthrough? isa p.run.instruction <;> cases g'.branch? isa p.run.instruction <;> rfl

theorem targets_instruction (hp : p ∈ placed) : d.targets isa (p.start + p.width) =
    (g'.targets isa p.run.instruction).map (startOf placed) := by
  rw [targets, targets, r.edges_instruction hp, List.map_map, List.map_map]
  rfl

end ReadsUnits

/-- The graph `g` is assembled in the order of its nodes, and the code is read as `d`. -/
structure Rereads (isa : InstructionSet) (g g' : Graph) (entry : NodeId) (handlers : List NodeId)
    (a : Assembled) (placed : List Placed) (d : Graph) : Prop
    extends InOrder isa g g' entry handlers a placed where
  narrow : ∀ p ∈ placed, p.operand < UInt32.size
  addressable : Addressable isa g' placed
  unedited : Stream.Unedited isa a.words a.pools d

/-- The entry, and where the instructions lead to that open a block and are laid out: the
places from which the written code is laid out again. -/
def Retained (isa : InstructionSet) (g : Graph) (entry : NodeId) (handlers : List NodeId)
    (root : NodeId) : Prop :=
  root = entry ∨ ∃ s, g.Live isa (entry :: handlers) s ∧
    ((g.node s).flags isa).handlerSetup = true ∧ g.branch? isa s = some root

/-- Where the walk for the stack depth goes over the units of `d`, from first unit to first
unit of the runs. -/
def acrossRuns (isa : InstructionSet) (placed : List Placed) (d : Graph) (start depth : Nat) :
    Option (List (Nat × Nat)) :=
  (StackDepth.onward? isa d (unitOf placed start) depth).map
    (List.map fun s => (d.firstOfRun isa s.1, s.2))

namespace Rereads

variable {isa : InstructionSet} {g g' d : Graph} {entry : NodeId} {handlers : List NodeId}
  {a : Assembled} {placed : List Placed} {p q : Placed} {n t k j : Nat}
  (r : Rereads isa g g' entry handlers a placed d)
include r

theorem reads : ReadsUnits isa g g' entry handlers a placed d :=
  ⟨r.regular, r.laid, r.emits, r.narrow, r.addressable, r.unedited⟩

/-! ### Where nodes and units stand -/

theorem unit_flags (hp : p ∈ placed) :
    (d.node (p.start + p.width)).flags isa = (g.node p.run.instruction).flags isa := by
  rw [r.reads.unit_flags hp, r.same.flags]

theorem entry_mem (hp : p ∈ placed) (hfirst : p.start = 0) : entry ∈ p.run.nodes := by
  have hhead := r.laid.head
  have hcons := r.emits.consecutive
  rw [← r.emits.nodes_eq] at hhead
  cases hplaced : placed with
  | nil =>
    rw [hplaced] at hp
    cases hp
  | cons q rest =>
    rw [hplaced, List.flatMap_cons, List.head?_append_of_ne_nil _ (by simp [Run.nodes])] at hhead
    have hq : q ∈ placed := hplaced ▸ List.mem_cons_self
    have hzero : q.start = 0 := by
      rw [hplaced] at hcons
      exact hcons.1
    obtain rfl := r.emits.consecutive.eq_of_unit hp hq (Nat.zero_le _) (Nat.zero_le _)
      (by rw [hfirst, hzero])
    exact List.mem_of_mem_head? hhead

theorem startOf_entry : startOf placed entry = 0 := by
  obtain ⟨p, hp, hmem⟩ := r.emits.exists_run (List.mem_of_mem_head? r.laid.head)
  obtain ⟨q, hq, j, -, heq⟩ := r.reads.exists_place (k := 0)
    (Nat.lt_of_le_of_lt (Nat.zero_le _) (r.reads.unit_lt hp (Nat.zero_le _)))
  have hzero : q.start = 0 := by omega
  rw [r.reads.startOf_eq hq (r.entry_mem hq hzero), hzero]

theorem exists_start (hn : g.Live isa (entry :: handlers) n) :
    ∃ p ∈ placed, startOf placed n = p.start := by
  obtain ⟨p, hp, hmem⟩ := r.emits.exists_run (r.mem_layout.mpr hn)
  exact ⟨p, hp, r.reads.startOf_eq hp hmem⟩

/-! ### Edges -/

theorem branch?_unit (hp : p ∈ placed) : d.branch? isa (p.start + p.width) =
    (g.branch? isa p.run.instruction).map (startOf placed) := by
  rw [r.reads.branch?_unit hp, branch?, branch?, r.same.isJump, r.same.branch]

theorem edges_instruction (hp : p ∈ placed) : d.edges isa (p.start + p.width) =
    (g.edges isa p.run.instruction).map fun t => (startOf placed t.1, t.2) := by
  rw [r.reads.edges_instruction hp, r.same.edges]

theorem targets_instruction (hp : p ∈ placed) : d.targets isa (p.start + p.width) =
    (g.targets isa p.run.instruction).map (startOf placed) := by
  rw [r.reads.targets_instruction hp, r.same.targets]

/-- No jump leads behind the first extension unit of a run. -/
theorem landed (h : d.branch? isa n = some (t + 1)) : (d.node t).isExtension isa = false := by
  obtain ⟨p, hp, j, hj, rfl⟩ := r.reads.exists_place (lt_of_mem_targets (mem_targets.mpr (Or.inr h)))
  by_cases hlast : j < p.width
  · have hmem := (mem_edges isa d (p.start + j) (t + 1) .branch).mpr h
    rw [r.reads.edges_extension hp hlast, List.mem_singleton] at hmem
    cases (Prod.mk.inj hmem).2
  · obtain rfl : j = p.width := by omega
    rw [r.branch?_unit hp, Option.map_eq_some_iff] at h
    obtain ⟨s, hs, hstart⟩ := h
    have hlive := (r.mem_layout.mp (r.emits.instruction_mem hp)).step
      (mem_targets.mpr (Or.inr hs))
    obtain ⟨q, hq, hstart'⟩ := r.exists_start hlive
    rcases r.emits.consecutive.first_or_behind hq with hfirst | ⟨p', hp', hbehind⟩
    · omega
    · obtain rfl : t = p'.start + p'.width := by omega
      exact r.reads.not_extension_unit hp'

/-! ### Runs as chains -/

theorem live_units {roots : List NodeId} (hp : p ∈ placed) (h : d.Live isa roots p.start) :
    ∀ j ≤ p.width, d.Live isa roots (p.start + j)
  | 0, _ => h
  | j + 1, hj => by
    refine (live_units hp h j (Nat.le_of_lt hj)).step ?_
    rw [targets, r.reads.edges_extension hp hj]
    exact List.mem_singleton.mpr rfl

theorem live_run {roots : List NodeId} (hp : p ∈ placed) : ∀ n ∈ p.run.nodes,
    g.Live isa roots n → g.Live isa roots p.run.instruction := by
  refine r.run_induct hp id fun n s _ hedges hs hn => hs (hn.step ?_)
  rw [targets, hedges]
  exact List.mem_singleton.mpr rfl

/-- Going on in the graph is going on in the code that was written from it. -/
theorem live_step {roots : List NodeId} {m : Nat} (hn : n ∈ a.layout) (hm : m ∈ g.targets isa n)
    (h : d.Live isa roots (startOf placed n)) : d.Live isa roots (startOf placed m) := by
  obtain ⟨p, hp, hmem⟩ := r.emits.exists_run hn
  rw [r.reads.startOf_eq hp hmem] at h
  rcases r.mem_nodes hp hmem with ⟨hres, -⟩ | ⟨rfl, -⟩
  · obtain ⟨s, hs, -, hedges⟩ := r.edges_reserved hp hres
    rw [targets, hedges] at hm
    rw [List.mem_singleton.mp hm, r.reads.startOf_eq hp hs]
    exact h
  · refine (r.live_units hp h p.width (Nat.le_refl _)).step ?_
    rw [r.targets_instruction hp]
    exact List.mem_map_of_mem hm

/-! ### Where execution gets -/

/-- The handlers of the code are those of the instructions that were laid out. -/
theorem isHandler_iff {h : Nat} : d.IsHandler isa h ↔ ∃ s t, g.Live isa (entry :: handlers) s ∧
    ((g.node s).flags isa).handlerSetup = true ∧ g.branch? isa s = some t ∧
      h = startOf placed t := by
  constructor
  · rintro ⟨k, hk, hsetup, hbranch⟩
    have hto := branch?_eq_some.mpr ⟨r.unedited.isJump_of_branch hbranch, hbranch⟩
    obtain ⟨p, hp, rfl⟩ :=
      r.reads.exists_place_of_not_extension hk (not_extension_of_branch? r.regular hto)
    have hunit := r.branch?_unit hp
    rw [hto, eq_comm, Option.map_eq_some_iff] at hunit
    obtain ⟨t, ht, rfl⟩ := hunit
    rw [r.unit_flags hp] at hsetup
    exact ⟨p.run.instruction, t, r.mem_layout.mp (r.emits.instruction_mem hp), hsetup, ht, rfl⟩
  · rintro ⟨s, t, hlive, hsetup, ht, rfl⟩
    have hext := not_extension_of_branch? r.regular ht
    obtain ⟨p, hp, rfl⟩ := r.emits.exists_instruction (r.mem_layout.mpr hlive)
      (by rwa [r.same.isExtension])
    have hunit := r.branch?_unit hp
    rw [ht, Option.map_some] at hunit
    refine ⟨p.start + p.width, r.reads.unit_lt hp (Nat.le_refl _), ?_, (branch?_eq_some.mp hunit).2⟩
    rw [r.unit_flags hp]
    exact hsetup

theorem retained_mem {root : NodeId} (h : g.Retained isa entry handlers root) : root ∈ a.layout := by
  rcases h with rfl | ⟨s, hlive, -, ht⟩
  · exact List.mem_of_mem_head? r.laid.head
  · exact r.mem_layout.mpr (hlive.step (mem_targets.mpr (Or.inr ht)))

section Reached

variable {roots : List NodeId} (hroots : ∀ root, root ∈ roots ↔ root = 0 ∨ d.IsHandler isa root)
include hroots

/-- The code is laid out again from where the retained places were written to. -/
theorem mem_roots_iff : k ∈ roots ↔
    ∃ root, g.Retained isa entry handlers root ∧ k = startOf placed root := by
  rw [hroots, r.isHandler_iff]
  constructor
  · rintro (rfl | ⟨s, t, hlive, hsetup, ht, rfl⟩)
    · exact ⟨entry, Or.inl rfl, r.startOf_entry.symm⟩
    · exact ⟨t, Or.inr ⟨s, hlive, hsetup, ht⟩, rfl⟩
  · rintro ⟨root, rfl | ⟨s, hlive, hsetup, ht⟩, rfl⟩
    · exact Or.inl r.startOf_entry
    · exact Or.inr ⟨s, root, hlive, hsetup, ht, rfl⟩

theorem reached_of_retained {root : NodeId} (hroot : g.Retained isa entry handlers root)
    (h : g.Live isa [root] n) : n ∈ a.layout ∧ d.Live isa roots (startOf placed n) := by
  refine Reach.induct (Q := fun n => n ∈ a.layout ∧ d.Live isa roots (startOf placed n))
    (fun m hm => ?_) (fun m m' hm hm' => ?_) h
  · obtain rfl := List.mem_singleton.mp hm
    exact ⟨r.retained_mem hroot, Reach.root ((r.mem_roots_iff hroots).mpr ⟨m, hroot, rfl⟩)⟩
  · exact ⟨r.mem_layout.mpr ((r.mem_layout.mp hm.1).step hm'), r.live_step hm.1 hm' hm.2⟩

/-- What holds of the runs of the retained places, and goes on along the edges of
instructions, holds of every run that is reached in the code. -/
theorem reached_induct {Q : Placed → Prop}
    (hroot : ∀ root, g.Retained isa entry handlers root → ∀ p ∈ placed, root ∈ p.run.nodes → Q p)
    (hstep : ∀ q ∈ placed, Q q → ∀ t ∈ g.targets isa q.run.instruction, ∀ p ∈ placed,
      t ∈ p.run.nodes → Q p)
    (h : d.Live isa roots k) : ∀ p ∈ placed, ∀ j ≤ p.width, k = p.start + j → Q p := by
  -- a unit where a run starts stands in that run
  have hstart : ∀ {t : Nat}, t ∈ a.layout → ∀ p ∈ placed, ∀ j ≤ p.width,
      startOf placed t = p.start + j → t ∈ p.run.nodes := by
    intro t ht p hp j hj heq
    obtain ⟨q, hq, hmem⟩ := r.emits.exists_run ht
    rw [r.reads.startOf_eq hq hmem] at heq
    obtain rfl := r.emits.consecutive.eq_of_unit hq hp (Nat.zero_le _) hj heq
    exact hmem
  refine Reach.induct (Q := fun k => ∀ p ∈ placed, ∀ j ≤ p.width, k = p.start + j → Q p)
    (fun k hk p hp j hj heq => ?_) (fun k m hk hm p hp j hj heq => ?_) h
  · obtain ⟨root, hretained, rfl⟩ := (r.mem_roots_iff hroots).mp hk
    exact hroot root hretained p hp (hstart (r.retained_mem hretained) p hp j hj heq)
  · obtain ⟨q, hq, i, hi, rfl⟩ := r.reads.exists_place (lt_of_mem_targets hm)
    by_cases hlast : i < q.width
    · rw [targets, r.reads.edges_extension hq hlast] at hm
      have hsame : p.start + j = q.start + (i + 1) := by
        rw [← heq]
        exact List.mem_singleton.mp hm
      obtain rfl := r.emits.consecutive.eq_of_unit hp hq hj hlast hsame
      exact hk p hp i hi rfl
    · obtain rfl : i = q.width := by omega
      rw [r.targets_instruction hq] at hm
      obtain ⟨t, ht, rfl⟩ := List.mem_map.mp hm
      have hlive := (r.mem_layout.mp (r.emits.instruction_mem hq)).step ht
      exact hstep q hq (hk q hq _ hi rfl) t ht p hp (hstart (r.mem_layout.mpr hlive) p hp j hj heq)

/-- What is reached in the code, execution gets to from a retained place. -/
theorem retained_of_reached (h : d.Live isa roots k) (hp : p ∈ placed) (hj : j ≤ p.width)
    (hk : k = p.start + j) : ∃ root, g.Retained isa entry handlers root ∧
      g.Live isa [root] p.run.instruction := by
  refine r.reached_induct hroots (Q := fun p => ∃ root, g.Retained isa entry handlers root ∧
    g.Live isa [root] p.run.instruction) (fun root hroot q hq hmem => ?_)
    (fun q hq hlive t ht q' hq' hmem => ?_) h p hp j hj hk
  · exact ⟨root, hroot, r.live_run hq root hmem (Reach.root List.mem_cons_self)⟩
  · obtain ⟨root, hroot, hlive⟩ := hlive
    exact ⟨root, hroot, r.live_run hq' t hmem (hlive.step ht)⟩

/-- **All of the code is reached exactly when every instruction that was laid out can be got
to from a retained place.** -/
theorem reached_iff : (∀ k < d.size, d.Live isa roots k) ↔
    ∀ n, g.Live isa (entry :: handlers) n → (g.node n).isExtension isa = false →
      ∃ root, g.Retained isa entry handlers root ∧ g.Live isa [root] n := by
  constructor
  · intro h n hn hext
    obtain ⟨p, hp, rfl⟩ := r.emits.exists_instruction (r.mem_layout.mpr hn)
      (by rwa [r.same.isExtension])
    exact r.retained_of_reached hroots (h _ (r.reads.unit_lt hp (Nat.le_refl _))) hp (Nat.le_refl _) rfl
  · intro h k hk
    obtain ⟨p, hp, j, hj, rfl⟩ := r.reads.exists_place hk
    have hmem := r.emits.instruction_mem hp
    obtain ⟨root, hroot, hlive⟩ := h _ (r.mem_layout.mp hmem) (r.not_extension hp)
    have hreached := (r.reached_of_retained hroots hroot hlive).2
    rw [r.reads.startOf_instruction hp] at hreached
    exact r.live_units hp hreached j hj

theorem live_start (h : d.Live isa roots k) (hp : p ∈ placed) (hj : j ≤ p.width)
    (hk : k = p.start + j) : d.Live isa roots p.start := by
  refine r.reached_induct hroots (Q := fun p => d.Live isa roots p.start)
    (fun root hroot q hq hmem => ?_) (fun q hq hlive t ht q' hq' hmem => ?_) h p hp j hj hk
  · exact Reach.root ((r.mem_roots_iff hroots).mpr ⟨root, hroot, (r.reads.startOf_eq hq hmem).symm⟩)
  · refine (r.live_units hq hlive q.width (Nat.le_refl _)).step ?_
    rw [r.targets_instruction hq, ← r.reads.startOf_eq hq' hmem]
    exact List.mem_map_of_mem ht

theorem reached_of_instructions (h : ∀ k < d.size, (d.node k).isExtension isa = false →
    d.Live isa roots k) : ∀ k < d.size, d.Live isa roots k := by
  intro k hk
  obtain ⟨p, hp, j, hj, rfl⟩ := r.reads.exists_place hk
  have hlive := h _ (r.reads.unit_lt hp (Nat.le_refl _)) (r.reads.not_extension_unit hp)
  exact r.live_units hp (r.live_start hroots hlive hp (Nat.le_refl _) rfl) j hj

end Reached

/-! ### How deep the stack gets -/

section Depth

open StackDepth

theorem firstOfRun_eq (hp : p ∈ placed) (hj : j ≤ p.width) : d.firstOfRun isa (p.start + j) = p.start :=
  r.emits.firstOfRun_eq r.regular r.narrow r.unedited hp j hj

theorem unitOf_eq (hp : p ∈ placed) : unitOf placed p.start = p.start + p.width := by
  unfold unitOf
  cases hf : placed.find? (·.start == p.start) with
  | none => exact absurd (beq_self_eq_true _) (List.find?_eq_none.mp hf p hp)
  | some q =>
    have hstart := beq_iff_eq.mp (List.find?_some (p := fun q : Placed => q.start == p.start) hf)
    obtain rfl := r.emits.consecutive.eq_of_unit hp (List.mem_of_find?_eq_some hf)
      (Nat.zero_le _) (Nat.zero_le _) (congrArg (· + 0) hstart.symm)
    rfl

variable (hnothing : ∀ argument edge, isa.effect isa.extension argument edge = some .nothing)
include hnothing

/-- An extension unit hands on the depth it is reached with. -/
theorem onward?_extension {h : Graph} {s : Nat} (hext : (h.node n).isExtension isa = true)
    (hedges : h.edges isa n = [(s, .fallthrough)]) (depth : Nat) :
    onward? isa h n depth = some [(s, depth)] := by
  have hop : (h.node n).opcode = isa.extension := by
    have hreg := (r.regular.opcodes (h.node n).opcode).extension_eq
    exact beq_iff_eq.mp (hreg.symm.trans hext)
  have hleave : leave? isa h n depth .fallthrough = some depth := by
    simp [leave?, Node.effect, hop, hnothing, StackEffect.nothing]
  rw [onward?_eq, hedges]
  simp [onwardOf, hleave]

/-- The walk over the units, as one over the first units of runs. -/
theorem compresses_units : Compresses (onward? isa d) (acrossRuns isa placed d) (· < d.size)
    (fun k => (d.node k).isExtension isa = false) (d.firstOfRun isa) (d.size - ·) where
  step := fun k hk hext depth => by
    obtain ⟨p, hp, rfl⟩ := r.reads.exists_place_of_not_extension hk hext
    rw [acrossRuns, r.firstOfRun_eq hp (Nat.le_refl _), r.unitOf_eq hp]
  stays := fun k _ _ depth next hnext s hs =>
    r.unedited.closed.lt_of_mem_targets (mem_targets_of_onward? hnext s hs)
  through := fun k hk hno depth => by
    obtain ⟨p, hp, j, hj, rfl⟩ := r.reads.exists_place hk
    have hext := Bool.eq_true_of_not_eq_false hno
    have hlt : j < p.width := by
      refine Nat.lt_of_le_of_ne hj fun heq => ?_
      rw [heq, r.reads.not_extension_unit hp] at hext
      cases hext
    have hbound := r.reads.unit_lt hp hlt
    refine ⟨p.start + (j + 1), r.onward?_extension hnothing hext (r.reads.edges_extension hp hlt) depth,
      hbound, ?_, by omega⟩
    rw [r.firstOfRun_eq hp hj, r.firstOfRun_eq hp hlt]
  single := fun k m hk hm hext hext' hlabel => by
    obtain ⟨p, hp, rfl⟩ := r.reads.exists_place_of_not_extension hk hext
    obtain ⟨q, hq, rfl⟩ := r.reads.exists_place_of_not_extension hm hext'
    rw [r.firstOfRun_eq hp (Nat.le_refl _), r.firstOfRun_eq hq (Nat.le_refl _)] at hlabel
    rw [r.emits.consecutive.eq_of_unit hp hq (Nat.zero_le _) (Nat.zero_le _) (by rw [hlabel])]

/-- The walk over the nodes of the layout, as one over the first units of their runs. -/
theorem compresses_nodes : Compresses (onward? isa g') (acrossRuns isa placed d) (· ∈ a.layout)
    (fun n => (g.node n).isExtension isa = false) (startOf placed) (g.size - ·) where
  step := fun n hn hext depth => by
    obtain ⟨p, hp, rfl⟩ := r.emits.exists_instruction hn (by rwa [r.same.isExtension])
    obtain ⟨hop, hoperand⟩ := r.emits.unit_instruction r.regular r.narrow r.unedited hp
    have heffect : ∀ edge, (g'.node p.run.instruction).effect isa edge =
        (d.node (p.start + p.width)).effect isa edge := by
      intro edge
      rw [Node.effect, Node.effect, hop, hoperand]
    rw [acrossRuns, r.reads.startOf_instruction hp, r.unitOf_eq hp]
    refine onward?_congr heffect ?_ depth
    rw [r.same.edges, r.edges_instruction hp, List.map_map]
    refine List.map_congr_left fun t ht => ?_
    have hlive := (r.mem_layout.mp hn).step (List.mem_map_of_mem ht)
    obtain ⟨q, hq, hmem⟩ := r.emits.exists_run (r.mem_layout.mpr hlive)
    have hfirst := r.firstOfRun_eq hq (Nat.zero_le _)
    rw [Function.comp_apply, r.reads.startOf_eq hq hmem]
    exact congrArg (·, t.2) hfirst.symm
  stays := fun n hn _ depth next hnext s hs => by
    have htarget := mem_targets_of_onward? hnext s hs
    rw [r.same.targets] at htarget
    exact r.mem_layout.mpr ((r.mem_layout.mp hn).step htarget)
  through := fun n hn hno depth => by
    obtain ⟨p, hp, hmem⟩ := r.emits.exists_run hn
    have hext := Bool.eq_true_of_not_eq_false hno
    rcases r.mem_nodes hp hmem with ⟨hres, -⟩ | ⟨-, hext'⟩
    · obtain ⟨s, hs, hlt, hedges⟩ := r.edges_reserved hp hres
      have hbound := r.laid.lt (r.emits.mem_layout hp hs)
      rw [r.same.size_eq] at hbound
      rw [← r.same.edges] at hedges
      rw [← r.same.isExtension] at hext
      refine ⟨s, r.onward?_extension hnothing hext hedges depth, r.emits.mem_layout hp hs, ?_,
        by omega⟩
      rw [r.reads.startOf_eq hp hs, r.reads.startOf_eq hp hmem]
    · rw [hext] at hext'
      cases hext'
  single := fun n m hn hm hext hext' hlabel => by
    obtain ⟨p, hp, rfl⟩ := r.emits.exists_instruction hn (by rwa [r.same.isExtension])
    obtain ⟨q, hq, rfl⟩ := r.emits.exists_instruction hm (by rwa [r.same.isExtension])
    rw [r.reads.startOf_instruction hp, r.reads.startOf_instruction hq] at hlabel
    rw [r.emits.consecutive.eq_of_unit hp hq (Nat.zero_le _) (Nat.zero_le _) (by rw [hlabel])]

/-- **The stack gets as deep in the code as in the graph it was written from.** -/
theorem maxStackDepth_eq : maxStackDepth isa d [0] = maxStackDepth isa g' [entry] := by
  have hentry : entry ∈ a.layout := List.mem_of_mem_head? r.laid.head
  obtain ⟨p, hp, -⟩ := r.emits.exists_run hentry
  have hpos : 0 < d.size := Nat.lt_of_le_of_lt (Nat.zero_le _) (r.reads.unit_lt hp (Nat.zero_le _))
  refine StackDepth.maxStackDepth_eq (r.compresses_units hnothing) (fun k hk => hk)
    (r.compresses_nodes hnothing) (fun n hn => r.laid.lt hn) hpos hentry ?_
  rw [r.startOf_entry]
  rfl

end Depth

end Rereads

end Graph

end Wordcode
