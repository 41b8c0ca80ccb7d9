/-
# What the search of a region finds

A search by keys visits one state for each key. What it visits can be reached from its
roots (`SearchingBy.sound`), but a state whose key was visited is passed over, and what lies
behind it may be missed. Nothing is missed where each key comes with one state only: then a
state that is passed over was visited itself, and what was visited is closed under going on.

The region that an instruction opens is such a search. Its states are the instructions with
the number of blocks that were opened on the way (`Graph.Inside`), and its keys are the
instructions. So a region lies in the block of its opener, and it is the whole block if
control gets to each instruction with one number of open blocks. Code that was read has a
region for each of its openers.

Key definitions: `SearchingBy`, `Graph.Inside`, `Graph.OneDepth`.
Key theorems: `reach_of_mem_explore`, `mem_explore_of_unique`,
`RegionTable.reach_iff_inside`, `RegionTable.map_setup_reconstruct`,
`RegionTable.reconstruct_decoded`.
-/
import Wordcode.Proofs.Opened
import Wordcode.Proofs.Unedited

namespace Wordcode

/-! ### Searches by keys -/

section Keys

variable {α κ : Type}

/-- A state waits, or one with its key was visited. -/
def Met (key : α → κ) (work : List α) (found : Array α) (a : α) : Prop :=
  a ∈ work ∨ ∃ b ∈ found.toList, key b = key a

variable [BEq κ] [Hashable κ]

/-- A search by keys from `roots` under way: `work` waits, `found` was visited. -/
structure SearchingBy (key : α → κ) (next : α → List α) (roots work : List α)
    (seen : Std.HashSet κ) (found : Array α) : Prop where
  seen_iff : ∀ k, seen.contains k = true ↔ ∃ a ∈ found.toList, key a = k
  sound : ∀ a, a ∈ work ∨ a ∈ found.toList → Reach next roots a
  closed : ∀ a ∈ found.toList, ∀ b ∈ next a, Met key work found b
  roots_met : ∀ r ∈ roots, Met key work found r

namespace SearchingBy

variable {key : α → κ} {next : α → List α} {roots work : List α} {seen : Std.HashSet κ}
  {found : Array α} {a : α}

theorem pass (hs : seen.contains (key a) = true)
    (h : SearchingBy key next roots (a :: work) seen found) :
    SearchingBy key next roots work seen found := by
  have hmet : ∀ b, Met key (a :: work) found b → Met key work found b := by
    rintro b (hb | hb)
    · rcases List.mem_cons.mp hb with rfl | hb
      · exact Or.inr ((h.seen_iff _).mp hs)
      · exact Or.inl hb
    · exact Or.inr hb
  exact ⟨h.seen_iff, fun b hb => h.sound b (hb.imp_left (List.mem_cons_of_mem a)),
    fun b hb c hc => hmet c (h.closed b hb c hc), fun r hr => hmet r (h.roots_met r hr)⟩

theorem start [LawfulBEq κ] [LawfulHashable κ] (key : α → κ) (next : α → List α) (roots : List α) :
    SearchingBy key next roots roots ∅ #[] where
  seen_iff := by simp
  sound := fun a ha => Reach.root (by simpa using ha)
  closed := by simp
  roots_met := fun _ hr => Or.inl hr

theorem visit [LawfulBEq κ] [LawfulHashable κ]
    (h : SearchingBy key next roots (a :: work) seen found) :
    SearchingBy key next roots (next a ++ work) (seen.insert (key a)) (found.push a) := by
  have ha : Reach next roots a := h.sound a (Or.inl List.mem_cons_self)
  have hfound : ∀ b, b ∈ (found.push a).toList ↔ b ∈ found.toList ∨ b = a := by
    intro b
    rw [Array.toList_push, List.mem_append, List.mem_singleton]
  -- `a` itself waited, and is now found
  have hmet : ∀ b, Met key (a :: work) found b → Met key (next a ++ work) (found.push a) b := by
    rintro b (hb | ⟨c, hc, hkey⟩)
    · rcases List.mem_cons.mp hb with rfl | hb
      · exact Or.inr ⟨b, (hfound b).mpr (Or.inr rfl), rfl⟩
      · exact Or.inl (List.mem_append_right _ hb)
    · exact Or.inr ⟨c, (hfound c).mpr (Or.inl hc), hkey⟩
  refine ⟨fun k => ?_, ?_, ?_, fun r hr => hmet r (h.roots_met r hr)⟩
  · rw [Std.HashSet.contains_insert, Bool.or_eq_true, beq_iff_eq, h.seen_iff k]
    simp only [hfound]
    constructor
    · rintro (rfl | ⟨b, hb, hkey⟩)
      · exact ⟨a, Or.inr rfl, rfl⟩
      · exact ⟨b, Or.inl hb, hkey⟩
    · rintro ⟨b, hb | rfl, hkey⟩
      · exact Or.inr ⟨b, hb, hkey⟩
      · exact Or.inl hkey
  · rintro b (hb | hb)
    · rcases List.mem_append.mp hb with hb | hb
      · exact ha.step hb
      · exact h.sound b (Or.inl (List.mem_cons_of_mem a hb))
    · rcases (hfound b).mp hb with hb | rfl
      · exact h.sound b (Or.inr hb)
      · exact ha
  · intro b hb c hc
    rcases (hfound b).mp hb with hb | rfl
    · exact hmet c (h.closed b hb c hc)
    · exact Or.inl (List.mem_append_left work hc)

end SearchingBy

variable [LawfulBEq κ] [LawfulHashable κ] {key : α → κ} {next : α → List α} {roots : List α}
  (keys : List κ) (hroots : ∀ r ∈ roots, key r ∈ keys)
  (hkeys : ∀ a, key a ∈ keys → ∀ b ∈ next a, key b ∈ keys) {room : Nat} (hroom : keys.length ≤ room)
include hroots hkeys hroom

theorem searchingBy_explore :
    ∃ seen, SearchingBy key next roots [] seen (exploreFrom key next room roots ∅ #[]) := by
  refine exploreFrom_run (P := SearchingBy key next roots) (fun hs h => h.pass hs)
    (fun _ h => h.visit) hkeys room roots ∅ #[] hroots ?_ (.start key next roots)
  exact Nat.le_trans (List.countP_le_length ..) hroom

/-- What a search visits can be reached. -/
theorem reach_of_mem_explore {a : α} (ha : a ∈ explore key next room roots) :
    Reach next roots a := by
  obtain ⟨seen, h⟩ := searchingBy_explore keys hroots hkeys hroom
  exact h.sound a (Or.inr ha)

/-- **A search visits all that can be reached, if each key comes with one state only.** -/
theorem mem_explore_of_unique
    (hone : ∀ a b, Reach next roots a → Reach next roots b → key a = key b → a = b) {a : α}
    (ha : Reach next roots a) : a ∈ explore key next room roots := by
  obtain ⟨seen, h⟩ := searchingBy_explore keys hroots hkeys hroom
  have hvisited : ∀ b, Reach next roots b → Met key [] (exploreFrom key next room roots ∅ #[]) b →
      b ∈ explore key next room roots := by
    rintro b hb (hw | ⟨c, hc, hkey⟩)
    · exact absurd hw List.not_mem_nil
    · exact hone c b (h.sound c (Or.inr hc)) hb hkey ▸ hc
  exact ha.induct (fun r hr => hvisited r (.root hr) (h.roots_met r hr)) fun b c hb hc =>
    hvisited c ((h.sound b (Or.inr hb)).step hc) (h.closed b hb c hc)

end Keys

/-! ### The block of an opener -/

namespace Graph

/-- Control gets to an instruction in the block of `opener` with `depth` more blocks open, and on
the way it stays strictly between two offsets. The exit of the block itself ends the way. -/
inductive Inside (isa : InstructionSet) (g : Graph) (opener : NodeId) (start stop : Nat) :
    NodeId → Nat → Prop
  | first {n : NodeId} (hn : (g.node opener).successor = some n)
      (hbetween : RegionTable.isBetween g start stop n = true) : Inside isa g opener start stop n 0
  | close {n m : NodeId} {depth : Nat} (h : Inside isa g opener start stop n (depth + 1))
      (hexit : ((g.node n).flags isa).blockExit = true) (hm : (g.node n).successor = some m)
      (hbetween : RegionTable.isBetween g start stop m = true) :
      Inside isa g opener start stop m depth
  | enter {n m : NodeId} {depth : Nat} (h : Inside isa g opener start stop n depth)
      (hexit : ((g.node n).flags isa).blockExit = false)
      (hsetup : ((g.node n).flags isa).handlerSetup = true) (hm : (g.node n).successor = some m)
      (hbetween : RegionTable.isBetween g start stop m = true) :
      Inside isa g opener start stop m (depth + 1)
  /-- The handler of an opener is entered with its block closed. -/
  | handler {n m : NodeId} {depth : Nat} (h : Inside isa g opener start stop n depth)
      (hexit : ((g.node n).flags isa).blockExit = false)
      (hsetup : ((g.node n).flags isa).handlerSetup = true) (hm : (g.node n).branch = some m)
      (hbetween : RegionTable.isBetween g start stop m = true) :
      Inside isa g opener start stop m depth
  | edge {n m : NodeId} {depth : Nat} (h : Inside isa g opener start stop n depth)
      (hexit : ((g.node n).flags isa).blockExit = false)
      (hsetup : ((g.node n).flags isa).handlerSetup = false) (hm : m ∈ g.targets isa n)
      (hbetween : RegionTable.isBetween g start stop m = true) :
      Inside isa g opener start stop m depth

/-- Control gets to each instruction of the block with one number of open blocks. -/
def OneDepth (isa : InstructionSet) (g : Graph) (opener : NodeId) (start stop : Nat) : Prop :=
  ∀ n depth depth', g.Inside isa opener start stop n depth →
    g.Inside isa opener start stop n depth' → depth = depth'

end Graph

namespace RegionTable

variable {isa : InstructionSet} {g : Graph} {opener n : NodeId} {start stop depth : Nat}

theorem mem_stepInside {m : NodeId} {depth' : Nat} : (m, depth') ∈ stepInside isa g n depth ↔
    ((g.node n).flags isa).blockExit = true ∧ depth = depth' + 1 ∧ (g.node n).successor = some m ∨
    ((g.node n).flags isa).blockExit = false ∧ ((g.node n).flags isa).handlerSetup = true ∧
      (depth' = depth + 1 ∧ (g.node n).successor = some m ∨
        depth' = depth ∧ (g.node n).branch = some m) ∨
    ((g.node n).flags isa).blockExit = false ∧ ((g.node n).flags isa).handlerSetup = false ∧
      depth' = depth ∧ m ∈ g.targets isa n := by
  have hpair : ∀ {ms : List NodeId} {d : Nat},
      (m, depth') ∈ ms.map (·, d) ↔ depth' = d ∧ m ∈ ms := by
    intro ms d
    simp only [List.mem_map, Prod.mk.injEq]
    exact ⟨fun ⟨_, hm, heq, hd⟩ => ⟨hd.symm, heq ▸ hm⟩, fun ⟨hd, hm⟩ => ⟨m, hm, rfl, hd.symm⟩⟩
  unfold stepInside
  dsimp only
  cases ((g.node n).flags isa).blockExit with
  | true =>
    cases depth with
    | zero => simp
    | succ depth => simp [hpair, eq_comm (a := depth)]
  | false => cases ((g.node n).flags isa).handlerSetup <;> simp [hpair]

/-- The states of the search are those of control inside the block. -/
theorem reach_iff_inside : Reach
      (fun s => (stepInside isa g s.1 s.2).filter fun s => isBetween g start stop s.1)
      (((g.node opener).successor.toList.map (·, 0)).filter fun s => isBetween g start stop s.1)
      (n, depth) ↔ g.Inside isa opener start stop n depth := by
  constructor
  · intro h
    refine Reach.induct (Q := fun s => g.Inside isa opener start stop s.1 s.2) ?_ ?_ h
    · intro s hs
      obtain ⟨hfirst, hbetween⟩ := List.mem_filter.mp hs
      obtain ⟨m, hm, rfl⟩ := List.mem_map.mp hfirst
      exact .first (Option.mem_toList.mp hm) hbetween
    · rintro ⟨n, depth⟩ ⟨m, depth'⟩ hin hs
      obtain ⟨hnext, hbetween⟩ := List.mem_filter.mp hs
      rcases mem_stepInside.mp hnext with ⟨hexit, hdepth, hm⟩ |
        ⟨hexit, hsetup, ⟨hdepth, hm⟩ | ⟨hdepth, hm⟩⟩ | ⟨hexit, hsetup, hdepth, hm⟩
      · exact .close (hdepth ▸ hin) hexit hm hbetween
      · exact hdepth ▸ .enter hin hexit hsetup hm hbetween
      · exact hdepth ▸ .handler hin hexit hsetup hm hbetween
      · exact hdepth ▸ .edge hin hexit hsetup hm hbetween
  · intro h
    induction h with
    | first hn hbetween =>
      refine .root (List.mem_filter.mpr ⟨List.mem_map.mpr ?_, hbetween⟩)
      exact ⟨_, Option.mem_toList.mpr hn, rfl⟩
    | close _ hexit hm hbetween ih =>
      refine ih.step (List.mem_filter.mpr ⟨mem_stepInside.mpr ?_, hbetween⟩)
      exact Or.inl ⟨hexit, rfl, hm⟩
    | enter _ hexit hsetup hm hbetween ih =>
      refine ih.step (List.mem_filter.mpr ⟨mem_stepInside.mpr ?_, hbetween⟩)
      exact Or.inr (Or.inl ⟨hexit, hsetup, Or.inl ⟨rfl, hm⟩⟩)
    | handler _ hexit hsetup hm hbetween ih =>
      refine ih.step (List.mem_filter.mpr ⟨mem_stepInside.mpr ?_, hbetween⟩)
      exact Or.inr (Or.inl ⟨hexit, hsetup, Or.inr ⟨rfl, hm⟩⟩)
    | edge _ hexit hsetup hm hbetween ih =>
      refine ih.step (List.mem_filter.mpr ⟨mem_stepInside.mpr ?_, hbetween⟩)
      exact Or.inr (Or.inr ⟨hexit, hsetup, rfl, hm⟩)

section Members

variable (hg : g.Closed)
include hg

theorem root_mem_range {s : NodeId × Nat}
    (hs : s ∈ ((g.node opener).successor.toList.map (·, 0)).filter fun s =>
      isBetween g start stop s.1) : s.1 ∈ List.range g.size := by
  obtain ⟨hfirst, -⟩ := List.mem_filter.mp hs
  obtain ⟨m, hm, rfl⟩ := List.mem_map.mp hfirst
  exact List.mem_range.mpr (hg.lt_of_successor (Option.mem_toList.mp hm))

theorem step_mem_range {s s' : NodeId × Nat}
    (hs : s' ∈ (stepInside isa g s.1 s.2).filter fun s => isBetween g start stop s.1) :
    s'.1 ∈ List.range g.size := by
  obtain ⟨hnext, -⟩ := List.mem_filter.mp hs
  rw [List.mem_range]
  rcases mem_stepInside.mp hnext with ⟨-, -, hm⟩ | ⟨-, -, ⟨-, hm⟩ | ⟨-, hm⟩⟩ | ⟨-, -, -, hm⟩
  · exact hg.lt_of_successor hm
  · exact hg.lt_of_successor hm
  · exact hg.lt_of_branch hm
  · exact hg.lt_of_mem_targets hm

/-- **A region lies in the block of its opener.** -/
theorem inside_of_mem_membersFrom
    (hn : n ∈ membersFrom isa g start stop (g.node opener).successor) :
    ∃ depth, g.Inside isa opener start stop n depth := by
  obtain ⟨⟨n, depth⟩, hs, rfl⟩ := List.mem_map.mp hn
  have hreach := reach_of_mem_explore (List.range g.size) (fun _ => root_mem_range hg)
    (fun _ _ _ => step_mem_range hg) (by rw [List.length_range]) hs
  exact ⟨depth, reach_iff_inside.mp hreach⟩

/-- **A region is the whole block, if control gets to each instruction with one number of open
blocks.** -/
theorem mem_membersFrom_of_inside (hone : g.OneDepth isa opener start stop)
    (hn : g.Inside isa opener start stop n depth) :
    n ∈ membersFrom isa g start stop (g.node opener).successor := by
  refine List.mem_map.mpr ⟨(n, depth), ?_, rfl⟩
  refine mem_explore_of_unique (List.range g.size) (fun _ => root_mem_range hg)
    (fun _ _ _ => step_mem_range hg) (by rw [List.length_range]) ?_ (reach_iff_inside.mpr hn)
  rintro ⟨n, depth⟩ ⟨m, depth'⟩ hs hs' hkey
  obtain rfl : n = m := hkey
  rw [hone n depth depth' (reach_iff_inside.mp hs) (reach_iff_inside.mp hs')]

end Members

/-! ### Regions of decoded code -/

theorem exists_span_of_regionOf? {r : Region} (h : regionOf? isa g n = some r) :
    ∃ start stop, (g.node n).offset = some start ∧ (g.node r.handler).offset = some stop ∧
      r.members = Std.HashSet.ofList (membersFrom isa g start stop (g.node n).successor) := by
  unfold regionOf? at h
  obtain ⟨handler, -, h⟩ := Option.bind_eq_some_iff.mp h
  obtain ⟨start, hstart, h⟩ := Option.bind_eq_some_iff.mp h
  obtain ⟨stop, hstop, h⟩ := Option.bind_eq_some_iff.mp h
  by_cases hsetup : ((g.node n).flags isa).handlerSetup = true
  · rw [if_pos hsetup] at h
    obtain rfl := Option.some.inj h
    exact ⟨start, stop, hstart, hstop, rfl⟩
  · rw [if_neg hsetup] at h
    cases h

/-- There is one region for each node that opens a block, in their order. -/
theorem map_setup_reconstruct : ∀ {nodes : List NodeId},
    (∀ n ∈ nodes, ((g.node n).flags isa).handlerSetup = true → ∃ r, regionOf? isa g n = some r) →
    (reconstruct isa g nodes).regions.map (·.setup) =
      (nodes.filter fun n => ((g.node n).flags isa).handlerSetup).map some
  | [], _ => rfl
  | n :: nodes, hopens => by
    obtain ⟨hn, hrest⟩ := List.forall_mem_cons.mp hopens
    have ih := map_setup_reconstruct hrest
    rw [reconstruct] at ih ⊢
    dsimp only at ih ⊢
    cases hsetup : ((g.node n).flags isa).handlerSetup with
    | true =>
      obtain ⟨r, hr⟩ := hn hsetup
      rw [List.filterMap_cons_some hr, List.filter_cons, hsetup, if_pos rfl, List.map_cons,
        List.map_cons, ih, (regionOf?_eq_some hr).2.1]
    | false =>
      have hnone : regionOf? isa g n = none := by
        by_contra hsome
        obtain ⟨r, hr⟩ := Option.ne_none_iff_exists'.mp hsome
        rw [(regionOf?_eq_some hr).1] at hsetup
        cases hsetup
      rw [List.filterMap_cons_none hnone, List.filter_cons, hsetup, if_neg Bool.false_ne_true, ih]

/-- **The regions of decoded code.** Each instruction of the code that opens a block has one region,
in the order of the code. It holds only instructions that control gets to inside the block, strictly
between the opener and the handler, and all of them if control gets to each with one number of open
blocks. -/
theorem reconstruct_decoded {code : List UInt8} {pools : Pools} (hisa : isa.BuiltIn)
    (h : Stream.decode isa code pools = .ok g) :
    (reconstruct isa g (List.range g.size)).regions.map (·.setup) =
      ((List.range g.size).filter fun n => ((g.node n).flags isa).handlerSetup).map some ∧
    ∀ r ∈ (reconstruct isa g (List.range g.size)).regions, ∃ opener start stop,
      r.setup = some opener ∧ (g.node opener).branch = some r.handler ∧
      (g.node opener).offset = some start ∧ (g.node r.handler).offset = some stop ∧
      (∀ n ∈ r.members, ∃ depth, g.Inside isa opener start stop n depth) ∧
      (g.OneDepth isa opener start stop →
        ∀ n depth, g.Inside isa opener start stop n depth → n ∈ r.members) := by
  obtain ⟨words, -, -, hreads⟩ := Stream.decode_eq_ok_iff.mp h
  have hu := hreads.unedited
  have hoffset : ∀ n < g.size, (g.node n).offset = some (2 * n) := by
    intro n hn
    obtain ⟨word, argument, hw, ha⟩ := hu.at_lt hn
    exact hu.offset hw ha
  constructor
  · refine map_setup_reconstruct fun n hn hsetup => ?_
    have hlt := List.mem_range.mp hn
    obtain ⟨word, argument, hw, ha⟩ := hu.at_lt hlt
    obtain ⟨t, ht, hbranch, -⟩ := hu.jumps hw ha (hisa.isJump_of_setup hsetup)
    obtain ⟨r, hr, -⟩ := exists_regionOf? hsetup hbranch (hoffset n hlt) (hoffset t ht)
    exact ⟨r, hr⟩
  · intro r hr
    obtain ⟨opener, -, hregion⟩ := List.mem_filterMap.mp hr
    obtain ⟨-, hopener, hbranch⟩ := regionOf?_eq_some hregion
    obtain ⟨start, stop, hstart, hstop, hmembers⟩ := exists_span_of_regionOf? hregion
    have hmem : ∀ n, n ∈ r.members ↔
        n ∈ membersFrom isa g start stop (g.node opener).successor := by
      intro n
      rw [hmembers, Std.HashSet.mem_ofList, List.contains_iff_mem]
    refine ⟨opener, start, stop, hopener, hbranch, hstart, hstop, fun n hn => ?_,
      fun hone n depth hin => (hmem n).mpr (mem_membersFrom_of_inside hu.closed hone hin)⟩
    exact inside_of_mem_membersFrom hu.closed ((hmem n).mp hn)

/-- A block in a block: two openers, two exits and two returns. -/
theorem exists_nested_block : ∃ g,
    Stream.decode .python38 [122, 8, 122, 2, 87, 0, 87, 0, 83, 0, 83, 0] {} = .ok g ∧ 0 < g.size ∧
    ((g.node 0).flags .python38).handlerSetup = true ∧ (g.node 0).branch = some 5 ∧
    (g.node 0).offset = some 0 ∧ (g.node 5).offset = some 10 ∧
    ∀ n depth : Nat, g.Inside .python38 0 0 10 n depth ↔
      n = 1 ∧ depth = 0 ∨ n = 2 ∧ depth = 1 ∨ n = 3 ∧ depth = 0 := by
  have hread :
      (Stream.decode .python38 [122, 8, 122, 2, 87, 0, 87, 0, 83, 0, 83, 0] {}).toOption.map
      (·.nodes.map fun node => (node.opcode, node.offset, node.successor, node.branch)) =
      some #[(⟨122⟩, some 0, some 1, some 5), (⟨122⟩, some 2, some 2, some 3),
        (⟨87⟩, some 4, some 3, none), (⟨87⟩, some 6, some 4, none), (⟨83⟩, some 8, none, none),
        (⟨83⟩, some 10, none, none)] := by
    decide +kernel
  obtain ⟨g, words, hd, -, hpos, hfound⟩ := Graph.exists_unedited hread
  have hopens : ∀ n, (g.node n).opcode = ⟨122⟩ → ((g.node n).flags .python38).handlerSetup = true ∧
      ((g.node n).flags .python38).blockExit = false := by
    intro n hn
    rw [Node.flags, hn]
    decide +kernel
  have hexits : ∀ n, (g.node n).opcode = ⟨87⟩ → ((g.node n).flags .python38).blockExit = true := by
    intro n hn
    rw [Node.flags, hn]
    decide +kernel
  obtain ⟨hop₀, hoffset₀, hnext₀, hbranch₀⟩ : (g.node 0).opcode = ⟨122⟩ ∧
      (g.node 0).offset = some 0 ∧ (g.node 0).successor = some 1 ∧ (g.node 0).branch = some 5 := by
    simpa using hfound 0
  obtain ⟨hop₁, hoffset₁, hnext₁, hbranch₁⟩ : (g.node 1).opcode = ⟨122⟩ ∧
      (g.node 1).offset = some 2 ∧ (g.node 1).successor = some 2 ∧ (g.node 1).branch = some 3 := by
    simpa using hfound 1
  obtain ⟨hop₂, hoffset₂, hnext₂, -⟩ : (g.node 2).opcode = ⟨87⟩ ∧
      (g.node 2).offset = some 4 ∧ (g.node 2).successor = some 3 ∧ (g.node 2).branch = none := by
    simpa using hfound 2
  obtain ⟨hop₃, hoffset₃, -⟩ : (g.node 3).opcode = ⟨87⟩ ∧
      (g.node 3).offset = some 6 ∧ (g.node 3).successor = some 4 ∧ (g.node 3).branch = none := by
    simpa using hfound 3
  have hoffset₅ : (g.node 5).offset = some 10 := congrArg (·.2.1) (hfound 5)
  refine ⟨g, hd, hpos, (hopens 0 hop₀).1, hbranch₀, hoffset₀, hoffset₅,
    fun n depth => ⟨fun h => ?_, ?_⟩⟩
  -- control gets nowhere else
  · induction h with
    | first hn _ =>
      obtain rfl := Option.some.inj (hnext₀.symm.trans hn)
      exact Or.inl ⟨rfl, rfl⟩
    | close _ _ hm _ ih =>
      rcases ih with ⟨-, hdepth⟩ | ⟨rfl, hdepth⟩ | ⟨-, hdepth⟩
      · cases hdepth
      · obtain rfl := Option.some.inj (hnext₂.symm.trans hm)
        exact Or.inr (Or.inr ⟨rfl, Nat.succ.inj hdepth⟩)
      · cases hdepth
    | enter _ hexit _ hm _ ih =>
      rcases ih with ⟨rfl, rfl⟩ | ⟨rfl, -⟩ | ⟨rfl, -⟩
      · obtain rfl := Option.some.inj (hnext₁.symm.trans hm)
        exact Or.inr (Or.inl ⟨rfl, rfl⟩)
      · exact absurd (hexits 2 hop₂) (Bool.eq_false_iff.mp hexit)
      · exact absurd (hexits 3 hop₃) (Bool.eq_false_iff.mp hexit)
    | handler _ hexit _ hm _ ih =>
      rcases ih with ⟨rfl, rfl⟩ | ⟨rfl, -⟩ | ⟨rfl, -⟩
      · obtain rfl := Option.some.inj (hbranch₁.symm.trans hm)
        exact Or.inr (Or.inr ⟨rfl, rfl⟩)
      · exact absurd (hexits 2 hop₂) (Bool.eq_false_iff.mp hexit)
      · exact absurd (hexits 3 hop₃) (Bool.eq_false_iff.mp hexit)
    | edge _ hexit hsetup _ _ ih =>
      rcases ih with ⟨rfl, -⟩ | ⟨rfl, -⟩ | ⟨rfl, -⟩
      · exact absurd (hopens 1 hop₁).1 (Bool.eq_false_iff.mp hsetup)
      · exact absurd (hexits 2 hop₂) (Bool.eq_false_iff.mp hexit)
      · exact absurd (hexits 3 hop₃) (Bool.eq_false_iff.mp hexit)
  -- it gets to the inner opener, the inner exit, and to its own
  · have hbetween : ∀ n offset, (g.node n).offset = some offset → 0 < offset → offset < 10 →
        isBetween g 0 10 n = true := by
      intro n offset hn hlt hlt'
      simp [isBetween, hn, hlt, hlt']
    have hfirst : g.Inside .python38 0 0 10 1 0 :=
      .first hnext₀ (hbetween 1 2 hoffset₁ (by decide) (by decide))
    have hinner : g.Inside .python38 0 0 10 2 1 :=
      .enter hfirst (hopens 1 hop₁).2 (hopens 1 hop₁).1 hnext₁
        (hbetween 2 4 hoffset₂ (by decide) (by decide))
    have hlast : g.Inside .python38 0 0 10 3 0 :=
      .close hinner (hexits 2 hop₂) hnext₂ (hbetween 3 6 hoffset₃ (by decide) (by decide))
    rintro (⟨rfl, rfl⟩ | ⟨rfl, rfl⟩ | ⟨rfl, rfl⟩)
    · exact hfirst
    · exact hinner
    · exact hlast

/-- The outer region of a block in a block holds the inner opener and both exits. -/
theorem reconstruct_decoded_nested : ∃ g,
    InstructionSet.python38.BuiltIn ∧
    Stream.decode .python38 [122, 8, 122, 2, 87, 0, 87, 0, 83, 0, 83, 0] {} = .ok g ∧
    ∃ r ∈ (reconstruct .python38 g (List.range g.size)).regions, r.setup = some 0 ∧
      ∀ n, n ∈ r.members ↔ n = 1 ∨ n = 2 ∨ n = 3 := by
  obtain ⟨g, hd, hpos, hsetup, hbranch, hstart, hstop, hinside⟩ := exists_nested_block
  obtain ⟨hsetups, hregions⟩ := reconstruct_decoded (Or.inl rfl) hd
  have hzero : some 0 ∈ (reconstruct .python38 g (List.range g.size)).regions.map (·.setup) := by
    rw [hsetups]
    exact List.mem_map.mpr ⟨0, List.mem_filter.mpr ⟨List.mem_range.mpr hpos, hsetup⟩, rfl⟩
  obtain ⟨r, hr, hopener⟩ := List.mem_map.mp hzero
  obtain ⟨opener, start, stop, hopener', hbranch', hstart', hstop', hsound, hcomplete⟩ :=
    hregions r hr
  obtain rfl : opener = 0 := Option.some.inj (hopener'.symm.trans hopener)
  have hhandler : r.handler = 5 := Option.some.inj (hbranch'.symm.trans hbranch)
  rw [hhandler] at hstop'
  obtain rfl : start = 0 := Option.some.inj (hstart'.symm.trans hstart)
  obtain rfl : stop = 10 := Option.some.inj (hstop'.symm.trans hstop)
  have hone : g.OneDepth .python38 0 0 10 := by
    intro n depth depth' hn hn'
    rw [hinside] at hn hn'
    omega
  refine ⟨g, Or.inl rfl, hd, r, hr, hopener, fun n => ⟨fun hn => ?_, fun hn => ?_⟩⟩
  · obtain ⟨depth, hin⟩ := hsound n hn
    exact ((hinside n depth).mp hin).imp And.left (Or.imp And.left And.left)
  · rcases hn with rfl | rfl | rfl
    · exact hcomplete hone 1 0 ((hinside 1 0).mpr (by decide))
    · exact hcomplete hone 2 1 ((hinside 2 1).mpr (by decide))
    · exact hcomplete hone 3 0 ((hinside 3 0).mpr (by decide))

end RegionTable

end Wordcode
