/-
# Taking an instruction out

`CodeUnit.remove` leads the edges that the index has under an instruction on to where the
instruction continues, and the entry too. If the index is that of the graph
(`CodeUnit.UpToDate`), these are all edges by which execution gets there, so they now lead
past it (`Graph.edges_ledPast`) and it can only be reached in two ways that are left: as a
handler, because the regions still have it, or because it continues at itself
(`CodeUnit.live_remove_self`).

Writing regions neither cuts off an instruction nor brings one back that execution does not
get to (`Flattening.live_regionsAt`), so the same holds of what is laid out when the unit is
encoded afterwards.

Key definitions: `bypass`, `Graph.ledPast`, `CodeUnit.UpToDate`, `CodeUnit.Bypassed`,
`CodeUnit.Removed`.
Key theorems: `Graph.edges_ledPast`, `Flattening.live_regionsAt`, `CodeUnit.removed_remove`,
`CodeUnit.remove_spec`.
-/
import Wordcode.Proofs.Encoded

namespace Wordcode

/-- Where an edge to `m` leads when `next` has taken the place of `n`. -/
def bypass (n next m : NodeId) : NodeId := if m = n then next else m

@[simp] theorem bypass_self (n next : NodeId) : bypass n next n = next := if_pos rfl

theorem bypass_of_ne {n next m : NodeId} (h : m ≠ n) : bypass n next m = m := if_neg h

theorem bypass_next (n next : NodeId) : bypass n next next = next := by
  rw [bypass, ite_self]

theorem bypass_ne {n next m : NodeId} (h : next ≠ n) : bypass n next m ≠ n := by
  by_cases hm : m = n
  · rw [hm, bypass_self]
    exact h
  · rw [bypass_of_ne hm]
    exact hm

/-! ### The graph -/

namespace Graph

variable {isa : InstructionSet} {g : Graph} {ways : List (NodeId × Edge)} {n next m p : NodeId}
variable {e : Edge}

/-- Leads the edges `ways` to `next`. -/
def ledPast (g : Graph) (ways : List (NodeId × Edge)) (next : NodeId) : Graph :=
  ways.foldl (fun g p => g.redirect p.1 p.2 (some next)) g

theorem size_ledPast : (g.ledPast ways next).size = g.size := Flattening.size_redirects ..

theorem target_ledPast (hp : p < g.size) : ((g.ledPast ways next).node p).target e =
    if (p, e) ∈ ways then some next else (g.node p).target e :=
  Flattening.target_redirects _ _ _ _ _ hp

theorem node_ledPast (p next : NodeId) : ∀ (ways : List (NodeId × Edge)) (g : Graph),
    ∃ s b, (g.ledPast ways next).node p = { g.node p with successor := s, branch := b }
  | [], g => ⟨_, _, rfl⟩
  | w :: ways, g => by
    obtain ⟨s, b, h⟩ := node_ledPast p next ways (g.redirect w.1 w.2 (some next))
    refine ⟨s, b, ?_⟩
    rw [ledPast, List.foldl_cons, ← ledPast, h, node_redirect]
    split
    · cases w.2 <;> rfl
    · rfl

theorem flags_ledPast : ((g.ledPast ways next).node p).flags isa = (g.node p).flags isa :=
  Node.flags_of_body isa (Flattening.body_redirects _ _ _ _)

theorem node_ledPast_of_not_mem : ∀ (ways : List (NodeId × Edge)) (g : Graph),
    (∀ e, (p, e) ∉ ways) → (g.ledPast ways next).node p = g.node p
  | [], _, _ => rfl
  | w :: ways, g, h => by
    have hrest : ∀ e, (p, e) ∉ ways := fun e he => h e (List.mem_cons_of_mem _ he)
    have hne : w.1 ≠ p := fun heq => h w.2 (heq ▸ List.mem_cons_self)
    rw [ledPast, List.foldl_cons, ← ledPast, node_ledPast_of_not_mem ways _ hrest, node_redirect,
      if_neg fun hp => hne hp.1]

theorem closed_ledPast (hg : g.Closed) (hnext : next < g.size) : (g.ledPast ways next).Closed := by
  rw [Flattening.closed_iff]
  intro p m e h
  have hp := lt_of_target h
  rw [size_ledPast] at hp
  rw [target_ledPast hp] at h
  rw [size_ledPast]
  split at h
  · exact Option.some.inj h ▸ hnext
  · exact Flattening.closed_iff.mp hg p m e h

theorem edges_of_target {h : Graph} {f : NodeId → NodeId}
    (hflags : (h.node p).flags isa = (g.node p).flags isa)
    (htarget : ∀ e, ((g.node p).flags isa).takes e = true →
      (h.node p).target e = ((g.node p).target e).map f) :
    h.edges isa p = (g.edges isa p).map fun t => (f t.1, t.2) := by
  have hfall : h.fallthrough? isa p = (g.fallthrough? isa p).map f := by
    rw [fallthrough?, fallthrough?, Node.fallsThrough, Node.fallsThrough, hflags]
    by_cases htakes : ((g.node p).flags isa).fallsThrough = true
    · rw [if_pos htakes, if_pos htakes]
      exact htarget .fallthrough htakes
    · rw [if_neg htakes, if_neg htakes, Option.map_none]
  have hbranch : h.branch? isa p = (g.branch? isa p).map f := by
    rw [branch?, branch?, Node.isJump, Node.isJump, hflags]
    by_cases htakes : ((g.node p).flags isa).isJump = true
    · rw [if_pos htakes, if_pos htakes]
      exact htarget .branch htakes
    · rw [if_neg htakes, if_neg htakes, Option.map_none]
  rw [edges, edges, hfall, hbranch]
  cases g.fallthrough? isa p <;> cases g.branch? isa p <;> rfl

/-- If all edges of `p` to `n` are led on, they lead to `next` and the others where they
led. -/
theorem edges_ledPast (hp : p < g.size) (hways : ∀ e, (p, e) ∈ ways ↔ (n, e) ∈ g.edges isa p) :
    (g.ledPast ways next).edges isa p =
      (g.edges isa p).map fun t => (bypass n next t.1, t.2) := by
  refine edges_of_target flags_ledPast fun e htakes => ?_
  rw [target_ledPast hp]
  simp only [hways, mem_edges_iff, htakes, true_and]
  split
  case isTrue htarget => rw [htarget, Option.map_some, bypass_self]
  case isFalse htarget =>
    cases hm : (g.node p).target e with
    | none => rfl
    | some m =>
      have hne : m ≠ n := fun heq => htarget (by rw [hm, heq])
      rw [Option.map_some, bypass_of_ne hne]

theorem mem_targets_of_continuation? (h : g.continuation? isa n = some next) :
    next ∈ g.targets isa n := by
  rw [mem_targets, fallthrough?_eq_some, branch?_eq_some]
  simp only [continuation?] at h
  split at h
  case isTrue hfalls => exact Or.inl ⟨hfalls, h⟩
  case isFalse =>
    split at h
    case isTrue hjump => exact Or.inr ⟨(Bool.and_eq_true_iff.mp hjump).1, h⟩
    case isFalse => cases h

/-! ### What execution gets to -/

section Led

variable {entry : NodeId} {handlers : List NodeId}

/-- The edges that are led on are those by which execution gets to `n`. -/
def AllInto (isa : InstructionSet) (g : Graph) (roots : List NodeId) (n : NodeId)
    (ways : List (NodeId × Edge)) : Prop :=
  ∀ p e, (p, e) ∈ ways ↔ g.Live isa roots p ∧ (n, e) ∈ g.edges isa p

variable (hg : g.Closed) (hroots : ∀ r ∈ entry :: handlers, r < g.size)
  (hways : g.AllInto isa (entry :: handlers) n ways)
include hg hroots hways

theorem edges_of_live (hp : g.Live isa (entry :: handlers) p) :
    (g.ledPast ways next).edges isa p =
      (g.edges isa p).map fun t => (bypass n next t.1, t.2) :=
  edges_ledPast (hg.lt_of_live hroots hp) fun e => (hways p e).trans (and_iff_right hp)

theorem targets_of_live (hp : g.Live isa (entry :: handlers) p) :
    (g.ledPast ways next).targets isa p = (g.targets isa p).map (bypass n next) := by
  rw [targets, targets, edges_of_live hg hroots hways hp, List.map_map, List.map_map]
  rfl

variable (hn : g.Live isa (entry :: handlers) n) (hnext : next ∈ g.targets isa n)
include hn hnext

/-- Execution gets to nothing new, and to handlers and targets of bypassing edges only. -/
theorem live_of_ledPast
    (h : (g.ledPast ways next).Live isa (bypass n next entry :: handlers) p) :
    g.Live isa (entry :: handlers) p ∧ (p ∈ handlers ∨ ∃ m, bypass n next m = p) := by
  have hbypass : ∀ m, g.Live isa (entry :: handlers) m →
      g.Live isa (entry :: handlers) (bypass n next m) := by
    intro m hm
    rw [bypass]
    split
    · exact hn.step hnext
    · exact hm
  refine Reach.induct (Q := fun p => g.Live isa (entry :: handlers) p ∧
    (p ∈ handlers ∨ ∃ m, bypass n next m = p)) (fun r hr => ?_) (fun p t hp ht => ?_) h
  · rcases List.mem_cons.mp hr with rfl | hr
    · exact ⟨hbypass entry (.root List.mem_cons_self), Or.inr ⟨entry, rfl⟩⟩
    · exact ⟨.root (List.mem_cons_of_mem _ hr), Or.inl hr⟩
  · rw [targets_of_live hg hroots hways hp.1] at ht
    obtain ⟨m, hm, rfl⟩ := List.mem_map.mp ht
    exact ⟨hbypass m (hp.1.step hm), Or.inr ⟨m, rfl⟩⟩

/-- Nothing is cut off, unless `n` also led elsewhere. -/
theorem live_bypass (hway : next = n ∨ ∀ t ∈ g.targets isa n, t = next)
    (h : g.Live isa (entry :: handlers) m) :
    (g.ledPast ways next).Live isa (bypass n next entry :: handlers) (bypass n next m) := by
  have hstep : ∀ p t, g.Live isa (entry :: handlers) p → t ∈ g.targets isa p →
      (g.ledPast ways next).Live isa (bypass n next entry :: handlers) p →
        (g.ledPast ways next).Live isa (bypass n next entry :: handlers) (bypass n next t) := by
    intro p t hp ht hlive
    refine hlive.step ?_
    rw [targets_of_live hg hroots hways hp]
    exact List.mem_map_of_mem ht
  refine (Reach.induct (Q := fun m => g.Live isa (entry :: handlers) m ∧
    (g.ledPast ways next).Live isa (bypass n next entry :: handlers) (bypass n next m))
    (fun r hr => ⟨.root hr, ?_⟩) (fun p t hp ht => ⟨hp.1.step ht, ?_⟩) h).2
  · rcases List.mem_cons.mp hr with rfl | hr
    · exact .root List.mem_cons_self
    · have hlive : (g.ledPast ways next).Live isa (bypass n next entry :: handlers) r :=
        .root (List.mem_cons_of_mem _ hr)
      by_cases heq : r = n
      · subst heq
        have hlive' := hstep r next hn hnext hlive
        rw [bypass_next] at hlive'
        rwa [bypass_self]
      · rwa [bypass_of_ne heq]
  · obtain ⟨hold, hnew⟩ := hp
    by_cases heq : p = n
    · subst heq
      rw [bypass_self] at hnew
      -- from `n` itself execution went on to `next`
      rcases hway with rfl | hway
      · exact hstep _ t hold ht hnew
      · rwa [hway t ht, bypass_next]
    · rw [bypass_of_ne heq] at hnew
      exact hstep p t hold ht hnew

/-- **What was led past is only got to as a handler or from itself.** -/
theorem live_ledPast_self :
    (g.ledPast ways next).Live isa (bypass n next entry :: handlers) n ↔
      n ∈ handlers ∨ next = n := by
  constructor
  · intro h
    refine (live_of_ledPast hg hroots hways hn hnext h).2.imp_right fun ⟨m, hm⟩ => ?_
    by_contra hne
    exact bypass_ne hne hm
  · rintro (hhandler | hself)
    · exact .root (List.mem_cons_of_mem _ hhandler)
    · have hlive := live_bypass hg hroots hways hn hnext (Or.inl hself) hn
      rw [bypass_self] at hlive
      exact hself ▸ hlive

end Led

end Graph

/-! ### Writing regions -/

namespace Flattening

variable {isa : InstructionSet} {f f' : Flattening} {n : NodeId}

/-- **Writing regions changes nothing about what execution gets to**, apart from what is
added. -/
theorem live_regionsAt (hisa : isa.Blocks) : ∀ {places : List Nat} {f : Flattening}, f.Valid →
    f.regionsAt isa places = (f', .ok ()) → n < f.graph.size →
      (f'.Live isa n ↔ f.Live isa n) ∧ n < f'.graph.size
  | [], f, _, h, hn => by
    obtain ⟨rfl, -⟩ := Prod.mk.inj h
    exact ⟨Iff.rfl, hn⟩
  | i :: places, f, hf, h, hn => by
    obtain ⟨f₁, hrest, ⟨rfl, -⟩ | ⟨r, hr, hregion⟩⟩ := regionsAt_cons_eq_ok h
    · exact live_regionsAt hisa hf hrest hn
    obtain ⟨first, exit, moved, w⟩ := exists_written hf hisa hr hregion
    have hhandler : r.handler ∈ f.table.handlers :=
      RegionTable.mem_handlers.mpr ⟨r, List.mem_of_getElem? hr, rfl⟩
    obtain ⟨hiff, hlt⟩ := live_regionsAt hisa w.valid hrest (Nat.lt_trans hn w.size_lt)
    refine ⟨hiff.trans ⟨fun hlive => ?_, w.live_old hisa⟩, hlt⟩
    -- all that is added has a number of its own
    cases w.place hisa hhandler hlive with
    | opener => exact absurd hn (Nat.lt_irrefl _)
    | old hold => exact hold
    | exit hk => exact absurd hn (Nat.lt_asymm (w.exit_spec hk).1.1)
    | moved hk => exact absurd hn (Nat.lt_asymm (w.moved_spec hk).1.1)

end Flattening

/-! ### The unit -/

namespace CodeUnit

variable {u u' : CodeUnit} {n next m p : NodeId}

/-- The index that the unit holds, if it holds one, is that of its graph. -/
def UpToDate (u : CodeUnit) : Prop :=
  ∀ index, u.predecessors? = some index → index = .build u.isa u.graph u.roots

theorem indexed_snd (u : CodeUnit) :
    u.indexed.2 = { u with predecessors? := some u.indexed.1 } := by
  cases u with
  | mk isa graph entry pools header exceptions predecessors? => cases predecessors? <;> rfl

theorem UpToDate.indexed (h : u.UpToDate) : u.indexed.1 = .build u.isa u.graph u.roots := by
  rw [CodeUnit.indexed]
  cases hindex : u.predecessors? with
  | none => rfl
  | some index => exact h index hindex

/-- `u'` is `u` when the edges that `index` has under `n` were led on to `next`, and the entry
too if it is `n`. -/
structure Bypassed (u u' : CodeUnit) (index : PredecessorIndex) (n next : NodeId) : Prop where
  rest : u' = { u with
    graph := u'.graph
    entry := bypass n next u.entry
    predecessors? := none }
  size_eq : u'.graph.size = u.graph.size
  /-- Nodes keep all but their edges. -/
  node_eq : ∀ p, ∃ s b, u'.graph.node p = { u.graph.node p with successor := s, branch := b }
  target_eq : ∀ p < u.graph.size, ∀ e, (u'.graph.node p).target e =
    if (p, e) ∈ index.predecessors n then some next else (u.graph.node p).target e

/-- `u'` is `u` without `n`, where execution goes on at `next` instead. -/
structure Removed (u u' : CodeUnit) (n next : NodeId) : Prop where
  /-- The edges that led to `n` lead to `next`, and the others where they led. -/
  edges_eq : ∀ p, u.graph.Live u.isa u.roots p → u'.graph.edges u.isa p =
    (u.graph.edges u.isa p).map fun t => (bypass n next t.1, t.2)
  /-- What execution did not get to is as it was. -/
  node_eq : ∀ p, ¬ u.graph.Live u.isa u.roots p → u'.graph.node p = u.graph.node p
  live_of_live : ∀ p, u'.graph.Live u.isa u'.roots p → u.graph.Live u.isa u.roots p
  /-- Execution gets to all others as before, unless `n` also led elsewhere. -/
  live_kept : (∀ t ∈ u.graph.targets u.isa n, t = next) → ∀ p, p ≠ n →
    u.graph.Live u.isa u.roots p → u'.graph.Live u.isa u'.roots p
  /-- It gets to `n` in two cases only. -/
  live_self : u'.graph.Live u.isa u'.roots n ↔ n ∈ u.exceptions.handlers ∨ next = n
  /-- These are the cases in which `n` is still laid out. -/
  emitted : ∀ u'' object stats, u'.encode = (u'', .ok (object, stats)) →
    ∃ v a, Encoded u' u'' object stats v a ∧
      (n ∈ a.layout ↔ n ∈ u.exceptions.handlers ∨ next = n)

/-- What a removal gives, by where the instruction continues. -/
theorem remove_eq (u : CodeUnit) (n : NodeId) : u.remove n =
    match u.graph.continuation? u.isa n with
    | none => ({ u with predecessors? := some u.indexed.1 },
        .error (.danglingSuccessor (u.graph.node n).opcode (u.graph.node n).offset))
    | some next => ({ u with
        graph := u.graph.ledPast (u.indexed.1.predecessors n) next
        entry := bypass n next u.entry
        predecessors? := none }, .ok ()) := by
  have hindexed := indexed_snd u
  rw [remove]
  cases hi : u.indexed with
  | mk index v =>
    rw [hi] at hindexed
    simp only at hindexed
    subst hindexed
    simp only [Graph.remove]
    cases u.graph.continuation? u.isa n <;> rfl

theorem bypassed_remove (h : u.graph.continuation? u.isa n = some next) :
    Bypassed u (u.remove n).1 u.indexed.1 n next := by
  rw [remove_eq, h]
  exact ⟨rfl, Graph.size_ledPast, fun p => Graph.node_ledPast p next _ _,
    fun p hp e => Graph.target_ledPast hp⟩

section Removing

variable (hu : u.Valid) (hn : u.graph.Live u.isa u.roots n)
  (hnext : u.graph.continuation? u.isa n = some next)
include hu hnext

theorem valid_remove : (u.remove n).1.Valid := by
  have hlt : next < u.graph.size :=
    hu.closed.lt_of_mem_targets (Graph.mem_targets_of_continuation? hnext)
  have hsize : (u.graph.ledPast (u.indexed.1.predecessors n) next).size = u.graph.size :=
    Graph.size_ledPast
  rw [remove_eq, hnext]
  constructor
  case closed => exact Graph.closed_ledPast hu.closed hlt
  case entry_lt =>
    show bypass n next u.entry < _
    rw [hsize, bypass]
    split
    · exact hlt
    · exact hu.entry_lt
  case handler_lt => exact fun h hh => hsize ▸ hu.handler_lt h hh
  case member_lt => exact fun r hr hdeclared m hm => hsize ▸ hu.member_lt r hr hdeclared m hm

include hn in
theorem removed_remove (hisa : u.isa.BuiltIn) (hfresh : u.UpToDate) :
    Removed u (u.remove n).1 n next := by
  have hclosed : u.graph.Closed := hu.closed
  have hroots : ∀ r ∈ u.entry :: u.exceptions.handlers, r < u.graph.size := hu.roots_lt
  have htarget := Graph.mem_targets_of_continuation? hnext
  have hways : u.graph.AllInto u.isa (u.entry :: u.exceptions.handlers) n
      (u.indexed.1.predecessors n) := fun p e => by
    rw [hfresh.indexed]
    exact PredecessorIndex.mem_predecessors_build hclosed hroots
  have hself := Graph.live_ledPast_self hclosed hroots hways hn htarget
  have hvalid := valid_remove hu hnext
  rw [remove_eq, hnext] at hvalid ⊢
  constructor
  case edges_eq => exact fun p hp => Graph.edges_of_live hclosed hroots hways hp
  case node_eq =>
    exact fun p hp => Graph.node_ledPast_of_not_mem _ _ fun e he => hp ((hways p e).mp he).1
  case live_of_live =>
    exact fun p hp => (Graph.live_of_ledPast hclosed hroots hways hn htarget hp).1
  case live_kept =>
    intro honly p hne hp
    have hlive := Graph.live_bypass hclosed hroots hways hn htarget (Or.inr honly) hp
    rwa [bypass_of_ne hne] at hlive
  case live_self => exact hself
  case emitted =>
    intro u'' object stats hencode
    obtain ⟨v, a, e⟩ := exists_encoded hencode
    refine ⟨v, a, e, ?_⟩
    obtain ⟨f, hall, hv⟩ := flatten_eq_ok e.flattened
    obtain ⟨hlaid, -⟩ := e.emits hisa hvalid
    have hlt : n < (u.graph.ledPast (u.indexed.1.predecessors n) next).size := by
      rw [Graph.size_ledPast]
      exact hclosed.lt_of_live hroots hn
    obtain ⟨hiff, hlt'⟩ := Flattening.live_regionsAt hisa.blocks hvalid hall hlt
    rw [hlaid.mem_iff n (by rw [hv]; exact hlt'), hv, ← hself]
    exact hiff

end Removing

/-- **A removal that goes through leads all edges past the instruction, and one that does not
changes nothing.** It goes through if the instruction has a continuation. The edges that it leads
on are those of the index that the unit holds. If that is the index of the graph, execution no
longer gets to the instruction and it is not encoded, unless it is the first instruction of a
handler or continues at itself. -/
theorem remove_spec (hisa : u.isa.BuiltIn) (hu : u.Valid) (hn : u.graph.Live u.isa u.roots n) :
    (∀ next, u.graph.continuation? u.isa n = some next → (u.remove n).2 = .ok () ∧
      Bypassed u (u.remove n).1 u.indexed.1 n next ∧
        (u.UpToDate → Removed u (u.remove n).1 n next)) ∧
    (u.graph.continuation? u.isa n = none → u.remove n =
      ({ u with predecessors? := some u.indexed.1 },
        .error (.danglingSuccessor (u.graph.node n).opcode (u.graph.node n).offset))) := by
  refine ⟨fun next hnext => ⟨by rw [remove_eq, hnext], bypassed_remove hnext, fun hfresh =>
    removed_remove hu hn hnext hisa hfresh⟩, fun hnone => ?_⟩
  rw [remove_eq, hnone]

/-! ### A handler that begins with an instruction to remove -/

/-- A block whose handler does nothing and returns. -/
def guarded : CodeUnit where
  isa := .python38
  graph := ⟨#[{ opcode := ⟨122⟩, operand := .jump, successor := some 1, branch := some 2 },
    { opcode := ⟨83⟩ }, { opcode := ⟨9⟩, successor := some 3 }, { opcode := ⟨83⟩ }]⟩
  entry := 0
  pools := {}
  header := {}
  exceptions := ⟨[⟨some 0, 2, Std.HashSet.ofList [1]⟩]⟩

namespace guarded

theorem mem_handlers {h : NodeId} : h ∈ guarded.exceptions.handlers ↔ h = 2 := by
  simp [RegionTable.mem_handlers, guarded, eq_comm]

theorem valid : guarded.Valid where
  closed := by decide
  entry_lt := by decide
  handler_lt := fun h hh => by
    rw [mem_handlers.mp hh]
    decide
  member_lt := fun r hr hdeclared => by
    rw [List.mem_singleton.mp hr] at hdeclared
    cases hdeclared

theorem upToDate : guarded.UpToDate := fun _ h => nomatch h

theorem continuation_opener : guarded.graph.continuation? .python38 0 = some 1 := by
  rw [Graph.continuation?, Node.flags, InstructionSet.flags, InstructionSet.info_python38]
  decide +kernel

theorem continuation_handler : guarded.graph.continuation? .python38 2 = some 3 := by
  rw [Graph.continuation?, Node.flags, InstructionSet.flags, InstructionSet.info_python38]
  decide +kernel

end guarded

/-- The opener of the block goes, and the block begins the code. What it opened for stays. -/
theorem remove_spec_opener :
    (guarded.isa.BuiltIn ∧ guarded.Valid ∧
      guarded.graph.Live guarded.isa guarded.roots 0) ∧
    guarded.UpToDate ∧ (guarded.remove 0).2 = .ok () ∧ (guarded.remove 0).1.entry = 1 ∧
      ¬ (guarded.remove 0).1.graph.Live .python38 (guarded.remove 0).1.roots 0 := by
  have hisa : guarded.isa.BuiltIn := Or.inl rfl
  have hlive : guarded.graph.Live guarded.isa guarded.roots 0 := .root List.mem_cons_self
  obtain ⟨hok, -⟩ := remove_spec hisa guarded.valid hlive
  obtain ⟨hdone, hbypassed, hremoved⟩ := hok 1 guarded.continuation_opener
  refine ⟨⟨hisa, guarded.valid, hlive⟩, guarded.upToDate, hdone, ?_, fun hlive' => ?_⟩
  · rw [hbypassed.rest]
    rfl
  · rcases (hremoved guarded.upToDate).live_self.mp hlive' with hhandler | hself
    · exact absurd (guarded.mem_handlers.mp hhandler) (by decide)
    · exact absurd hself (by decide)

/-- **A handler keeps its first instruction.** The removal goes through, and execution still
gets there, because the region still has it as its handler. -/
theorem live_remove_handler :
    guarded.isa.BuiltIn ∧ guarded.Valid ∧ guarded.UpToDate ∧
      guarded.graph.Live .python38 guarded.roots 2 ∧ (guarded.remove 2).2 = .ok () ∧
      (guarded.remove 2).1.graph.Live .python38 (guarded.remove 2).1.roots 2 := by
  have hroot : ∀ entry, (2 : NodeId) ∈ entry :: guarded.exceptions.handlers := fun _ =>
    List.mem_cons_of_mem _ (guarded.mem_handlers.mpr rfl)
  have hcontinues : guarded.graph.continuation? guarded.isa 2 = some 3 :=
    guarded.continuation_handler
  refine ⟨Or.inl rfl, guarded.valid, guarded.upToDate, .root (hroot _), ?_, ?_⟩
  · rw [remove_eq, hcontinues]
  · rw [remove_eq, hcontinues]
    exact .root (hroot _)

end CodeUnit

end Wordcode
