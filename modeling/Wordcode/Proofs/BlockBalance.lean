/-
# Writing a region balances the block stack

Every instruction gets a depth, the number of blocks that are open when execution comes
to it (`Flattening.Balanced`): along each edge the depth changes as the instruction
opens or closes a block, an exit always has a block to close, and a return none. Where
nothing opens or closes a block all depths are zero. Writing a region puts one block
around its members, so that their depth grows by one (`Flattening.depthAfter`); that
every step afterwards fits these depths is gone through once, kind by kind, for any
depths before.

Key definitions: `Flags.blocks`, `Graph.countBlocks`, `Flattening.Balanced`,
`Flattening.depthAfter`.
Key theorems: `Flattening.Balanced.count`, `Flattening.Written.balanced`,
`Flattening.count_blocks_all`.
-/
import Wordcode.Proofs.Writing

namespace Wordcode

/-- How many blocks an instruction opens, less those it closes, when it is left by an
edge: an opener that goes on opens one, and an exit closes one. -/
def Flags.blocks (flags : Flags) (e : Edge) : Int :=
  (if flags.handlerSetup = true ∧ e = .fallthrough then 1 else 0) -
    if flags.blockExit = true then 1 else 0

/-- The steps of a run that counts the open blocks. -/
def Graph.countBlocks (isa : InstructionSet) (g : Graph) (s : NodeId × Int) : List (NodeId × Int) :=
  (g.edges isa s.1).map fun t => (t.1, s.2 + ((g.node s.1).flags isa).blocks t.2)

namespace InstructionSet.Blocks

variable {isa : InstructionSet} (hisa : isa.Blocks)
include hisa

theorem blocks_setup_fallthrough : (isa.flags isa.handlerSetup).blocks .fallthrough = 1 := by
  obtain ⟨-, -, hsetup, hexit, -⟩ := hisa.setup
  simp [Flags.blocks, hsetup, hexit]

theorem blocks_setup_branch : (isa.flags isa.handlerSetup).blocks .branch = 0 := by
  obtain ⟨-, -, -, hexit, -⟩ := hisa.setup
  simp [Flags.blocks, hexit]

theorem blocks_exit (e : Edge) : (isa.flags isa.blockExit).blocks e = -1 := by
  obtain ⟨-, -, hsetup, hexit, -⟩ := hisa.exit
  simp [Flags.blocks, hsetup, hexit]

end InstructionSet.Blocks

namespace Flattening

/-- When execution comes to `n`, `depth n` blocks are open. -/
structure Balanced (isa : InstructionSet) (f : Flattening) (depth : NodeId → Int) : Prop where
  entry : depth f.entry = 0
  edge : ∀ {p n e}, f.Live isa p → (n, e) ∈ f.graph.edges isa p →
    depth n = depth p + ((f.graph.node p).flags isa).blocks e
  nonneg : ∀ {n}, f.Live isa n → 0 ≤ depth n
  exit : ∀ {n}, f.Live isa n → ((f.graph.node n).flags isa).blockExit = true → 1 ≤ depth n
  returns : ∀ {n}, f.Live isa n → ((f.graph.node n).flags isa).returns = true → depth n = 0

variable {isa : InstructionSet} {f f' : Flattening} {r : Region} {i : Nat} {first n m : NodeId}
  {e : Edge} {depth : NodeId → Int} {exit moved : NodeId → NodeId → Prop}

/-- A run counts as many open blocks as the depth says. -/
theorem Balanced.count (hb : Balanced isa f depth) {s : NodeId × Int}
    (h : Reach (f.graph.countBlocks isa) [(f.entry, 0)] s) :
    f.Live isa s.1 ∧ s.2 = depth s.1 := by
  refine Reach.induct (Q := fun s => f.Live isa s.1 ∧ s.2 = depth s.1) (fun s hs => ?_)
    (fun s t hs ht => ?_) h
  · obtain rfl := List.mem_singleton.mp hs
    exact ⟨.root List.mem_cons_self, hb.entry.symm⟩
  · obtain ⟨⟨n, e⟩, hedge, rfl⟩ := List.mem_map.mp ht
    exact ⟨hs.1.step hedge, by rw [hb.edge hs.1 hedge, hs.2]⟩

variable (isa f) in
/-- No instruction that execution can get to opens or closes a block. -/
def Plain : Prop := ∀ n, f.Live isa n →
  ((f.graph.node n).flags isa).handlerSetup = false ∧
    ((f.graph.node n).flags isa).blockExit = false

theorem Plain.balanced (h : f.Plain isa) : Balanced isa f fun _ => 0 where
  entry := rfl
  edge := fun hl _ => by
    obtain ⟨hsetup, hexit⟩ := h _ hl
    simp [Flags.blocks, hsetup, hexit]
  nonneg := fun _ => Int.le_refl 0
  exit := fun hl hexit => by
    rw [(h _ hl).2] at hexit
    cases hexit
  returns := fun _ _ => rfl

/-! ### One region -/

variable (isa f r first f' depth) in
/-- The depths after a region was written: one more at the members; an exit is one block
deeper than the target it leads to. -/
def depthAfter (n : NodeId) : Int :=
  if n < f.graph.size then depth n + if n ∈ r.members then 1 else 0
  else if n = f.graph.size then depth first
  else if ((f'.graph.node n).flags isa).returns then 0
  else depth ((f'.graph.node n).successor.getD n) + 1

theorem depthAfter_of_mem (hn : n < f.graph.size) (hm : n ∈ r.members) :
    depthAfter isa f f' r first depth n = depth n + 1 := by
  rw [depthAfter, if_pos hn, if_pos hm]

theorem depthAfter_of_not_mem (hn : n < f.graph.size) (hm : n ∉ r.members) :
    depthAfter isa f f' r first depth n = depth n := by
  rw [depthAfter, if_pos hn, if_neg hm, Int.add_zero]

theorem depthAfter_opener : depthAfter isa f f' r first depth f.graph.size = depth first := by
  rw [depthAfter, if_neg (Nat.lt_irrefl _), if_pos rfl]

namespace Written

variable (hisa : isa.Blocks) (w : Written isa f i r first exit moved f')
include hisa w

theorem depthAfter_exit {k : NodeId} (h : exit m k) :
    depthAfter isa f f' r first depth k = depth m + 1 := by
  obtain ⟨⟨hlt, -⟩, hexit, -⟩ := w.exit_spec h
  have hreturns : ((f'.graph.node k).flags isa).returns = false := by
    rw [Node.flags, hexit.opcode]
    exact hisa.exit.2.2.2.2
  rw [depthAfter, if_neg (Nat.not_lt.mpr (Nat.le_of_lt hlt)), if_neg (Nat.ne_of_gt hlt), hreturns,
    hexit.successor]
  rfl

omit hisa in
theorem depthAfter_moved {k : NodeId} (h : moved n k) :
    depthAfter isa f f' r first depth k = 0 := by
  obtain ⟨⟨hlt, -⟩, ⟨-, -, hreturns⟩, -, hopcode⟩ := w.moved_spec h
  have hreturns' : ((f'.graph.node k).flags isa).returns = true := by
    rw [Node.flags, hopcode]
    exact hreturns
  rw [depthAfter, if_neg (Nat.not_lt.mpr (Nat.le_of_lt hlt)), if_neg (Nat.ne_of_gt hlt),
    if_pos hreturns']

theorem flags_of_edge {p : NodeId} (hl : f.Live isa p) (hedge : (m, e) ∈ f.graph.edges isa p) :
    (f'.graph.node p).flags isa = (f.graph.node p).flags isa := by
  have hreturns := returns_eq_false hisa hedge
  have hnot : ¬ (p ∈ r.members ∧ ((f.graph.node p).flags isa).returns = true) := fun h => by
    rw [hreturns] at h
    exact Bool.false_ne_true h.2
  rw [Node.flags, w.opcode_eq hl hnot, Node.flags]

theorem setup_of_edge (hr : r.handler ∈ f.table.handlers) {p : NodeId} (hl : f'.Live isa p)
    (hedge : (n, e) ∈ f'.graph.edges isa p)
    (hsetup : ((f'.graph.node p).flags isa).handlerSetup = true) :
    p = f.graph.size ∨ f.Live isa p ∧ (∃ m, (m, e) ∈ f.graph.edges isa p) ∧
      ((f.graph.node p).flags isa).handlerSetup = true := by
  have hold : ∀ {m}, f.Live isa p → (m, e) ∈ f.graph.edges isa p → f.Live isa p ∧
      (∃ m, (m, e) ∈ f.graph.edges isa p) ∧ ((f.graph.node p).flags isa).handlerSetup = true :=
    fun hl hedge => ⟨hl, ⟨_, hedge⟩, w.flags_of_edge hisa hl hedge ▸ hsetup⟩
  -- an exit opens nothing
  have hexit : ∀ {k m}, IsExit isa (f'.graph.node k) m →
      ((f'.graph.node k).flags isa).handlerSetup = false := fun h => by
    rw [Node.flags, h.opcode]
    exact hisa.exit.2.2.1
  cases w.leads hisa hr hl hedge with
  | opened => exact Or.inl rfl
  | handled => exact Or.inl rfl
  | entering hl _ hedge => exact Or.inr (hold hl hedge)
  | outside hl _ hedge _ => exact Or.inr (hold hl hedge)
  | inside hl _ hedge _ => exact Or.inr (hold hl hedge)
  | leaving hexiting _ => exact Or.inr (hold hexiting.live hexiting.edge)
  | exit hk =>
    rw [hexit (w.exit_spec hk).2.1] at hsetup
    cases hsetup
  | returned hk =>
    rw [hexit (w.moved_spec hk).2.2.1] at hsetup
    cases hsetup

omit hisa in
theorem not_mem_of_outside {p : NodeId} (hl : f.Live isa p) (hm : p ∉ r.members)
    (hedge : (m, e) ∈ f.graph.edges isa p) (hne : m ≠ first) : m ∉ r.members := fun hmem =>
  hne ((w.entered_iff m).mp ⟨hl.step hedge, hmem, Or.inr ⟨p, e, hl, hm, hedge⟩⟩)

section

variable (hf : f.Valid) (hr : r.handler ∈ f.table.handlers) (hb : Balanced isa f depth)
  (hhandler : r.handler ∉ r.members) (hdepth : depth r.handler = depth first)
  (hsetups : ∀ {p b}, f.Live isa p → p ∈ r.members → (b, .branch) ∈ f.graph.edges isa p →
    ((f.graph.node p).flags isa).handlerSetup = true → b ∈ r.members)
include hf hr hb hhandler hdepth hsetups

/-- Each step afterwards changes the depth as it should. -/
theorem depthAfter_edge {p : NodeId} (hl : f'.Live isa p) (hedge : (n, e) ∈ f'.graph.edges isa p) :
    depthAfter isa f f' r first depth n =
      depthAfter isa f f' r first depth p + ((f'.graph.node p).flags isa).blocks e := by
  obtain ⟨hfirst, hfirstmem, -⟩ := (w.entered_iff first).mpr rfl
  cases w.leads hisa hr hl hedge with
  | opened =>
    rw [depthAfter_of_mem (hf.lt_of_live hfirst) hfirstmem, depthAfter_opener, Node.flags, w.opener,
      hisa.blocks_setup_fallthrough]
  | handled =>
    rw [depthAfter_of_not_mem (hf.handler_lt _ hr) hhandler, depthAfter_opener, Node.flags, w.opener,
      hisa.blocks_setup_branch, hdepth, Int.add_zero]
  | entering hl hm hedge =>
    rw [depthAfter_opener, depthAfter_of_not_mem (hf.lt_of_live hl) hm, w.flags_of_edge hisa hl hedge]
    exact hb.edge hl hedge
  | outside hl hm hedge hne =>
    have hn := w.not_mem_of_outside hl hm hedge hne
    rw [depthAfter_of_not_mem (hf.lt_of_live (hl.step hedge)) hn,
      depthAfter_of_not_mem (hf.lt_of_live hl) hm, w.flags_of_edge hisa hl hedge]
    exact hb.edge hl hedge
  | inside hl hm hedge hnot =>
    have hn : n ∈ r.members := by
      by_contra hn
      have hcounts : e = .branch ∧ ((f.graph.node p).flags isa).handlerSetup = true := by
        by_contra hcounts
        exact hnot ⟨hl, hm, hedge, hn, hcounts⟩
      obtain ⟨rfl, hsetup⟩ := hcounts
      exact hn (hsetups hl hm hedge hsetup)
    rw [depthAfter_of_mem (hf.lt_of_live (hl.step hedge)) hn,
      depthAfter_of_mem (hf.lt_of_live hl) hm, w.flags_of_edge hisa hl hedge, hb.edge hl hedge]
    omega
  | leaving hexiting hk =>
    obtain ⟨hl, hm, hedge, -, -⟩ := hexiting
    rw [w.depthAfter_exit hisa hk, depthAfter_of_mem (hf.lt_of_live hl) hm,
      w.flags_of_edge hisa hl hedge, hb.edge hl hedge]
    omega
  | exit hk =>
    obtain ⟨-, hexit, q, e', hexiting⟩ := w.exit_spec hk
    have hn := hf.lt_of_live (hexiting.live.step hexiting.edge)
    rw [w.depthAfter_exit hisa hk, depthAfter_of_not_mem hn hexiting.outside, Node.flags,
      hexit.opcode, hisa.blocks_exit]
    omega
  | returned hk =>
    obtain ⟨-, ⟨hl, hm, hreturns⟩, hexit, -⟩ := w.moved_spec hk
    rw [w.depthAfter_moved hk, depthAfter_of_mem (hf.lt_of_live hl) hm, hb.returns hl hreturns,
      Node.flags, hexit.opcode, hisa.blocks_exit]
    rfl

/-- **Writing a region keeps everything balanced**, with one more block around its
members. -/
theorem balanced : Balanced isa f' (depthAfter isa f f' r first depth) := by
  have hfirst := ((w.entered_iff first).mpr rfl).live
  have htarget : ∀ {m k}, exit m k → 0 ≤ depth m := fun hk => by
    obtain ⟨-, -, q, e', hexiting⟩ := w.exit_spec hk
    exact hb.nonneg (hexiting.live.step hexiting.edge)
  constructor
  case entry =>
    rw [w.entry_eq]
    split
    · case _ heq =>
      rw [depthAfter_opener, heq]
      exact hb.entry
    · case _ hne =>
      have hout : f.entry ∉ r.members := fun hmem =>
        hne ((w.entered_iff _).mp ⟨.root List.mem_cons_self, hmem, Or.inl rfl⟩).symm
      rw [depthAfter_of_not_mem hf.entry_lt hout]
      exact hb.entry
  case edge => exact w.depthAfter_edge hisa hf hr hb hhandler hdepth hsetups
  case nonneg =>
    intro n hl
    cases w.place hisa hr hl with
    | opener =>
      rw [depthAfter_opener]
      exact hb.nonneg hfirst
    | old hl =>
      have hle := hb.nonneg hl
      rw [depthAfter, if_pos (hf.lt_of_live hl)]
      split <;> omega
    | exit hk =>
      have hle := htarget hk
      rw [w.depthAfter_exit hisa hk]
      omega
    | moved hk => exact Int.le_of_eq (w.depthAfter_moved hk).symm
  case exit =>
    intro n hl hexit
    cases w.place hisa hr hl with
    | opener =>
      rw [Node.flags, w.opener, hisa.setup.2.2.2.1] at hexit
      cases hexit
    | old hl =>
      have hn := hf.lt_of_live hl
      have hle := hb.nonneg hl
      by_cases hmem : n ∈ r.members
      · rw [depthAfter_of_mem hn hmem]
        omega
      · rw [Node.flags, w.opcode_eq hl fun h => hmem h.1] at hexit
        rw [depthAfter_of_not_mem hn hmem]
        exact hb.exit hl hexit
    | exit hk =>
      have hle := htarget hk
      rw [w.depthAfter_exit hisa hk]
      omega
    | moved hk =>
      -- a return that is an exit besides would have a block to close and none
      obtain ⟨-, ⟨hl, -, hreturns⟩, -, hopcode⟩ := w.moved_spec hk
      rw [Node.flags, hopcode] at hexit
      have hone := hb.exit hl hexit
      rw [hb.returns hl hreturns] at hone
      omega
  case returns =>
    intro n hl hreturns
    cases w.place hisa hr hl with
    | opener =>
      rw [Node.flags, w.opener, hisa.setup.2.2.2.2] at hreturns
      cases hreturns
    | old hl =>
      by_cases hreturned : n ∈ r.members ∧ ((f.graph.node n).flags isa).returns = true
      · obtain ⟨k, hk⟩ := w.exists_moved hl hreturned.1 hreturned.2
        obtain ⟨-, -, hexit, -⟩ := w.moved_spec hk
        rw [Node.flags, hexit.opcode, hisa.exit.2.2.2.2] at hreturns
        cases hreturns
      · rw [Node.flags, w.opcode_eq hl hreturned] at hreturns
        rw [depthAfter_of_not_mem (hf.lt_of_live hl) fun hmem => hreturned ⟨hmem, hreturns⟩]
        exact hb.returns hl hreturns
    | exit hk =>
      obtain ⟨-, hexit, -⟩ := w.exit_spec hk
      rw [Node.flags, hexit.opcode, hisa.exit.2.2.2.2] at hreturns
      cases hreturns
    | moved hk => exact w.depthAfter_moved hk

end

end Written

/-! ### A table with one region -/

theorem all_singleton (hregions : f.table.regions = [r]) (hdeclared : r.setup = none) :
    f.all isa = match f.region isa 0 r with
      | .ok f' => (f', .ok ())
      | .error e => (f, .error e) := by
  rw [all, hregions]
  show f.regionsAt isa [0] = _
  rw [regionsAt, hregions]
  simp only [List.getElem?_cons_zero, hdeclared, Option.isSome_none, Bool.false_eq_true, if_false]
  cases f.region isa 0 r <;> rfl

theorem region_of_all (hregions : f.table.regions = [r]) (hdeclared : r.setup = none)
    (hall : f.all isa = (f', .ok ())) : f.region isa 0 r = .ok f' := by
  rw [all_singleton hregions hdeclared] at hall
  split at hall
  · case _ hok =>
    rw [hok, (Prod.mk.inj hall).1]
  · cases (Prod.mk.inj hall).2

/-- **Writing one region balances the block stack.** If nothing opened or closed a block
before, a run from the new entry that counts the open blocks has one open at the members
of the region and none at the other instructions that were there; where an exit runs one
is open at least, and where the code returns none is. -/
theorem count_blocks_all (hisa : isa.BuiltIn) (hf : f.Valid) (hregions : f.table.regions = [r])
    (hdeclared : r.setup = none) (hhandler : r.handler ∉ r.members) (hplain : f.Plain isa)
    (hall : f.all isa = (f', .ok ())) {n : NodeId} {count : Int}
    (hrun : Reach (f'.graph.countBlocks isa) [(f'.entry, 0)] (n, count)) :
    (n ∈ r.members → count = 1) ∧
      (n < f.graph.size → n ∉ r.members → count = 0) ∧
      (((f'.graph.node n).flags isa).blockExit = true → 1 ≤ count) ∧
      (((f'.graph.node n).flags isa).returns = true → count = 0) := by
  have hmem : r ∈ f.table.regions := hregions ▸ List.mem_singleton_self r
  have hr : r.handler ∈ f.table.handlers := RegionTable.mem_handlers.mpr ⟨r, hmem, rfl⟩
  have hregion := region_of_all hregions hdeclared hall
  have hplace : f.table.regions[0]? = some r := by rw [hregions]; rfl
  obtain ⟨first, exit, moved, w⟩ := exists_written hf hisa.blocks hplace hregion
  have hsetups : ∀ {p b}, f.Live isa p → p ∈ r.members → (b, Edge.branch) ∈ f.graph.edges isa p →
      ((f.graph.node p).flags isa).handlerSetup = true → b ∈ r.members := fun hl _ _ hsetup => by
    rw [(hplain _ hl).1] at hsetup
    cases hsetup
  have hb := w.balanced hisa.blocks hf hr hplain.balanced hhandler rfl hsetups
  obtain ⟨hlive, hcount⟩ := hb.count hrun
  simp only at hlive hcount
  refine ⟨fun hn => ?_, fun hlt hn => ?_, fun hexit => ?_, fun hreturns => ?_⟩
  · rw [hcount, depthAfter_of_mem (hf.member_lt r hmem hdeclared n hn) hn]
    rfl
  · rw [hcount, depthAfter_of_not_mem hlt hn]
  · rw [hcount]
    exact hb.exit hlive hexit
  · rw [hcount]
    exact hb.returns hlive hreturns

/-- A loop at the start of the code is protected: the member the code began with has one
open block, and is got to. -/
theorem count_blocks_all_loop :
    let g : Graph := ⟨#[{ opcode := ⟨100⟩, operand := .constant .none, successor := some 1 },
      { opcode := ⟨114⟩, operand := .jump, successor := some 2, branch := some 0 },
      { opcode := ⟨83⟩ }, { opcode := ⟨83⟩ }]⟩
    let r : Region := ⟨none, 3, Std.HashSet.ofList [0, 1]⟩
    let f : Flattening := ⟨g, 0, ⟨[r]⟩⟩
    (f.Valid ∧ r.handler ∉ r.members ∧ f.Plain .python38) ∧
      ∃ f', f.all .python38 = (f', .ok ()) ∧
        Reach (f'.graph.countBlocks .python38) [(f'.entry, 0)] (0, 1) ∧
        ∀ count, Reach (f'.graph.countBlocks .python38) [(f'.entry, 0)] (0, count) → count = 1 := by
  intro g r f
  have hmem : ∀ n, n ∈ r.members ↔ n = 0 ∨ n = 1 := fun n => by
    rw [Std.HashSet.mem_ofList, List.contains_iff_mem, List.mem_pair]
  have hisa : InstructionSet.python38.BuiltIn := Or.inl rfl
  have hhandler : r.handler ∉ r.members := fun h => by
    rcases (hmem _).mp h with h | h <;> cases h
  have hf : f.Valid := by
    refine ⟨by decide, by decide, fun h hh => ?_, fun r' hr' _ n hn => ?_⟩
    · obtain ⟨r', hr', rfl⟩ := RegionTable.mem_handlers.mp hh
      obtain rfl := List.mem_singleton.mp hr'
      decide
    · obtain rfl := List.mem_singleton.mp hr'
      rcases (hmem n).mp hn with rfl | rfl <;> decide
  have hflags : ∀ n < 4, ((g.node n).flags .python38).handlerSetup = false ∧
      ((g.node n).flags .python38).blockExit = false ∧
      (((g.node n).flags .python38).returns = true ∨ n = 0 ∨ n = 1) := by
    simp only [Node.flags, InstructionSet.flags, InstructionSet.info_python38]
    decide +kernel
  have hplain : f.Plain .python38 := fun n hl =>
    ⟨(hflags n (hf.lt_of_live hl)).1, (hflags n (hf.lt_of_live hl)).2.1⟩
  -- behind the members there are returns, which lead nowhere
  have hentered : ∀ n, f.Entered .python38 r.members n ↔ n = 0 := by
    intro n
    constructor
    · rintro ⟨-, -, rfl | ⟨p, e, hp, hout, hedge⟩⟩
      · rfl
      · rcases (hflags p (hf.lt_of_live hp)).2.2 with hreturns | hin
        · rw [returns_eq_false hisa.blocks hedge] at hreturns
          cases hreturns
        · exact absurd ((hmem p).mpr hin) hout
    · rintro rfl
      exact ⟨.root List.mem_cons_self, (hmem 0).mpr (Or.inl rfl), Or.inl rfl⟩
  have hregion : f.region .python38 0 r = .ok (f.written .python38 0 r 0) :=
    (region_eq_ok_iff hf).mpr ⟨0, hentered, rfl⟩
  have hall : f.all .python38 = (f.written .python38 0 r 0, .ok ()) := by
    rw [all_singleton rfl rfl, hregion]
  refine ⟨⟨hf, hhandler, hplain⟩, _, hall, ?_, fun count hrun => ?_⟩
  · obtain ⟨first, exit, moved, w⟩ := exists_written hf hisa.blocks rfl hregion
    obtain rfl : first = 0 := (hentered first).mp ((w.entered_iff first).mpr rfl)
    have hentry : (f.written .python38 0 r 0).entry = 4 := w.entry_eq
    rw [hentry]
    refine Reach.step (.root List.mem_cons_self) (List.mem_map.mpr ⟨(0, .fallthrough), ?_, ?_⟩)
    · exact w.opener_edges.mpr (Or.inl ⟨rfl, rfl⟩)
    · have hopener : ((f.written .python38 0 r 0).graph.node 4).opcode =
          InstructionSet.python38.handlerSetup := w.opener
      rw [Node.flags, hopener, hisa.blocks.blocks_setup_fallthrough]
      rfl
  · exact (count_blocks_all hisa hf rfl rfl hhandler hplain hall hrun).1 ((hmem 0).mpr (Or.inl rfl))

end Flattening

end Wordcode
