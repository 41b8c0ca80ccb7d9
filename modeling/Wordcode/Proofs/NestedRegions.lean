/-
# Writing a region and one inside it

Two declared regions, one inside the other, are written one after the other. The second
is written into what the first left behind, so everything turns on how the second is
entered then. With the inner one first, its opener belongs to the outer region only if
an edge from the rest of the outer region leads to it; if it does not, the outer region
is entered by the first inner member and by the inner handler, and refused. With the
outer one first, an exit that members of both the inner region and the rest of the outer
one share belongs to the inner region, which is then entered by it too, and refused.
Apart from these two cases both are written, and the blocks that are open at an
instruction are those of the regions it is in, the inner one on top.

Key definitions: `Graph.stackBlocks`, `Flattening.Nested`, `Flattening.SharedExit`.
Key theorems: `Flattening.Balanced.stack`, `Flattening.Nested.entered_inner_first`,
`Flattening.Nested.entered_outer_first`, `Flattening.nested_all`.
-/
import Wordcode.Proofs.BlockBalance

namespace Wordcode

/-! ### The stack of open blocks -/

/-- The handlers of the open blocks, the innermost first, when `n` is left by an edge: an
opener that goes on puts its branch target on top, and an exit takes the top off. -/
def Graph.handlersAfter (isa : InstructionSet) (g : Graph) (n : NodeId) (e : Edge)
    (stack : List NodeId) : List NodeId :=
  let flags := (g.node n).flags isa
  let opened := if flags.handlerSetup = true ∧ e = .fallthrough
    then (g.branch? isa n).toList ++ stack else stack
  if flags.blockExit then opened.tail else opened

/-- The steps of a run that keeps the handlers of the open blocks. -/
def Graph.stackBlocks (isa : InstructionSet) (g : Graph) (s : NodeId × List NodeId) :
    List (NodeId × List NodeId) :=
  (g.edges isa s.1).map fun t => (t.1, g.handlersAfter isa s.1 t.2 s.2)

namespace Flattening

variable {isa : InstructionSet} {f f' : Flattening} {r inner outer : Region} {i : Nat}
  {first n m : NodeId} {e : Edge} {depth : NodeId → Int} {exit moved : NodeId → NodeId → Prop}

theorem tail_reverse_take {α : Type} {l : List α} {k : Nat} (h : k + 1 ≤ l.length) :
    (l.take (k + 1)).reverse.tail = (l.take k).reverse := by
  rw [List.tail_reverse, List.dropLast_eq_take, List.length_take, Nat.min_eq_left h, List.take_take,
    Nat.add_sub_cancel, Nat.min_eq_left (Nat.le_succ k)]

theorem reverse_take_succ {α : Type} {l : List α} {k : Nat} {a : α} (h : l[k]? = some a) :
    (l.take (k + 1)).reverse = a :: (l.take k).reverse := by
  rw [List.take_add_one, h, Option.toList_some, List.reverse_append, List.reverse_singleton]
  rfl

/-- **The stack is read off the depth**: if every opener opens the block of the handler that
is listed under its depth, a run has open the blocks of as many handlers as the depth
says. -/
theorem Balanced.stack (hb : Balanced isa f depth) (handlers : List NodeId)
    (hopen : ∀ {p n}, f.Live isa p → (n, .fallthrough) ∈ f.graph.edges isa p →
      ((f.graph.node p).flags isa).handlerSetup = true →
        ∃ h, handlers[(depth p).toNat]? = some h ∧ f.graph.branch? isa p = some h)
    {s : NodeId × List NodeId} (h : Reach (f.graph.stackBlocks isa) [(f.entry, [])] s) :
    f.Live isa s.1 ∧ (depth s.1).toNat ≤ handlers.length ∧
      s.2 = (handlers.take (depth s.1).toNat).reverse := by
  refine Reach.induct (Q := fun s => f.Live isa s.1 ∧ (depth s.1).toNat ≤ handlers.length ∧
    s.2 = (handlers.take (depth s.1).toNat).reverse) (fun s hs => ?_) (fun s t hs ht => ?_) h
  · obtain rfl := List.mem_singleton.mp hs
    rw [hb.entry]
    exact ⟨.root List.mem_cons_self, Nat.zero_le _, rfl⟩
  obtain ⟨p, stack⟩ := s
  obtain ⟨hl, hle, hstack⟩ := hs
  obtain ⟨⟨n, e⟩, hedge, rfl⟩ := List.mem_map.mp ht
  simp only at hl hle hstack hedge ⊢
  have hdepth := hb.edge hl hedge
  have hnonneg := hb.nonneg hl
  -- the stack and the depth when the instruction has opened its block and closed none yet
  obtain ⟨k, hk, hkle, hopened⟩ : ∃ k : Nat, (k : Int) = depth p +
      (if ((f.graph.node p).flags isa).handlerSetup = true ∧ e = .fallthrough then 1 else 0) ∧
      k ≤ handlers.length ∧
      (if ((f.graph.node p).flags isa).handlerSetup = true ∧ e = .fallthrough
        then (f.graph.branch? isa p).toList ++ stack else stack) = (handlers.take k).reverse := by
    by_cases hsetup : ((f.graph.node p).flags isa).handlerSetup = true ∧ e = .fallthrough
    · obtain ⟨hsetup', rfl⟩ := hsetup
      obtain ⟨h, hh, hbranch⟩ := hopen hl hedge hsetup'
      have hlt : (depth p).toNat < handlers.length := (List.getElem?_eq_some_iff.mp hh).1
      refine ⟨(depth p).toNat + 1, ?_, hlt, ?_⟩
      · rw [if_pos ⟨hsetup', rfl⟩]
        omega
      · rw [if_pos ⟨hsetup', rfl⟩, hbranch, reverse_take_succ hh, hstack]
        rfl
    · refine ⟨(depth p).toNat, ?_, hle, ?_⟩
      · rw [if_neg hsetup]
        omega
      · rw [if_neg hsetup, hstack]
  refine ⟨hl.step hedge, ?_⟩
  rw [Flags.blocks] at hdepth
  simp only [Graph.handlersAfter, hopened]
  cases hexit : ((f.graph.node p).flags isa).blockExit with
  | false =>
    have hn : (depth n).toNat = k := by
      simp only [hexit, Bool.false_eq_true, if_false] at hdepth
      omega
    rw [hn]
    exact ⟨hkle, rfl⟩
  | true =>
    have hone := hb.exit hl hexit
    have hn : k = (depth n).toNat + 1 := by
      simp only [hexit, if_true] at hdepth
      split at hdepth
      · case _ hsetup => rw [if_pos hsetup] at hk; omega
      · case _ hsetup => rw [if_neg hsetup] at hk; omega
    rw [hn] at hkle
    refine ⟨Nat.le_of_succ_le hkle, ?_⟩
    simp only [if_true, hn]
    exact tail_reverse_take hkle

/-! ### Two regions -/

/-- The declared region `inner` lies inside the declared region `outer` and has its handler
in the rest of it. Each is entered by one instruction. -/
structure Nested (isa : InstructionSet) (f : Flattening) (inner outer : Region) : Prop where
  valid : f.Valid
  plain : f.Plain isa
  mem_regions : ∀ r, r ∈ f.table.regions ↔ r = inner ∨ r = outer
  inner_declared : inner.setup = none
  outer_declared : outer.setup = none
  subset : ∀ {n}, n ∈ inner.members → n ∈ outer.members
  handler_mem : inner.handler ∈ outer.members
  handler_not_mem : inner.handler ∉ inner.members
  outer_handler_not_mem : outer.handler ∉ outer.members
  inner_entered : ∃ x, ∀ n, f.Entered isa inner.members n ↔ n = x
  outer_entered : ∃ y, ∀ n, f.Entered isa outer.members n ↔ n = y

theorem AddedTo.le {members : NodeSet} (w : Written isa f i r first exit moved f')
    (h : AddedTo isa f r first exit moved members n) : f.graph.size ≤ n := by
  cases h with
  | opener => exact Nat.le_refl _
  | exit _ _ hk => exact Nat.le_of_lt (w.exit_spec hk).1.1
  | moved _ hk => exact Nat.le_of_lt (w.moved_spec hk).1.1

theorem mem_grown_old {members members' : NodeSet} (w : Written isa f i r first exit moved f')
    (hmem : ∀ n, n ∈ members' ↔ n ∈ members ∨ AddedTo isa f r first exit moved members n)
    (hn : n < f.graph.size) : n ∈ members' ↔ n ∈ members := by
  rw [hmem]
  exact or_iff_left fun h => Nat.lt_irrefl _ (Nat.lt_of_le_of_lt (h.le w) hn)

variable (isa f inner outer) in
/-- An edge of the inner region and one of the rest of the outer region both leave the outer
region for `m`. -/
def SharedExit (m : NodeId) : Prop :=
  (∃ p e, f.Exiting isa outer.members p m e ∧ p ∈ inner.members) ∧
    ∃ q e, f.Exiting isa outer.members q m e ∧ q ∉ inner.members

namespace Nested

variable (h : Nested isa f inner outer)
include h

theorem inner_mem : inner ∈ f.table.regions := (h.mem_regions inner).mpr (Or.inl rfl)

theorem outer_mem : outer ∈ f.table.regions := (h.mem_regions outer).mpr (Or.inr rfl)

theorem inner_handler : inner.handler ∈ f.table.handlers :=
  RegionTable.mem_handlers.mpr ⟨inner, h.inner_mem, rfl⟩

theorem outer_handler : outer.handler ∈ f.table.handlers :=
  RegionTable.mem_handlers.mpr ⟨outer, h.outer_mem, rfl⟩

theorem lt_of_mem (hn : n ∈ outer.members) : n < f.graph.size :=
  h.valid.member_lt outer h.outer_mem h.outer_declared n hn

theorem entered_inner (hn : n ∈ inner.members) (hin : f.Entered isa outer.members n) :
    f.Entered isa inner.members n :=
  ⟨hin.live, hn, hin.way_in.imp_right fun ⟨p, e, hp, hout, hedge⟩ =>
    ⟨p, e, hp, fun hmem => hout (h.subset hmem), hedge⟩⟩

/-! ### The inner region first -/

section InnerFirst

variable {x y : NodeId} {members : NodeSet} (hisa : isa.Blocks)
  (w : Written isa f i inner x exit moved f')
  (hy : ∀ n, f.Entered isa outer.members n ↔ n = y)
  (hmem : ∀ n, n ∈ members ↔
    n ∈ outer.members ∨ AddedTo isa f inner x exit moved outer.members n)
include w hmem

omit hisa hy in
theorem opener_mem_iff : f.graph.size ∈ members ↔ ∃ p m e, f.Live isa p ∧ p ∈ outer.members ∧
    p ∉ inner.members ∧ (m, e) ∈ f.graph.edges isa p ∧ m ∈ inner.members := by
  have hx := (w.entered_iff x).mpr rfl
  rw [hmem]
  constructor
  · rintro (hlt | hadded)
    · exact absurd (h.lt_of_mem hlt) (Nat.lt_irrefl _)
    · generalize hS : f.graph.size = k at hadded
      cases hadded with
      | opener hl hout hp hedge => exact ⟨_, x, _, hl, hp, hout, hedge, hx.mem⟩
      | exit _ _ hk => exact absurd (hS ▸ (w.exit_spec hk).1.1) (Nat.lt_irrefl _)
      | moved _ hk => exact absurd (hS ▸ (w.moved_spec hk).1.1) (Nat.lt_irrefl _)
  · rintro ⟨p, m, e, hl, hp, hout, hedge, hm⟩
    obtain rfl : m = x := (w.entered_iff m).mp ⟨hl.step hedge, hm, Or.inr ⟨p, e, hl, hout, hedge⟩⟩
    exact Or.inr (.opener hl hout hp hedge)

omit hisa hy in
theorem exit_mem {k : NodeId} (hk : exit m k) : k ∈ members := by
  obtain ⟨-, -, q, e, hexiting⟩ := w.exit_spec hk
  exact (hmem k).mpr (Or.inr (.exit hexiting (h.subset hexiting.mem) hk))

include hisa hy

/-- With the opener of the inner region inside it, the outer region is entered by one
instruction at most: the opener if the inner region begins where the outer one does. -/
theorem eq_of_entered_inner_first (hopener : f.graph.size ∈ members)
    (hin : f'.Entered isa members n) : n = if x = y then f.graph.size else y := by
  have hold : ∀ {n}, n < f.graph.size → (n ∈ members ↔ n ∈ outer.members) := fun hn =>
    mem_grown_old w hmem hn
  have hxin := (w.entered_iff x).mpr rfl
  have hxmem := h.subset hxin.mem
  obtain ⟨-, hn, rfl | ⟨p, e, hp, hout, hstep⟩⟩ := hin
  · rw [w.entry_eq] at hn ⊢
    by_cases hx : x = f.entry
    · have hxy : x = y := (hy x).mp ⟨hxin.live, hxmem, Or.inl hx⟩
      rw [if_pos hx, if_pos hxy]
    · rw [if_neg hx] at hn ⊢
      have hentry : f.entry = y :=
        (hy _).mp ⟨.root List.mem_cons_self, (hold h.valid.entry_lt).mp hn, Or.inl rfl⟩
      rw [if_neg fun hxy => hx (hxy.trans hentry.symm), hentry]
  -- the source of the edge is none of the inner region's, nor anything that was added to it
  have hpout : f.Live isa p → p ∉ outer.members := fun hl hmem' =>
    hout ((hold (h.valid.lt_of_live hl)).mpr hmem')
  cases w.leads hisa h.inner_handler hp hstep with
  | opened => exact absurd hopener hout
  | handled => exact absurd hopener hout
  | entering hl hm hedge =>
    rw [if_pos ((hy x).mp ⟨hxin.live, hxmem, Or.inr ⟨p, e, hl, hpout hl, hedge⟩⟩)]
  | outside hl hm hedge hne =>
    have hlive := hl.step hedge
    have hny : n = y := (hy n).mp
      ⟨hlive, (hold (h.valid.lt_of_live hlive)).mp hn, Or.inr ⟨p, e, hl, hpout hl, hedge⟩⟩
    rw [if_neg fun hxy => hne (hny.trans hxy.symm), hny]
  | inside hl hm => exact absurd (h.subset hm) (hpout hl)
  | leaving hexiting => exact absurd (h.subset hexiting.mem) (hpout hexiting.live)
  | exit hk => exact absurd (h.exit_mem w hmem hk) hout
  | returned hk =>
    obtain ⟨-, ⟨hl, hm, -⟩, -⟩ := w.moved_spec hk
    exact absurd (h.subset hm) (hpout hl)

/-- With the opener inside it, the outer region is entered by exactly that instruction. -/
theorem entered_inner_first (hopener : f.graph.size ∈ members) :
    f'.Entered isa members n ↔ n = if x = y then f.graph.size else y := by
  refine ⟨h.eq_of_entered_inner_first hisa w hy hmem hopener, ?_⟩
  rintro rfl
  have hold : ∀ {n}, n < f.graph.size → (n ∈ members ↔ n ∈ outer.members) := fun hn =>
    mem_grown_old w hmem hn
  obtain ⟨hlive, hymem, hin⟩ := (hy y).mpr rfl
  have hway : (if x = y then f.graph.size else y) = f'.entry ∨ ∃ p e, f'.Live isa p ∧
      p ∉ members ∧ ((if x = y then f.graph.size else y), e) ∈ f'.graph.edges isa p := by
    rcases hin with hentry | ⟨p, e, hp, hout, hedge⟩
    · rw [w.entry_eq, ← hentry]
      exact Or.inl rfl
    · have hnew := (w.outside_edges hp fun hm => hout (h.subset hm)).mpr ⟨y, hedge, rfl⟩
      simp only [@eq_comm _ y x] at hnew
      exact Or.inr ⟨p, e, w.live_old hisa hp,
        fun hm => hout ((hold (h.valid.lt_of_live hp)).mp hm), hnew⟩
  by_cases hxy : x = y
  · rw [if_pos hxy] at hway ⊢
    exact ⟨w.live_opener hisa, hopener, hway⟩
  · rw [if_neg hxy] at hway ⊢
    exact ⟨w.live_old hisa hlive, (hold (h.lt_of_mem hymem)).mpr hymem, hway⟩

omit hy in
theorem not_entered_inner_first (hopener : f.graph.size ∉ members) (z : NodeId) :
    ¬ ∀ n, f'.Entered isa members n ↔ n = z := by
  have hxin := (w.entered_iff x).mpr rfl
  have hlt := h.lt_of_mem (h.subset hxin.mem)
  have hhandler := h.valid.handler_lt _ h.inner_handler
  -- the opener leads to the first inner member and to the inner handler
  have hx : f'.Entered isa members x :=
    ⟨w.live_old hisa hxin.live, (mem_grown_old w hmem hlt).mpr (h.subset hxin.mem),
      Or.inr ⟨_, .fallthrough, w.live_opener hisa, hopener, w.opener_edges.mpr (Or.inl ⟨rfl, rfl⟩)⟩⟩
  have hh : f'.Entered isa members inner.handler :=
    ⟨w.live_old hisa (.root (List.mem_cons_of_mem _ h.inner_handler)),
      (mem_grown_old w hmem hhandler).mpr h.handler_mem,
      Or.inr ⟨_, .branch, w.live_opener hisa, hopener, w.opener_edges.mpr (Or.inr ⟨rfl, rfl⟩)⟩⟩
  intro hz
  have heq : x = inner.handler := ((hz x).mp hx).trans ((hz _).mp hh).symm
  exact h.handler_not_mem (heq ▸ hxin.mem)

end InnerFirst

/-! ### The outer region first -/

section OuterFirst

variable {x y : NodeId} {members : NodeSet} (hisa : isa.Blocks)
  (w : Written isa f i outer y exit moved f')
  (hx : ∀ n, f.Entered isa inner.members n ↔ n = x)
  (hmem : ∀ n, n ∈ members ↔
    n ∈ inner.members ∨ AddedTo isa f outer y exit moved inner.members n)
include w hmem

omit hisa w hx in
/-- The inner region takes in what was added inside it, and nothing else is new there. -/
theorem mem_new (hn : f.graph.size ≤ n) :
    n ∈ members ↔ AddedTo isa f outer y exit moved inner.members n := by
  rw [hmem]
  exact or_iff_right fun hm => Nat.not_lt.mpr hn (h.lt_of_mem (h.subset hm))

omit hisa hx in
theorem opener_not_mem : f.graph.size ∉ members := by
  rw [h.mem_new hmem (Nat.le_refl _)]
  generalize hS : f.graph.size = k
  intro hadded
  cases hadded with
  | opener _ hout hp => exact hout (h.subset hp)
  | exit _ _ hk => exact absurd (hS ▸ (w.exit_spec hk).1.1) (Nat.lt_irrefl _)
  | moved _ hk => exact absurd (hS ▸ (w.moved_spec hk).1.1) (Nat.lt_irrefl _)

include hisa

omit hx in
theorem exit_mem_iff {k : NodeId} (hk : exit m k) : k ∈ members ↔
    ∃ p e, f.Exiting isa outer.members p m e ∧ p ∈ inner.members := by
  have hlt := (w.exit_spec hk).1.1
  rw [h.mem_new hmem (Nat.le_of_lt hlt)]
  constructor
  · intro hadded
    cases hadded with
    | opener => exact absurd hlt (Nat.lt_irrefl _)
    | exit hexiting hp hk' => exact ⟨_, _, w.exit_inj hk hk' ▸ hexiting, hp⟩
    | moved _ hk' => exact absurd hk' (w.not_moved_of_exit hisa hk)
  · rintro ⟨p, e, hexiting, hp⟩
    exact .exit hexiting hp hk

omit hx in
theorem moved_mem_iff {p k : NodeId} (hk : moved p k) : k ∈ members ↔ p ∈ inner.members := by
  have hlt := (w.moved_spec hk).1.1
  rw [h.mem_new hmem (Nat.le_of_lt hlt)]
  constructor
  · intro hadded
    cases hadded with
    | opener => exact absurd hlt (Nat.lt_irrefl _)
    | exit _ _ hk' => exact absurd hk (w.not_moved_of_exit hisa hk')
    | moved hp hk' => exact w.moved_inj hk' hk ▸ hp
  · exact fun hp => .moved hp hk

include hx

/-- What enters the inner region afterwards is what entered it before, or an exit that the
rest of the outer region shares with it. -/
theorem eq_or_shared_of_entered (hin : f'.Entered isa members n) :
    n = x ∨ ∃ m, exit m n ∧ f.SharedExit isa inner outer m := by
  have hold : ∀ {n}, n < f.graph.size → (n ∈ members ↔ n ∈ inner.members) := fun hn =>
    mem_grown_old w hmem hn
  have hopener : f.graph.size ∉ members := h.opener_not_mem w hmem
  have hyin := (w.entered_iff y).mpr rfl
  obtain ⟨-, hn, rfl | ⟨p, e, hp, hout, hstep⟩⟩ := hin
  · rw [w.entry_eq] at hn
    split at hn
    · exact absurd hn hopener
    · case _ hne =>
      have hin := h.subset ((hold h.valid.entry_lt).mp hn)
      exact absurd ((w.entered_iff _).mp ⟨.root List.mem_cons_self, hin, Or.inl rfl⟩).symm hne
  have hpout : f.Live isa p → p ∉ inner.members := fun hl hin =>
    hout ((hold (h.valid.lt_of_live hl)).mpr hin)
  cases w.leads hisa h.outer_handler hp hstep with
  | opened =>
    have hin := (hold (h.valid.lt_of_live hyin.live)).mp hn
    exact Or.inl ((hx n).mp (h.entered_inner hin hyin))
  | handled =>
    have hin := (hold (h.valid.handler_lt _ h.outer_handler)).mp hn
    exact absurd (h.subset hin) h.outer_handler_not_mem
  | entering => exact absurd hn hopener
  | outside hl hm hedge hne =>
    have hin := h.subset ((hold (h.valid.lt_of_live (hl.step hedge))).mp hn)
    exact absurd ((w.entered_iff n).mp ⟨hl.step hedge, hin, Or.inr ⟨p, e, hl, hm, hedge⟩⟩) hne
  | inside hl hm hedge =>
    have hin := (hold (h.valid.lt_of_live (hl.step hedge))).mp hn
    exact Or.inl ((hx n).mp ⟨hl.step hedge, hin, Or.inr ⟨p, e, hl, hpout hl, hedge⟩⟩)
  | leaving hexiting hk =>
    exact Or.inr ⟨_, hk, (h.exit_mem_iff hisa w hmem hk).mp hn, p, e, hexiting, hpout hexiting.live⟩
  | exit hk =>
    obtain ⟨-, -, q, e', hexiting⟩ := w.exit_spec hk
    have hin := (hold (h.valid.lt_of_live (hexiting.live.step hexiting.edge))).mp hn
    exact absurd (h.subset hin) hexiting.outside
  | returned hk =>
    exact absurd ((h.moved_mem_iff hisa w hmem hk).mp hn) (hpout (w.moved_spec hk).2.1.1)

theorem entered_old : f'.Entered isa members x := by
  have hold : ∀ {n}, n < f.graph.size → (n ∈ members ↔ n ∈ inner.members) := fun hn =>
    mem_grown_old w hmem hn
  have hxin := (hx x).mpr rfl
  have hxmem := h.subset hxin.mem
  -- the opener of the outer region leads to where the inner one begins, if they begin alike
  have hsame : x = y → ∃ p e, f'.Live isa p ∧ p ∉ members ∧ (x, e) ∈ f'.graph.edges isa p :=
    fun hxy => ⟨_, .fallthrough, w.live_opener hisa, h.opener_not_mem w hmem,
      w.opener_edges.mpr (Or.inl ⟨hxy, rfl⟩)⟩
  refine ⟨w.live_old hisa hxin.live, (hold (h.lt_of_mem hxmem)).mpr hxin.mem, Or.inr ?_⟩
  rcases hxin.way_in with hentry | ⟨p, e, hp, hout, hedge⟩
  · exact hsame ((w.entered_iff x).mp ⟨hxin.live, hxmem, Or.inl hentry⟩)
  · by_cases hpout : p ∈ outer.members
    · have hstay := (w.inside_edges hp hpout (returns_eq_false hisa hedge)).mpr
        (Or.inl ⟨hedge, fun hexiting => hexiting.outside hxmem⟩)
      exact ⟨p, e, w.live_old hisa hp, fun hm => hout ((hold (h.lt_of_mem hpout)).mp hm), hstay⟩
    · exact hsame ((w.entered_iff x).mp ⟨hxin.live, hxmem, Or.inr ⟨p, e, hp, hpout, hedge⟩⟩)

omit hx in
theorem entered_of_shared (hk : exit m n) (hshared : f.SharedExit isa inner outer m) :
    f'.Entered isa members n := by
  obtain ⟨⟨p, e, hexiting, hp⟩, q, e', hexiting', hq⟩ := hshared
  have hstep := (w.inside_edges hexiting'.live hexiting'.mem
    (returns_eq_false hisa hexiting'.edge)).mpr (Or.inr ⟨m, hexiting', hk⟩)
  have hlive := w.live_old hisa hexiting'.live
  have hqout : q ∉ members := fun hm =>
    hq ((mem_grown_old w hmem (h.lt_of_mem hexiting'.mem)).mp hm)
  exact ⟨hlive.step hstep, (h.exit_mem_iff hisa w hmem hk).mpr ⟨p, e, hexiting, hp⟩,
    Or.inr ⟨q, e', hlive, hqout, hstep⟩⟩

/-- **How the inner region is entered** when the outer one has been written. -/
theorem entered_outer_first : f'.Entered isa members n ↔
    n = x ∨ ∃ m, exit m n ∧ f.SharedExit isa inner outer m := by
  refine ⟨h.eq_or_shared_of_entered hisa w hx hmem, ?_⟩
  rintro (rfl | ⟨m, hk, hshared⟩)
  · exact h.entered_old hisa w hx hmem
  · exact h.entered_of_shared hisa w hmem hk hshared

/-- The inner region is entered by one instruction if no exit is shared. -/
theorem exists_entered_outer_first : (∃ z, ∀ n, f'.Entered isa members n ↔ n = z) ↔
    ¬ ∃ m, f.SharedExit isa inner outer m := by
  constructor
  · rintro ⟨z, hz⟩ ⟨m, hshared⟩
    obtain ⟨⟨p, e, hexiting, -⟩, -⟩ := id hshared
    obtain ⟨k, hk⟩ := w.exists_exit hexiting
    have hkz := (hz k).mp ((h.entered_outer_first hisa w hx hmem).mpr (Or.inr ⟨m, hk, hshared⟩))
    have hxz := (hz x).mp ((h.entered_outer_first hisa w hx hmem).mpr (Or.inl rfl))
    have hlt := h.valid.lt_of_live ((hx x).mpr rfl).live
    rw [hxz, ← hkz] at hlt
    exact Nat.lt_asymm hlt (w.exit_spec hk).1.1
  · intro hnone
    refine ⟨x, fun n => (h.entered_outer_first hisa w hx hmem).trans (or_iff_left ?_)⟩
    rintro ⟨m, -, hshared⟩
    exact hnone ⟨m, hshared⟩

end OuterFirst

end Nested

/-! ### One after the other -/

/-- Of the declared regions `r₁` and `r₂` the first has been written, and `r` is the second
with what was added inside it. -/
structure Halfway (isa : InstructionSet) (f : Flattening) (r₁ r₂ : Region) (first : NodeId)
    (exit moved : NodeId → NodeId → Prop) (f₁ : Flattening) (r : Region) : Prop where
  written : Written isa f 0 r₁ first exit moved f₁
  place : f₁.table.regions[1]? = some r
  declared : r.setup = none
  handler_eq : r.handler = r₂.handler
  mem_iff : ∀ n, n ∈ r.members ↔ n ∈ r₂.members ∨ AddedTo isa f r₁ first exit moved r₂.members n
  all_iff : ∀ f', f.all isa = (f', .ok ()) ↔ f₁.region isa 1 r = .ok f'

theorem exists_halfway (hisa : isa.Blocks) (hf : f.Valid) {r₁ r₂ : Region}
    (hregions : f.table.regions = [r₁, r₂]) (h₁ : r₁.setup = none) (h₂ : r₂.setup = none)
    (hentered : ∃ x, ∀ n, f.Entered isa r₁.members n ↔ n = x) :
    ∃ first exit moved f₁ r, Halfway isa f r₁ r₂ first exit moved f₁ r := by
  obtain ⟨x, hx⟩ := hentered
  have hregion : f.region isa 0 r₁ = .ok (f.written isa 0 r₁ x) :=
    (region_eq_ok_iff hf).mpr ⟨x, hx, rfl⟩
  obtain ⟨first, exit, moved, w⟩ := exists_written hf hisa (by rw [hregions]; rfl) hregion
  obtain ⟨r, hplace, hdeclared, hhandler, hmem⟩ :=
    w.grown (j := 1) Nat.one_ne_zero (by rw [hregions]; rfl) h₂
  refine ⟨first, exit, moved, _, r, w, hplace, hdeclared, hhandler, hmem, fun f' => ?_⟩
  rw [all, hregions]
  show f.regionsAt isa [0, 1] = _ ↔ _
  rw [regionsAt, hregions]
  simp only [List.getElem?_cons_zero, h₁, Option.isSome_none, Bool.false_eq_true, if_false, hregion]
  rw [regionsAt, hplace]
  simp only [hdeclared, Option.isSome_none, Bool.false_eq_true, if_false]
  cases (f.written isa 0 r₁ x).region isa 1 r with
  | ok f'' => simp [regionsAt]
  | error e => simp

namespace Halfway

variable {r₁ r₂ : Region} {f₁ : Flattening} {z : NodeId} {exit₂ moved₂ : NodeId → NodeId → Prop}

/-- The depths when both have been written. -/
abbrev depths (isa : InstructionSet) (f f₁ f' : Flattening) (r₁ r : Region) (first z : NodeId) :
    NodeId → Int :=
  depthAfter isa f₁ f' r z (depthAfter isa f f₁ r₁ first fun _ => 0)

section

variable (hw : Halfway isa f r₁ r₂ first exit moved f₁ r) (hisa : isa.Blocks) (hf : f.Valid)
  (hplain : f.Plain isa) (hr₁ : r₁.handler ∈ f.table.handlers) (hr₂ : r₂.handler ∈ f.table.handlers)
  (h₁ : r₁.handler ∉ r₁.members) (h₂ : r₂.handler ∉ r₂.members)
  (w₂ : Written isa f₁ 1 r z exit₂ moved₂ f')
include hw

theorem mem_old (hn : n < f.graph.size) : n ∈ r.members ↔ n ∈ r₂.members :=
  mem_grown_old hw.written hw.mem_iff hn

theorem depths_old (hn : n < f.graph.size) : depths isa f f₁ f' r₁ r first z n =
    (if n ∈ r₁.members then 1 else 0) + if n ∈ r₂.members then 1 else 0 := by
  have hn₁ : n < f₁.graph.size := Nat.lt_trans hn hw.written.size_lt
  rw [depths, depthAfter, if_pos hn₁, depthAfter, if_pos hn, Int.zero_add]
  simp only [hw.mem_old hn]

theorem depths_opener :
    depths isa f f₁ f' r₁ r first z f.graph.size = if f.graph.size ∈ r.members then 1 else 0 := by
  rw [depths, depthAfter, if_pos hw.written.size_lt, depthAfter_opener, Int.zero_add]

include hisa hf hplain hr₁

omit hf in
theorem setup_eq {p : NodeId} (hl : f₁.Live isa p) (hedge : (m, e) ∈ f₁.graph.edges isa p)
    (hsetup : ((f₁.graph.node p).flags isa).handlerSetup = true) : p = f.graph.size := by
  rcases hw.written.setup_of_edge hisa hr₁ hl hedge hsetup with heq | ⟨hl, -, hsetup⟩
  · exact heq
  · rw [(hplain p hl).1] at hsetup
    cases hsetup

include hr₂ h₁ h₂ w₂

/-- **Two regions are balanced** if the second is entered at the depth of its handler, and
has the handler of the first inside it when it has its opener. -/
theorem balanced (hdepth : depthAfter isa f f₁ r₁ first (fun _ => 0) r.handler =
      depthAfter isa f f₁ r₁ first (fun _ => 0) z)
    (hinside : f.graph.size ∈ r.members → r₁.handler ∈ r.members) :
    Balanced isa f' (depths isa f f₁ f' r₁ r first z) := by
  have w := hw.written
  have hb := w.balanced hisa hf hr₁ hplain.balanced h₁ rfl fun hl _ _ hsetup => by
    rw [(hplain _ hl).1] at hsetup
    cases hsetup
  have hr : r.handler ∈ f₁.table.handlers := by
    rw [hw.handler_eq, w.handlers_eq]
    exact hr₂
  have hout : r.handler ∉ r.members := by
    rw [hw.handler_eq, hw.mem_old (hf.handler_lt _ hr₂)]
    exact h₂
  refine w₂.balanced hisa w.valid hr hb hout hdepth fun hl hm hedge hsetup => ?_
  obtain rfl := hw.setup_eq hisa hplain hr₁ hl hedge hsetup
  rcases w.opener_edges.mp hedge with ⟨-, he⟩ | ⟨rfl, -⟩
  · cases he
  · exact hinside hm

omit hf h₁ h₂ in
/-- **What is on the stack** when both have been written: as many handlers as the depth
says, in the order in which the openers lie inside each other. -/
theorem stack (hb : Balanced isa f' (depths isa f f₁ f' r₁ r first z))
    (hkept : f.graph.size ∈ r.members ∨ r₁.handler ≠ z) (handlers : List NodeId)
    (hfirst : handlers[(if f.graph.size ∈ r.members then 1 else 0 : Nat)]? = some r₁.handler)
    (hsecond : handlers[(depthAfter isa f f₁ r₁ first (fun _ => 0) z).toNat]? = some r₂.handler)
    {stack : List NodeId} (hrun : Reach (f'.graph.stackBlocks isa) [(f'.entry, [])] (n, stack)) :
    stack = (handlers.take (depths isa f f₁ f' r₁ r first z n).toNat).reverse := by
  have w := hw.written
  have hr : r.handler ∈ f₁.table.handlers := by
    rw [hw.handler_eq, w.handlers_eq]
    exact hr₂
  refine (hb.stack handlers (fun {p n} hl hedge hsetup => ?_) hrun).2.2
  rcases w₂.setup_of_edge hisa hr hl hedge hsetup with rfl | ⟨hl₁, ⟨m, hedge₁⟩, hsetup₁⟩
  · have hbranch : (r.handler, Edge.branch) ∈ f'.graph.edges isa f₁.graph.size :=
      w₂.opener_edges.mpr (Or.inr ⟨rfl, rfl⟩)
    refine ⟨r₂.handler, ?_, ?_⟩
    · rw [depths, depthAfter_opener]
      exact hsecond
    · rw [← hw.handler_eq]
      exact (Graph.mem_edges ..).mp hbranch
  · obtain rfl := hw.setup_eq hisa hplain hr₁ hl₁ hedge₁ hsetup₁
    have hbranch₁ : (r₁.handler, Edge.branch) ∈ f₁.graph.edges isa f.graph.size :=
      w.opener_edges.mpr (Or.inr ⟨rfl, rfl⟩)
    have hbranch : (r₁.handler, Edge.branch) ∈ f'.graph.edges isa f.graph.size := by
      by_cases hmem : f.graph.size ∈ r.members
      · exact (w₂.inside_edges hl₁ hmem (returns_eq_false hisa hbranch₁)).mpr
          (Or.inl ⟨hbranch₁, fun hexiting => hexiting.counts ⟨rfl, hsetup₁⟩⟩)
      · exact (w₂.outside_edges hl₁ hmem).mpr
          ⟨r₁.handler, hbranch₁, (if_neg (hkept.resolve_left hmem)).symm⟩
    refine ⟨r₁.handler, ?_, (Graph.mem_edges ..).mp hbranch⟩
    rw [hw.depths_opener, ← hfirst]
    congr 1
    split <;> rfl

end

end Halfway

theorem Halfway.exists_all_iff {r₁ r₂ : Region} {f₁ : Flattening}
    (hw : Halfway isa f r₁ r₂ first exit moved f₁ r) : (∃ f', f.all isa = (f', .ok ())) ↔
      ∃ z, ∀ n, f₁.Entered isa r.members n ↔ n = z := by
  simp only [hw.all_iff, region_eq_ok_iff hw.written.valid]
  exact ⟨fun ⟨_, z, hz, _⟩ => ⟨z, hz⟩, fun ⟨z, hz⟩ => ⟨_, z, hz, rfl⟩⟩

/-- The handlers of the regions that an instruction is in, the inner one first. -/
def handlersAt (inner outer : Region) (n : NodeId) : List NodeId :=
  if n ∈ inner.members then [inner.handler, outer.handler]
  else if n ∈ outer.members then [outer.handler]
  else []

namespace Nested

variable (h : Nested isa f inner outer) (hisa : isa.Blocks)
include h

theorem handlersAt_eq : handlersAt inner outer n = (([outer.handler, inner.handler].take
    ((if n ∈ inner.members then 1 else 0 : Int) + if n ∈ outer.members then 1 else 0).toNat).reverse)
    := by
  unfold handlersAt
  by_cases hin : n ∈ inner.members
  · rw [if_pos hin, if_pos hin, if_pos (h.subset hin)]
    rfl
  · by_cases hout : n ∈ outer.members
    · rw [if_neg hin, if_pos hout, if_neg hin, if_pos hout]
      rfl
    · rw [if_neg hin, if_neg hout, if_neg hin, if_neg hout]
      rfl

include hisa

/-- **The inner region first**: both are written if an edge from the rest of the outer
region leads into the inner one. -/
theorem inner_first (hregions : f.table.regions = [inner, outer]) :
    ((∃ f', f.all isa = (f', .ok ())) ↔ ∃ p m e, f.Live isa p ∧ p ∈ outer.members ∧
      p ∉ inner.members ∧ (m, e) ∈ f.graph.edges isa p ∧ m ∈ inner.members) ∧
    ∀ f', f.all isa = (f', .ok ()) → ∀ n stack, n < f.graph.size →
      Reach (f'.graph.stackBlocks isa) [(f'.entry, [])] (n, stack) → stack = handlersAt inner outer n := by
  obtain ⟨x, exit, moved, f₁, r, hw⟩ := exists_halfway hisa h.valid hregions h.inner_declared
    h.outer_declared h.inner_entered
  obtain ⟨y, hy⟩ := h.outer_entered
  have w := hw.written
  have hok : (∃ f', f.all isa = (f', .ok ())) ↔ f.graph.size ∈ r.members := by
    rw [hw.exists_all_iff]
    constructor
    · rintro ⟨z, hz⟩
      by_contra hopener
      exact h.not_entered_inner_first hisa w hw.mem_iff hopener z hz
    · exact fun hopener => ⟨_, fun n => h.entered_inner_first hisa w hy hw.mem_iff hopener⟩
  refine ⟨hok.trans (h.opener_mem_iff w hw.mem_iff), fun f' hall n stack hn hrun => ?_⟩
  have hopener := hok.mp ⟨f', hall⟩
  obtain ⟨z, exit₂, moved₂, w₂⟩ := exists_written w.valid hisa hw.place ((hw.all_iff f').mp hall)
  have hz : z = if x = y then f.graph.size else y :=
    (h.entered_inner_first hisa w hy hw.mem_iff hopener).mp ((w₂.entered_iff z).mpr rfl)
  have hfirst : depthAfter isa f f₁ inner x (fun _ => 0) z = 0 := by
    rw [hz]
    split
    · exact depthAfter_opener
    · case _ hne =>
      have hyin := (hy y).mpr rfl
      have hout : y ∉ inner.members := fun hm =>
        hne ((w.entered_iff y).mp (h.entered_inner hm hyin)).symm
      exact depthAfter_of_not_mem (h.lt_of_mem hyin.mem) hout
  have hhandler : depthAfter isa f f₁ inner x (fun _ => 0) r.handler = 0 := by
    rw [hw.handler_eq]
    exact depthAfter_of_not_mem (h.valid.handler_lt _ h.outer_handler) fun hm =>
      h.outer_handler_not_mem (h.subset hm)
  have hb := hw.balanced hisa h.valid h.plain h.inner_handler h.outer_handler h.handler_not_mem
    h.outer_handler_not_mem w₂ (hhandler.trans hfirst.symm) fun _ =>
      (hw.mem_old (h.lt_of_mem h.handler_mem)).mpr h.handler_mem
  rw [h.handlersAt_eq, ← hw.depths_old hn]
  refine hw.stack hisa h.plain h.inner_handler h.outer_handler w₂ hb (Or.inl hopener) _ ?_ ?_ hrun
  · rw [if_pos hopener]
    rfl
  · rw [hfirst]
    rfl

/-- **The outer region first**: both are written if no exit is shared. -/
theorem outer_first (hregions : f.table.regions = [outer, inner]) :
    ((∃ f', f.all isa = (f', .ok ())) ↔ ¬ ∃ m, f.SharedExit isa inner outer m) ∧
    ∀ f', f.all isa = (f', .ok ()) → ∀ n stack, n < f.graph.size →
      Reach (f'.graph.stackBlocks isa) [(f'.entry, [])] (n, stack) → stack = handlersAt inner outer n := by
  obtain ⟨y, exit, moved, f₁, r, hw⟩ := exists_halfway hisa h.valid hregions h.outer_declared
    h.inner_declared h.outer_entered
  obtain ⟨x, hx⟩ := h.inner_entered
  have w := hw.written
  have hopener : f.graph.size ∉ r.members := h.opener_not_mem w hw.mem_iff
  refine ⟨hw.exists_all_iff.trans (h.exists_entered_outer_first hisa w hx hw.mem_iff),
    fun f' hall n stack hn hrun => ?_⟩
  obtain ⟨z, exit₂, moved₂, w₂⟩ := exists_written w.valid hisa hw.place ((hw.all_iff f').mp hall)
  have hxin := (hx x).mpr rfl
  obtain rfl : x = z := (w₂.entered_iff x).mp
    ((h.entered_outer_first hisa w hx hw.mem_iff).mpr (Or.inl rfl))
  have hfirst : depthAfter isa f f₁ outer y (fun _ => 0) x = 1 :=
    depthAfter_of_mem (h.valid.lt_of_live hxin.live) (h.subset hxin.mem)
  have hhandler : depthAfter isa f f₁ outer y (fun _ => 0) r.handler = 1 := by
    rw [hw.handler_eq]
    exact depthAfter_of_mem (h.lt_of_mem h.handler_mem) h.handler_mem
  have hb := hw.balanced hisa h.valid h.plain h.outer_handler h.inner_handler h.outer_handler_not_mem
    h.handler_not_mem w₂ (hhandler.trans hfirst.symm) fun hm => absurd hm hopener
  have hne : outer.handler ≠ x := fun heq => h.outer_handler_not_mem (heq ▸ h.subset hxin.mem)
  rw [h.handlersAt_eq, Int.add_comm, ← hw.depths_old hn]
  refine hw.stack hisa h.plain h.outer_handler h.inner_handler w₂ hb (Or.inr hne) _ ?_ ?_ hrun
  · rw [if_neg hopener]
    rfl
  · rw [hfirst]
    rfl

end Nested

/-! ### Either order -/

section Order

variable {t : RegionTable} (ht : ∀ r, r ∈ t.regions ↔ r ∈ f.table.regions)
include ht

theorem mem_handlers_of_regions (k : NodeId) : k ∈ t.handlers ↔ k ∈ f.table.handlers := by
  simp only [RegionTable.mem_handlers, ht]

theorem live_of_regions : ({ f with table := t } : Flattening).Live isa n ↔ f.Live isa n := by
  constructor
  · refine Reach.of_roots fun r hr => ?_
    rcases List.mem_cons.mp hr with rfl | hr
    · exact List.mem_cons_self
    · exact List.mem_cons_of_mem _ ((mem_handlers_of_regions ht r).mp hr)
  · refine Reach.of_roots fun r hr => ?_
    rcases List.mem_cons.mp hr with rfl | hr
    · exact List.mem_cons_self
    · exact List.mem_cons_of_mem _ ((mem_handlers_of_regions ht r).mpr hr)

theorem entered_of_regions {members : NodeSet} :
    ({ f with table := t } : Flattening).Entered isa members n ↔ f.Entered isa members n := by
  have hlive : ∀ n, ({ f with table := t } : Flattening).Live isa n ↔ f.Live isa n := fun n =>
    live_of_regions ht
  constructor
  · rintro ⟨hl, hm, hin⟩
    exact ⟨(hlive n).mp hl, hm, hin.imp_right fun ⟨p, e, hp, hout, hedge⟩ =>
      ⟨p, e, (hlive p).mp hp, hout, hedge⟩⟩
  · rintro ⟨hl, hm, hin⟩
    exact ⟨(hlive n).mpr hl, hm, hin.imp_right fun ⟨p, e, hp, hout, hedge⟩ =>
      ⟨p, e, (hlive p).mpr hp, hout, hedge⟩⟩

theorem exiting_of_regions {members : NodeSet} :
    ({ f with table := t } : Flattening).Exiting isa members n m e ↔ f.Exiting isa members n m e := by
  have hlive : ∀ n, ({ f with table := t } : Flattening).Live isa n ↔ f.Live isa n := fun n =>
    live_of_regions ht
  exact ⟨fun h => ⟨(hlive n).mp h.live, h.mem, h.edge, h.outside, h.counts⟩,
    fun h => ⟨(hlive n).mpr h.live, h.mem, h.edge, h.outside, h.counts⟩⟩

theorem Nested.of_regions (h : Nested isa f inner outer) :
    Nested isa { f with table := t } inner outer where
  valid := {
    closed := h.valid.closed
    entry_lt := h.valid.entry_lt
    handler_lt := fun k hk => h.valid.handler_lt k ((mem_handlers_of_regions ht k).mp hk)
    member_lt := fun r hr => h.valid.member_lt r ((ht r).mp hr) }
  plain := fun n hl => h.plain n ((live_of_regions ht).mp hl)
  mem_regions := fun r => (ht r).trans (h.mem_regions r)
  inner_declared := h.inner_declared
  outer_declared := h.outer_declared
  subset := h.subset
  handler_mem := h.handler_mem
  handler_not_mem := h.handler_not_mem
  outer_handler_not_mem := h.outer_handler_not_mem
  inner_entered := by simpa only [entered_of_regions ht] using h.inner_entered
  outer_entered := by simpa only [entered_of_regions ht] using h.outer_entered

end Order

/-- **Nested regions.** Where nothing opened or closed a block before, two regions one
inside the other are both written, with the inner one first if an edge from the rest of
the outer region leads into it, and with the outer one first if they share no exit; and
then, in either order, a run from the new entry has just the handlers of the regions
that an instruction is in on the stack when it comes there, that of the inner one on
top. -/
theorem nested_all (hisa : isa.BuiltIn) {g : Graph} {entry : NodeId}
    (h : Nested isa ⟨g, entry, ⟨[inner, outer]⟩⟩ inner outer) :
    ((∃ f', (⟨g, entry, ⟨[inner, outer]⟩⟩ : Flattening).all isa = (f', .ok ())) ↔
      ∃ p m e, (⟨g, entry, ⟨[inner, outer]⟩⟩ : Flattening).Live isa p ∧ p ∈ outer.members ∧
        p ∉ inner.members ∧ (m, e) ∈ g.edges isa p ∧ m ∈ inner.members) ∧
    ((∃ f', (⟨g, entry, ⟨[outer, inner]⟩⟩ : Flattening).all isa = (f', .ok ())) ↔
      ¬ ∃ m, (⟨g, entry, ⟨[inner, outer]⟩⟩ : Flattening).SharedExit isa inner outer m) ∧
    ∀ regions, (regions = [inner, outer] ∨ regions = [outer, inner]) →
      ∀ f', (⟨g, entry, ⟨regions⟩⟩ : Flattening).all isa = (f', .ok ()) →
        ∀ n stack, n < g.size → Reach (f'.graph.stackBlocks isa) [(f'.entry, [])] (n, stack) →
          stack = handlersAt inner outer n := by
  have hswap : ∀ r, r ∈ (⟨[outer, inner]⟩ : RegionTable).regions ↔
      r ∈ (⟨g, entry, ⟨[inner, outer]⟩⟩ : Flattening).table.regions := fun r => by
    simp only [List.mem_pair]
    exact or_comm
  obtain ⟨hinner, hstack⟩ := h.inner_first hisa.blocks rfl
  obtain ⟨houter, hstack'⟩ := (h.of_regions hswap).outer_first hisa.blocks rfl
  refine ⟨hinner, ?_, ?_⟩
  · simp only [SharedExit, exiting_of_regions hswap] at houter
    exact houter
  · rintro regions (rfl | rfl)
    · exact hstack
    · exact hstack'

/-! ### Two regions on a straight line -/

/-- A straight line of three instructions, and two handlers that return at once. -/
def straightLine : Graph := ⟨#[{ opcode := ⟨9⟩, successor := some 1 },
  { opcode := ⟨9⟩, successor := some 2 }, { opcode := ⟨83⟩ }, { opcode := ⟨83⟩ }, { opcode := ⟨83⟩ }]⟩

/-- The region of one instruction of the line. -/
def small (n : NodeId) : Region := ⟨none, 3, Std.HashSet.ofList [n]⟩

/-- The region of the two instructions before the return, and the handler of the small
one. -/
def large : Region := ⟨none, 4, Std.HashSet.ofList [0, 1, 3]⟩

theorem mem_small {k : NodeId} : n ∈ (small k).members ↔ n = k := by
  rw [small, Std.HashSet.mem_ofList, List.contains_iff_mem, List.mem_singleton]

theorem mem_large : n ∈ large.members ↔ n = 0 ∨ n = 1 ∨ n = 3 := by
  rw [large, Std.HashSet.mem_ofList, List.contains_iff_mem]
  simp

theorem flags_straightLine : ∀ n < 5,
    ((straightLine.node n).flags .python38).fallsThrough = decide (n < 2) ∧
      ((straightLine.node n).flags .python38).isJump = false ∧
      ((straightLine.node n).flags .python38).handlerSetup = false ∧
      ((straightLine.node n).flags .python38).blockExit = false := by
  simp only [Node.flags, InstructionSet.flags, InstructionSet.info_python38]
  decide +kernel

theorem mem_edges_straightLine : (m, e) ∈ straightLine.edges .python38 n ↔
    (n = 0 ∧ m = 1 ∨ n = 1 ∧ m = 2) ∧ e = .fallthrough := by
  rw [Graph.mem_edges_iff]
  constructor
  · rintro ⟨htakes, htarget⟩
    have hn : n < 5 := Graph.lt_of_target htarget
    obtain ⟨hfalls, hjump, -⟩ := flags_straightLine n hn
    cases e with
    | fallthrough =>
      have hlt : n < 2 := of_decide_eq_true (hfalls.symm.trans htakes)
      refine ⟨?_, rfl⟩
      obtain rfl | rfl := Nat.le_one_iff_eq_zero_or_eq_one.mp (Nat.le_of_lt_succ hlt)
      · exact Or.inl ⟨rfl, (Option.some.inj htarget).symm⟩
      · exact Or.inr ⟨rfl, (Option.some.inj htarget).symm⟩
    | branch => exact absurd (hjump.symm.trans htakes) Bool.false_ne_true
  · rintro ⟨⟨rfl, rfl⟩ | ⟨rfl, rfl⟩, rfl⟩
    · exact ⟨(flags_straightLine 0 (by decide)).1, rfl⟩
    · exact ⟨(flags_straightLine 1 (by decide)).1, rfl⟩

theorem nested_straightLine {k : NodeId} (hk : k = 0 ∨ k = 1) :
    Nested .python38 ⟨straightLine, 0, ⟨[small k, large]⟩⟩ (small k) large := by
  have hvalid : (⟨straightLine, 0, ⟨[small k, large]⟩⟩ : Flattening).Valid := by
    have hclosed : straightLine.Closed := by decide
    have hentry : 0 < straightLine.size := by decide
    refine ⟨hclosed, hentry, fun h hh => ?_, fun r hr _ n hn => ?_⟩
    · obtain ⟨r, hr, rfl⟩ := RegionTable.mem_handlers.mp hh
      rcases List.mem_pair.mp hr with rfl | rfl
      · show 3 < 5
        decide
      · show 4 < 5
        decide
    · show n < 5
      rcases List.mem_pair.mp hr with rfl | rfl
      · rw [mem_small.mp hn]
        rcases hk with rfl | rfl <;> decide
      · rcases mem_large.mp hn with rfl | rfl | rfl <;> decide
  have hlive : (⟨straightLine, 0, ⟨[small k, large]⟩⟩ : Flattening).Live .python38 0 :=
    .root List.mem_cons_self
  have hnext : (⟨straightLine, 0, ⟨[small k, large]⟩⟩ : Flattening).Live .python38 1 :=
    hlive.step (mem_edges_straightLine.mpr ⟨Or.inl ⟨rfl, rfl⟩, rfl⟩)
  constructor
  case valid => exact hvalid
  case plain => exact fun n hl => (flags_straightLine n (hvalid.lt_of_live hl)).2.2
  case mem_regions => exact fun r => List.mem_pair
  case inner_declared => rfl
  case outer_declared => rfl
  case subset =>
    intro n hn
    rw [mem_large, mem_small.mp hn]
    exact hk.imp_right Or.inl
  case handler_mem => exact mem_large.mpr (Or.inr (Or.inr rfl))
  case handler_not_mem =>
    show 3 ∉ (small k).members
    rw [mem_small]
    rcases hk with rfl | rfl <;> decide
  case outer_handler_not_mem =>
    show 4 ∉ large.members
    rw [mem_large]
    decide
  case inner_entered =>
    refine ⟨k, fun n => ⟨fun h => mem_small.mp h.mem, ?_⟩⟩
    rintro rfl
    rcases hk with rfl | rfl
    · exact ⟨hlive, mem_small.mpr rfl, Or.inl rfl⟩
    · refine ⟨hnext, mem_small.mpr rfl, Or.inr ⟨0, .fallthrough, hlive, ?_, ?_⟩⟩
      · rw [mem_small]
        decide
      · exact mem_edges_straightLine.mpr ⟨Or.inl ⟨rfl, rfl⟩, rfl⟩
  case outer_entered =>
    refine ⟨0, fun n => ⟨?_, ?_⟩⟩
    · rintro ⟨-, -, rfl | ⟨p, e, -, hout, hedge⟩⟩
      · rfl
      · rcases (mem_edges_straightLine.mp hedge).1 with ⟨rfl, -⟩ | ⟨rfl, -⟩
        · exact absurd (mem_large.mpr (Or.inl rfl)) hout
        · exact absurd (mem_large.mpr (Or.inr (Or.inl rfl))) hout
    · rintro rfl
      exact ⟨hlive, mem_large.mpr (Or.inl rfl), Or.inl rfl⟩

/-- Where the small region is behind the start of the large one, both orders are fine. -/
theorem nested_all_straightLine :
    Nested .python38 ⟨straightLine, 0, ⟨[small 1, large]⟩⟩ (small 1) large ∧
      (∃ f', (⟨straightLine, 0, ⟨[small 1, large]⟩⟩ : Flattening).all .python38 = (f', .ok ()) ∧
        ∀ stack, Reach (f'.graph.stackBlocks .python38) [(f'.entry, [])] (1, stack) →
          stack = [3, 4]) ∧
      ∃ f', (⟨straightLine, 0, ⟨[large, small 1]⟩⟩ : Flattening).all .python38 = (f', .ok ()) ∧
        ∀ stack, Reach (f'.graph.stackBlocks .python38) [(f'.entry, [])] (1, stack) →
          stack = [3, 4] := by
  have h := nested_straightLine (Or.inr rfl)
  obtain ⟨hinner, houter, hstack⟩ := nested_all (Or.inl rfl) h
  have hat : handlersAt (small 1) large 1 = [3, 4] := by
    rw [handlersAt, if_pos (mem_small.mpr rfl)]
    rfl
  have hlt : 1 < straightLine.size := by decide
  have hfirst := hinner.mpr ⟨0, 1, .fallthrough, .root List.mem_cons_self, mem_large.mpr (Or.inl rfl),
    fun hm => absurd (mem_small.mp hm) (by decide), mem_edges_straightLine.mpr ⟨Or.inl ⟨rfl, rfl⟩, rfl⟩,
    mem_small.mpr rfl⟩
  have hsecond := houter.mpr (by
    rintro ⟨m, -, q, e, hexiting, hq⟩
    rcases (mem_edges_straightLine.mp hexiting.edge).1 with ⟨rfl, rfl⟩ | ⟨rfl, rfl⟩
    · exact hexiting.outside (mem_large.mpr (Or.inr (Or.inl rfl)))
    · exact hq (mem_small.mpr rfl))
  obtain ⟨f₁, hf₁⟩ := hfirst
  obtain ⟨f₂, hf₂⟩ := hsecond
  refine ⟨h, ⟨f₁, hf₁, fun stack hrun => ?_⟩, f₂, hf₂, fun stack hrun => ?_⟩
  · rw [← hat]
    exact hstack _ (Or.inl rfl) f₁ hf₁ 1 stack hlt hrun
  · rw [← hat]
    exact hstack _ (Or.inr rfl) f₂ hf₂ 1 stack hlt hrun

/-- Where the small region begins with the large one, writing it first leaves the large one
with two entries: its opener is the new entry of the code, and not a member of the large
region. -/
theorem nested_refused :
    Nested .python38 ⟨straightLine, 0, ⟨[small 0, large]⟩⟩ (small 0) large ∧
      (∀ p e, ((small 0).handler, e) ∉ straightLine.edges .python38 p) ∧
      ¬ ∃ f', (⟨straightLine, 0, ⟨[small 0, large]⟩⟩ : Flattening).all .python38 = (f', .ok ()) := by
  have hisa : InstructionSet.python38.BuiltIn := Or.inl rfl
  have h := nested_straightLine (Or.inl rfl)
  refine ⟨h, fun p e hedge => ?_, fun hok => ?_⟩
  · rcases (mem_edges_straightLine.mp hedge).1 with ⟨-, heq⟩ | ⟨-, heq⟩ <;> cases heq
  · obtain ⟨p, m, e, -, -, -, hedge, hm⟩ := (h.inner_first hisa.blocks rfl).1.mp hok
    rw [mem_small] at hm
    rcases (mem_edges_straightLine.mp hedge).1 with ⟨-, heq⟩ | ⟨-, heq⟩
    · rw [hm] at heq
      cases heq
    · rw [hm] at heq
      cases heq

end Flattening

end Wordcode
