/-
# What of a declared region is protected in the code

A declared region is written into the graph as a block, and is found again in the code from
the instruction that opens the block. The search for it keeps to the span of code between
this opener and the handler. So an instruction of the region is protected when the code is
read exactly if execution gets to it in that span, and nothing is promised about the rest:
the layout follows chains of fall-through and knows nothing of regions. Inside the region
execution gets from the first member to every other one without leaving it, hence all of it
is protected if its members, with the jumps that were added to lead to them, stand in the
span. Two jumps around their handler do not.

Key definitions: `Graph.BlockOf`, `Graph.Spans`.
Key theorems: `Flattening.operands_region`, `Flattening.Written.exists_block`,
`Flattening.Written.handlerFor?_unit`, `Flattening.Written.inBlock_member`,
`CodeUnit.Encoded.exists_decode`, `CodeUnit.handlerFor?_decode_encode`.
-/
import Wordcode.Proofs.BlockBalance
import Wordcode.Proofs.EmittedBlocks
import Wordcode.Proofs.EmittedLines

namespace Wordcode

/-! ### Operands of added instructions -/

/-- All operands of a graph are of one sort. -/
def Graph.Operands (P : Operand → Prop) (g : Graph) : Prop := ∀ n, P (g.node n).operand

namespace Graph.Operands

variable {P : Operand → Prop} {g : Graph}

theorem modify (h : g.Operands P) (n : NodeId) {f : Node → Node}
    (hf : ∀ node, P node.operand → P (f node).operand) : (g.modify n f).Operands P := fun m => by
  rw [node_modify]
  split
  · exact hf _ (h m)
  · exact h m

theorem redirect (h : g.Operands P) (n : NodeId) (e : Edge) (target : Option NodeId) :
    (g.redirect n e target).Operands P :=
  h.modify n fun _ hnode => by cases e <;> exact hnode

theorem alloc (h : g.Operands P) {node : Node} (hnode : P node.operand) :
    (g.alloc node).Operands P := fun m => by
  rw [node_alloc]
  split
  · exact hnode
  · exact h m

end Graph.Operands

namespace Flattening

variable {isa : InstructionSet} {f f' : Flattening} {r : Region} {i : Nat} {P : Operand → Prop}
  (hnone : P .none) (hjump : P .jump)

theorem operands_redirects (s : NodeId) : ∀ (outside : List (NodeId × Edge)) {g : Graph},
    g.Operands P → (outside.foldl (fun g p => g.redirect p.1 p.2 (some s)) g).Operands P
  | [], _, h => h
  | p :: outside, _, h => operands_redirects s outside (h.redirect p.1 p.2 (some s))

include hnone in
theorem Exits.operands_onEdges (n : NodeId) : ∀ (edges : List (NodeId × Edge)) {x : Exits},
    x.graph.Operands P → (edges.foldl (fun x t => x.onEdge isa n t.1 t.2) x).graph.Operands P
  | [], _, h => h
  | t :: edges, x, h => by
    refine operands_onEdges n edges ?_
    show (x.onEdge isa n t.1 t.2).graph.Operands P
    unfold onEdge
    split
    · exact h.redirect n t.2 _
    · exact (h.alloc hnone).redirect n t.2 _

include hnone in
theorem Exits.operands_atMember (inside : NodeId → Bool) {x : Exits} (n : NodeId)
    (h : x.graph.Operands P) : (Exits.atMember isa inside x n).graph.Operands P := by
  unfold atMember
  by_cases hreturns : ((x.graph.node n).flags isa).returns = true
  · simp only [hreturns, if_true]
    refine Graph.Operands.modify ?_ n fun _ _ => hnone
    exact h.alloc (h n)
  · simp only [hreturns, Bool.false_eq_true, if_false]
    exact operands_onEdges hnone n _ h

include hnone in
theorem Exits.operands_atMembers (inside : NodeId → Bool) : ∀ (members : List NodeId) {x : Exits},
    x.graph.Operands P → (members.foldl (Exits.atMember isa inside) x).graph.Operands P
  | [], _, h => h
  | n :: members, _, h => operands_atMembers inside members (operands_atMember hnone inside n h)

include hnone hjump

/-- The instructions that a region adds have no operand, a branch target or that of a return. -/
theorem operands_region (h : f.region isa i r = .ok f') (hf : f.graph.Operands P) :
    f'.graph.Operands P := by
  rw [region_eq] at h
  split at h
  · case _ first _ =>
    obtain rfl := Except.ok.inj h
    exact Exits.operands_atMembers hnone _ (f.membersOf isa r.members)
      (operands_redirects _ _ (hf.alloc hjump))
  · cases h

end Flattening

/-! ### The block of a region -/

/-- The block that a region with this handler was written as: what is laid out has one opener. It
is unit `start` of the code, and what it leads to, the handler or a jump to it, begins at unit `stop`
of `d`. -/
structure Graph.BlockOf (isa : InstructionSet) (g' d : Graph) (layout : List NodeId)
    (handler opener : NodeId) (start stop : Nat) : Prop where
  opens : ∀ n ∈ layout, ((g'.node n).flags isa).handlerSetup = true ↔ n = opener
  offset : (g'.node opener).offset = some (2 * start)
  leads : ∃ t, (g'.node opener).branch = some t ∧ (t = handler ∨ g'.JumpsTo isa t handler) ∧
    g'.Begins isa d layout t stop

namespace Flattening.Written

open Relaxation

variable {isa : InstructionSet} {f f' : Flattening} {r : Region} {first n m : NodeId}
  {exit moved : NodeId → NodeId → Prop} {g' d : Graph} {a : Assembled} {placed : List Placed}
  {o p q : Placed} {j : Nat}
  (w : Written isa f 0 r first exit moved f') (hr : r.handler ∈ f.table.handlers)
  (b : Graph.ReadsBack isa f'.graph g' f'.entry f'.table.handlers a placed d)
include w b

theorem mem_layout (hl : f'.Live isa n) : n ∈ a.layout :=
  (b.laid.mem_iff n (w.valid.lt_of_live hl)).mpr hl

omit w in
theorem flags_kept (hn : n < f'.graph.size) : (g'.node n).flags isa = (f'.graph.node n).flags isa :=
  Node.flags_of_body isa (b.laid.kept n hn)

theorem opener_flags : (g'.node f.graph.size).flags isa = isa.flags isa.handlerSetup := by
  rw [flags_kept b w.size_lt, Node.flags, w.opener]

include hr

/-- Where nothing opened a block before, only the opener of the region does. -/
theorem opens_iff (hplain : f.Plain isa) (hn : n ∈ a.layout) :
    ((g'.node n).flags isa).handlerSetup = true ↔ n = f.graph.size := by
  constructor
  · intro hopens
    rcases Nat.lt_or_ge n f'.graph.size with hlt | hge
    · rw [flags_kept b hlt] at hopens
      have hnever : ∀ {k}, IsExit isa (f'.graph.node n) k → False := fun hexit => by
        rw [Node.flags, hexit.opcode, b.builtIn.blocks.exit.2.2.1] at hopens
        cases hopens
      cases w.place b.builtIn.blocks hr ((b.laid.mem_iff n hlt).mp hn) with
      | opener => rfl
      | old hl =>
        by_cases hreturned : n ∈ r.members ∧ ((f.graph.node n).flags isa).returns = true
        · obtain ⟨k, hk⟩ := w.exists_moved hl hreturned.1 hreturned.2
          exact absurd (w.moved_spec hk).2.2.1 hnever
        · have hopens' : ((f.graph.node n).flags isa).handlerSetup = true := by
            rwa [Node.flags, w.opcode_eq hl hreturned] at hopens
          rw [(hplain n hl).1] at hopens'
          cases hopens'
      | exit hk => exact absurd (w.exit_spec hk).2.1 hnever
      | moved hk =>
        obtain ⟨-, ⟨hl, -⟩, -, hopcode⟩ := w.moved_spec hk
        rw [Node.flags, hopcode] at hopens
        have hnot := (hplain _ hl).1
        rw [Node.flags, hopens] at hnot
        cases hnot
    · obtain ⟨-, t, -, -, hjump⟩ := b.laid.added n hn hge
      rw [Node.flags, (b.builtIn.keeps_blocks (Or.inr hjump.opcode)).1] at hopens
      cases hopens
  · rintro rfl
    rw [w.opener_flags b]
    exact b.builtIn.blocks.setup.2.2.1

omit hr in
theorem exists_opener : ∃ o ∈ placed, o.run.instruction = f.graph.size := by
  refine b.emits.exists_instruction (w.mem_layout b (w.live_opener b.builtIn.blocks)) ?_
  by_contra hext
  have hopens := (b.keeps_blocks_extension (Bool.eq_true_of_not_eq_false hext)).1
  rw [w.opener_flags b, b.builtIn.blocks.setup.2.2.1] at hopens
  cases hopens

omit hr in
theorem opener_branch {t : NodeId} (ht : (g'.node f.graph.size).branch = some t) :
    t = r.handler ∨ g'.JumpsTo isa t r.handler := by
  have hto : ∀ {k : NodeId}, (k, .branch) ∈ g'.edges isa f.graph.size → t = k := fun hk =>
    Option.some.inj (ht.symm.trans (Graph.branch?_eq_some.mp ((Graph.mem_edges ..).mp hk)).2)
  rcases b.laid.leads _ w.size_lt r.handler .branch (w.opener_edges.mpr (Or.inr ⟨rfl, rfl⟩)) with
    hdirect | ⟨j, -, hj, hjump⟩
  · exact Or.inl (hto hdirect)
  · exact Or.inr (hto hj ▸ hjump)

/-- The block of the region in the code. -/
theorem exists_block (hplain : f.Plain isa) : ∃ o ∈ placed, ∃ q ∈ placed,
    o.run.instruction = f.graph.size ∧ (d.node (o.start + o.width)).branch = some q.start ∧
      g'.BlockOf isa d a.layout r.handler f.graph.size (o.start + o.width) q.start := by
  obtain ⟨o, ho, hopener⟩ := w.exists_opener b
  have hjump : (g'.node o.run.instruction).isJump isa = true := by
    rw [hopener, Node.isJump, w.opener_flags b]
    exact b.builtIn.blocks.setup.2.1
  obtain ⟨t, ht, q, hq, hmem, hunit⟩ :=
    b.emits.unit_branch b.regular b.narrow b.unedited b.addressable ho hjump
  have hoffset := b.emits.offset_instruction ho
  rw [hopener] at ht hoffset
  exact ⟨o, ho, q, hq, hopener, hunit, fun n hn => w.opens_iff hr b hplain hn, hoffset, t, ht,
    w.opener_branch b ht, b.emits.begins b.regular b.narrow b.unedited b.laid.nodup hq hmem⟩

/-- **What is protected when the code is read.** -/
theorem handlerFor?_unit (hplain : f.Plain isa) (ho : o ∈ placed) (hq : q ∈ placed)
    (hopener : o.run.instruction = f.graph.size)
    (hunit : (d.node (o.start + o.width)).branch = some q.start) (hp : p ∈ placed)
    (hj : j ≤ p.width) :
    ((RegionTable.reconstruct isa d (List.range d.size)).handlerFor? (p.start + j) = some q.start ↔
      g'.InBlock isa f.graph.size (2 * (o.start + o.width)) (2 * q.start) p.run.instruction) ∧
    ((RegionTable.reconstruct isa d (List.range d.size)).handlerFor? (p.start + j) = none ↔
      ¬ g'.InBlock isa f.graph.size (2 * (o.start + o.width)) (2 * q.start) p.run.instruction) := by
  have hfalls : (g'.node o.run.instruction).fallsThrough isa = true := by
    rw [hopener, Node.fallsThrough, w.opener_flags b]
    exact b.builtIn.blocks.setup.1
  have hsetup : ((d.node (o.start + o.width)).flags isa).handlerSetup = true := by
    rw [b.unit_flags ho, hopener, w.opener_flags b]
    exact b.builtIn.blocks.setup.2.2.1
  have honly : ∀ k < d.size, ((d.node k).flags isa).handlerSetup = true →
      k = o.start + o.width := by
    intro k hk hopens
    obtain ⟨p, hp, j, hj, rfl⟩ := b.exists_place hk
    by_cases hlast : j < p.width
    · have hext := b.unit_extension hp hlast
      rw [(b.keeps_blocks_extension hext).1] at hopens
      cases hopens
    · obtain rfl : j = p.width := by omega
      rw [b.unit_flags hp, w.opens_iff hr b hplain (b.emits.instruction_mem hp)] at hopens
      obtain rfl := b.run_unique ho hp (List.mem_append_right _ List.mem_cons_self)
        (List.mem_append_right _ (List.mem_singleton.mpr (hopener.trans hopens.symm)))
      rfl
  have hlt := b.unit_lt ho (Nat.le_refl o.width)
  rw [← hopener, ← b.inBlock_iff ho hq hfalls hp hj]
  exact RegionTable.handlerFor?_reconstruct b.unedited.closed hlt hsetup honly hunit
    (b.offset_unit hlt) (b.offset_unit (b.unedited.closed.lt_of_branch hunit))

end Flattening.Written

theorem Graph.InBlock.over_jump {isa : InstructionSet} {g : Graph} {opener start stop n j : Nat}
    (hisa : isa.BuiltIn) (h : g.InBlock isa opener start stop j) (hjump : g.JumpsTo isa j n)
    (hbetween : RegionTable.isBetween g start stop n = true) :
    g.InBlock isa opener start stop n := by
  refine h.next ?_ ?_ hbetween
  · rw [Node.flags]
    exact (hisa.keeps_blocks (Or.inr hjump.opcode)).2
  · exact Graph.mem_targets.mpr (Or.inr (Graph.branch?_eq_some.mpr ⟨hjump.isJump, hjump.branch⟩))

/-- All that is laid out of the members, and all new jumps to them, lie strictly between two
offsets. -/
def Graph.Spans (isa : InstructionSet) (g g' : Graph) (layout : List NodeId) (members : NodeSet)
    (start stop : Nat) : Prop :=
  ∀ n ∈ layout, (n ∈ members ∨ g.size ≤ n ∧ ∃ m ∈ members, g'.JumpsTo isa n m) →
    RegionTable.isBetween g' start stop n = true

namespace Flattening

open Relaxation

variable {isa : InstructionSet} {f f' : Flattening} {i : Nat} {r : Region} {first n : NodeId}
  {exit moved : NodeId → NodeId → Prop}

/-- Execution gets to a member of the region without leaving it, once it has entered it. -/
theorem Written.reach_member (w : Written isa f i r first exit moved f')
    (hhandlers : ∀ h ∈ f.table.handlers, h ∉ r.members) (hl : f.Live isa n) (hn : n ∈ r.members) :
    Reach (fun p => (f.graph.targets isa p).filter r.members.contains) [first] n := by
  have hentered : ∀ {n}, f.Entered isa r.members n →
      Reach (fun p => (f.graph.targets isa p).filter r.members.contains) [first] n := fun h =>
    .root (List.mem_singleton.mpr ((w.entered_iff _).mp h))
  refine (Reach.induct (Q := fun n => f.Live isa n ∧ (n ∈ r.members →
    Reach (fun p => (f.graph.targets isa p).filter r.members.contains) [first] n))
    (fun root hroot => ⟨.root hroot, fun hmem => ?_⟩) (fun p n hp hn => ?_) hl).2 hn
  · rcases List.mem_cons.mp hroot with rfl | hroot
    · exact hentered ⟨.root List.mem_cons_self, hmem, Or.inl rfl⟩
    · exact absurd hmem (hhandlers root hroot)
  · obtain ⟨e, hedge⟩ := Graph.mem_targets_iff.mp hn
    refine ⟨hp.1.step hedge, fun hmem => ?_⟩
    by_cases hout : p ∈ r.members
    · exact (hp.2 hout).step (List.mem_filter.mpr ⟨hn, Std.HashSet.contains_iff_mem.mpr hmem⟩)
    · exact hentered ⟨hp.1.step hedge, hmem, Or.inr ⟨p, e, hp.1, hout, hedge⟩⟩

namespace Written

variable {g' d : Graph} {a : Assembled} {placed : List Placed} {start stop : Nat}
  (w : Written isa f 0 r first exit moved f')
  (b : Graph.ReadsBack isa f'.graph g' f'.entry f'.table.handlers a placed d)
  (hspans : f'.graph.Spans isa g' a.layout r.members start stop)
include w b hspans

/-- The block goes on inside the region, if its members and the jumps to them lie between the
offsets. -/
theorem inBlock_next {p : NodeId} {e : Edge} (hplain : f.Plain isa) (hp : f.Live isa p)
    (hpm : p ∈ r.members) (hedge : (n, e) ∈ f.graph.edges isa p) (hnm : n ∈ r.members)
    (h : g'.InBlock isa f.graph.size start stop p) : g'.InBlock isa f.graph.size start stop n := by
  have hlive := w.live_old b.builtIn.blocks hp
  have hlt := w.valid.lt_of_live hlive
  have hlaid := w.mem_layout b hlive
  have hexit : ((g'.node p).flags isa).blockExit = false := by
    rw [flags_kept b hlt, w.flags_of_edge b.builtIn.blocks hp hedge]
    exact (hplain p hp).2
  have hedge' : (n, e) ∈ f'.graph.edges isa p :=
    (w.inside_edges hp hpm (returns_eq_false b.builtIn.blocks hedge)).mpr
      (Or.inl ⟨hedge, fun hexiting => hexiting.outside hnm⟩)
  have hbetween := hspans n
    (w.mem_layout b (w.live_old b.builtIn.blocks (hp.step hedge))) (Or.inl hnm)
  rcases b.laid.leads p hlt n e hedge' with hdirect | ⟨j, hge, hj, hjump⟩
  · exact h.next hexit (Graph.mem_targets_iff.mpr ⟨e, hdirect⟩) hbetween
  · have hj := Graph.mem_targets_iff.mpr ⟨e, hj⟩
    have hjbetween := hspans j (b.target_mem hlaid hj) (Or.inr ⟨hge, n, hnm, hjump⟩)
    exact (h.next hexit hj hjbetween).over_jump b.builtIn hjump hbetween

theorem inBlock_first : g'.InBlock isa f.graph.size start stop first := by
  obtain ⟨hl, hm, -⟩ := (w.entered_iff first).mpr rfl
  have hbetween := hspans first (w.mem_layout b (w.live_old b.builtIn.blocks hl)) (Or.inl hm)
  have hsucc : ∀ {k}, (k, .fallthrough) ∈ g'.edges isa f.graph.size →
      (g'.node f.graph.size).successor = some k ∧ k ∈ a.layout := fun hk =>
    ⟨(Graph.fallthrough?_eq_some.mp ((Graph.mem_edges ..).mp hk)).2,
      b.target_mem (w.mem_layout b (w.live_opener b.builtIn.blocks))
        (Graph.mem_targets_iff.mpr ⟨_, hk⟩)⟩
  rcases b.laid.leads _ w.size_lt first .fallthrough (w.opener_edges.mpr (Or.inl ⟨rfl, rfl⟩)) with
    hdirect | ⟨j, hge, hj, hjump⟩
  · exact .first (hsucc hdirect).1 hbetween
  · obtain ⟨hs, hlaid⟩ := hsucc hj
    exact (Graph.InBlock.first hs (hspans j hlaid (Or.inr ⟨hge, first, hm, hjump⟩))).over_jump
      b.builtIn hjump hbetween

/-- **All of a region is in its block**, if it and the jumps to its members lie between the
offsets. -/
theorem inBlock_member (hplain : f.Plain isa) (hhandlers : ∀ h ∈ f.table.handlers, h ∉ r.members)
    (hl : f.Live isa n) (hn : n ∈ r.members) : g'.InBlock isa f.graph.size start stop n := by
  obtain ⟨hfirst, hmem, -⟩ := (w.entered_iff first).mpr rfl
  refine (Reach.induct (Q := fun n => (f.Live isa n ∧ n ∈ r.members) ∧
    g'.InBlock isa f.graph.size start stop n) (fun m hm => ?_) (fun p m hp hm => ?_)
    (w.reach_member hhandlers hl hn)).2
  · obtain rfl := List.mem_singleton.mp hm
    exact ⟨⟨hfirst, hmem⟩, w.inBlock_first b hspans⟩
  · obtain ⟨⟨hpl, hpm⟩, hblock⟩ := hp
    obtain ⟨hm, hmem⟩ := List.mem_filter.mp hm
    obtain ⟨e, hedge⟩ := Graph.mem_targets_iff.mp hm
    have hmem := Std.HashSet.contains_iff_mem.mp hmem
    exact ⟨⟨hpl.step hedge, hmem⟩, w.inBlock_next b hspans hplain hpl hpm hedge hmem hblock⟩

end Written
end Flattening

/-! ### Encoding and decoding -/

namespace CodeUnit

open Relaxation

variable {u u' v d : CodeUnit} {object : CodeObject} {stats : EncodeStats} {a : Assembled}
  {r : Region} {first : NodeId} {exit moved : NodeId → NodeId → Prop} {placed : List Placed}

/-- What writing the one declared region of a unit left behind. -/
theorem Encoded.exists_written (e : Encoded u u' object stats v a) (hisa : u.isa.BuiltIn)
    (hu : u.Valid) (hregions : u.exceptions.regions = [r]) (hdeclared : r.setup = none) :
    (⟨u.graph, u.entry, u.exceptions⟩ : Flattening).region u.isa 0 r =
      .ok ⟨v.graph, v.entry, v.exceptions⟩ ∧
    ∃ first exit moved, Flattening.Written u.isa ⟨u.graph, u.entry, u.exceptions⟩ 0 r first exit
      moved ⟨v.graph, v.entry, v.exceptions⟩ := by
  obtain ⟨f, hall, rfl⟩ := flatten_eq_ok e.flattened
  have hregion := Flattening.region_of_all hregions hdeclared hall
  have hplace : u.exceptions.regions[0]? = some r := by rw [hregions]; rfl
  exact ⟨hregion, Flattening.exists_written hu hisa.blocks hplace hregion⟩

/-- **Encoded code can be decoded**, if the numbers in it are 32 bit numbers. -/
theorem Encoded.exists_decode (e : Encoded u u' object stats v a) (hisa : u.isa.BuiltIn)
    (hu : u.Valid) (hraw : ∀ n value, (v.graph.node n).operand = .raw value → value < UInt32.size)
    (hfirst : u.header.firstlineno < UInt32.size)
    (hlines : ∀ n l, u.graph.line n = some l → l < UInt32.size)
    (hpools : object.pools.Indexable) (hshort : object.code.length < UInt32.size) :
    ∃ placed lines d, decode u.isa object = .ok d ∧ Decoded u.isa object a.words lines d ∧
      Graph.ReadsBack u.isa v.graph u'.graph v.entry v.exceptions.handlers a placed d.graph := by
  obtain ⟨hlaid, placed, he⟩ := e.emits hisa hu
  have hcode : object.code = a.code := by rw [e.object_eq]; rfl
  have hpools' : object.pools = a.pools := by rw [e.object_eq]; rfl
  have hheader : object.header.firstlineno = u.header.firstlineno := by
    rw [e.object_eq, ← e.header_eq]
    rfl
  have hraw' : ∀ n ∈ a.layout, ∀ value, (u'.graph.node n).operand = .raw value →
      value < UInt32.size := by
    intro n hn value hv
    rcases Nat.lt_or_ge n v.graph.size with hlt | hge
    · rw [Node.operand_of_body (hlaid.kept n hlt)] at hv
      exact hraw n value hv
    · obtain ⟨-, t, -, -, hjump⟩ := hlaid.added n hn hge
      rw [hjump.operand] at hv
      cases hv
  have hnarrow : ∀ p ∈ placed, p.operand < UInt32.size := fun p hp =>
    he.operand_lt hisa.regular hraw' (hpools' ▸ hpools) hp
  rw [hcode, Assembled.length_code] at hshort
  have haddr := he.addressable_of_short hshort
  obtain ⟨g, hstream, hreads⟩ := he.exists_decode hisa.regular hnarrow hlaid haddr
  obtain ⟨-, hread⟩ := e.decode_lineTable hisa hu hfirst hlines he
  rw [← hreads.size_eq, ← hheader] at hread
  have hdecode : ∃ d, decode u.isa object = .ok d := by
    rw [← hcode, ← hpools'] at hstream
    simp only [decode, hstream, hread]
    exact ⟨_, rfl⟩
  obtain ⟨d, hd⟩ := hdecode
  obtain ⟨words, lines, hdecoded⟩ := exists_decoded hd
  obtain rfl : a.words = words := eq_of_flatMap_toBytes (hcode.symm.trans hdecoded.code_eq)
  exact ⟨placed, lines, d, hd, hdecoded, ⟨hisa.regular, hlaid, he, hnarrow, haddr,
    hpools' ▸ hdecoded.unedited⟩, hisa⟩

/-- **What of a declared region is protected when the code is read.** The region is the only one,
and nothing else opened or closed a block. The code that is read has one opener then, at unit
`start`, which leads to the handler or to a jump to it, at unit `stop`. An instruction of the region
is protected, by what stands at `stop`, exactly if execution gets to it from behind the opener
without leaving the code between these units or going past an exit; no other is protected at all.
If all of the region was laid out there, with the jumps that were added to lead to it, all of it is
protected. -/
theorem handlerFor?_decode_encode (hisa : u.isa.BuiltIn) (hu : u.Valid)
    (hregions : u.exceptions.regions = [r]) (hdeclared : r.setup = none)
    (hhandler : r.handler ∉ r.members)
    (hplain : (⟨u.graph, u.entry, u.exceptions⟩ : Flattening).Plain u.isa)
    (hraw : ∀ n value, (u.graph.node n).operand = .raw value → value < UInt32.size)
    (hfirst : u.header.firstlineno < UInt32.size)
    (hlines : ∀ n l, u.graph.line n = some l → l < UInt32.size)
    (h : u.encode = (u', .ok (object, stats))) (hpools : object.pools.Indexable)
    (hshort : object.code.length < UInt32.size) :
    ∃ v a d opener start stop, Encoded u u' object stats v a ∧ decode u.isa object = .ok d ∧
      u'.graph.BlockOf u.isa d.graph a.layout r.handler opener start stop ∧
      (∀ n ∈ r.members, u.graph.Live u.isa u.roots n → ∃ i k,
        u'.graph.instructionFrom? u.isa a.layout n = some i ∧
        (u'.graph.node i).offset = some (2 * k) ∧
        (d.exceptions.handlerFor? k = some stop ↔
          u'.graph.InBlock u.isa opener (2 * start) (2 * stop) i) ∧
        (d.exceptions.handlerFor? k = none ↔
          ¬ u'.graph.InBlock u.isa opener (2 * start) (2 * stop) i)) ∧
      (v.graph.Spans u.isa u'.graph a.layout r.members (2 * start) (2 * stop) →
        ∀ n ∈ r.members, u.graph.Live u.isa u.roots n → ∃ i k,
          u'.graph.instructionFrom? u.isa a.layout n = some i ∧
          (u'.graph.node i).offset = some (2 * k) ∧ d.exceptions.handlerFor? k = some stop) := by
  obtain ⟨v, a, e⟩ := exists_encoded h
  obtain ⟨hregion, first, exit, moved, w⟩ := e.exists_written hisa hu hregions hdeclared
  have hraw' : ∀ n value, (v.graph.node n).operand = .raw value → value < UInt32.size := fun n =>
    Flattening.operands_region (P := fun operand => ∀ value, operand = .raw value →
      value < UInt32.size) (fun _ h => nomatch h) (fun _ h => nomatch h) hregion hraw n
  obtain ⟨placed, lines, d, hd, hdecoded, b⟩ :=
    e.exists_decode hisa hu hraw' hfirst hlines hpools hshort
  have hhandlers : ∀ k, k ∈ u.exceptions.handlers ↔ k = r.handler := fun k => by
    rw [RegionTable.mem_handlers, hregions]
    simp [eq_comm]
  obtain ⟨o, ho, q, hq, hopener, hunit, hblock⟩ :=
    w.exists_block ((hhandlers _).mpr rfl) b hplain
  have hplaced : ∀ n, u.graph.Live u.isa u.roots n → ∃ p ∈ placed, n ∈ p.run.nodes ∧
      u'.graph.instructionFrom? u.isa a.layout n = some p.run.instruction := fun n hl => by
    obtain ⟨p, hp, hnodes⟩ := b.emits.exists_run (w.mem_layout b (w.live_old hisa.blocks hl))
    exact ⟨p, hp, hnodes, b.emits.instructionFrom?_eq b.laid.nodup hp hnodes⟩
  have hprotected := fun p (hp : p ∈ placed) => w.handlerFor?_unit ((hhandlers _).mpr rfl) b hplain
    ho hq hopener hunit hp (Nat.le_refl p.width)
  rw [← hdecoded.exceptions_eq] at hprotected
  refine ⟨v, a, d, _, _, _, e, hd, hblock, fun n _ hl => ?_, fun hspans n hn hl => ?_⟩
  · obtain ⟨p, hp, -, hfrom⟩ := hplaced n hl
    exact ⟨_, _, hfrom, b.emits.offset_instruction hp, hprotected p hp⟩
  · obtain ⟨p, hp, hnodes, hfrom⟩ := hplaced n hl
    have hin := w.inBlock_member b hspans hplain
      (fun k hk => (hhandlers k).mp hk ▸ hhandler) hl hn
    exact ⟨_, _, hfrom, b.emits.offset_instruction hp,
      (hprotected p hp).1.mpr (b.inBlock_instruction ho hq hp hnodes hin)⟩

end CodeUnit

/-! ### Two jumps around their handler -/

namespace CodeUnit

open Relaxation Assembly

/-- Two jumps to each other around the handler of both. -/
def aroundHandler : CodeUnit where
  isa := .python38
  graph := ⟨#[{ opcode := ⟨113⟩, operand := .jump, branch := some 2, offset := some 0 },
    { opcode := ⟨83⟩, offset := some 2 },
    { opcode := ⟨113⟩, operand := .jump, branch := some 0, offset := some 4 }]⟩
  entry := 0
  pools := {}
  header := {}
  exceptions := ⟨[⟨none, 1, Std.HashSet.ofList [0, 2]⟩]⟩

namespace aroundHandler

/-- The region of the two jumps. -/
def jumps : Region := ⟨none, 1, Std.HashSet.ofList [0, 2]⟩

/-- The graph when the region has been written. -/
def opened : Graph := ⟨#[{ opcode := ⟨113⟩, operand := .jump, branch := some 2, offset := some 0 },
    { opcode := ⟨83⟩, offset := some 2 },
    { opcode := ⟨113⟩, operand := .jump, branch := some 0, offset := some 4 },
    { opcode := ⟨122⟩, operand := .jump, successor := some 0, branch := some 1 }]⟩

theorem mem_jumps {n : NodeId} : n ∈ jumps.members ↔ n = 0 ∨ n = 2 := by
  rw [jumps, Std.HashSet.mem_ofList, List.contains_iff_mem, List.mem_pair]

/-- The flags of its instructions. -/
def kinds : List Flags :=
  [{ hasArgument := true, jumpAbsolute := true, unconditional := true },
    { stopsFlow := true, returns := true },
    { hasArgument := true, jumpAbsolute := true, unconditional := true },
    { hasArgument := true, jumpRelative := true, handlerSetup := true }]

theorem flags_of_opcode {node : Node} : ∀ n < 4, node.opcode = (opened.node n).opcode →
    node.flags .python38 = kinds.getD n {} := by
  have hflags : ∀ n < 4, (opened.node n).flags .python38 = kinds.getD n {} := by
    simp only [Node.flags, InstructionSet.flags, InstructionSet.info_python38]
    decide +kernel
  intro n hn h
  rw [← hflags n hn, Node.flags, Node.flags, h]

theorem flags_opened (n : Nat) (hn : n < 4) : (opened.node n).flags .python38 = kinds.getD n {} :=
  flags_of_opcode n hn rfl

theorem flags_graph (n : Nat) (hn : n < 3) :
    (aroundHandler.graph.node n).flags .python38 = kinds.getD n {} := by
  refine flags_of_opcode n (Nat.lt_succ_of_lt hn) ?_
  revert n
  decide

theorem edges_opened (n : Nat) (hn : n < 4) : opened.edges .python38 n =
    [[(2, .branch)], [], [(0, .branch)], [(0, .fallthrough), (1, .branch)]].getD n [] := by
  simp only [Graph.edges, Graph.fallthrough?, Graph.branch?, Node.fallsThrough, Node.isJump,
    flags_opened n hn]
  revert n
  decide

theorem edges_graph (n : Nat) (hn : n < 3) : aroundHandler.graph.edges .python38 n =
    [[(2, .branch)], [], [(0, .branch)]].getD n [] := by
  simp only [Graph.edges, Graph.fallthrough?, Graph.branch?, Node.fallsThrough, Node.isJump,
    flags_graph n hn]
  revert n
  decide

/-- Before the region is written. -/
def flattening : Flattening := ⟨aroundHandler.graph, aroundHandler.entry, aroundHandler.exceptions⟩

theorem handlers_eq : aroundHandler.exceptions.handlers = [1] := by
  simp [aroundHandler, RegionTable.handlers, firsts, explore, exploreFrom]

theorem valid : aroundHandler.Valid := by
  refine ⟨by decide, by decide, fun h hh => ?_, fun r hr _ n hn => ?_⟩
  · change h ∈ aroundHandler.exceptions.handlers at hh
    rw [handlers_eq] at hh
    obtain rfl := List.mem_singleton.mp hh
    decide
  · obtain rfl := List.mem_singleton.mp hr
    rcases mem_jumps.mp hn with rfl | rfl <;> decide

theorem mem_jumps_of_edge {n m : NodeId} {e : Edge} (hn : n < 3)
    (h : (m, e) ∈ aroundHandler.graph.edges .python38 n) : n ∈ jumps.members := by
  rw [edges_graph n hn] at h
  match n, hn with
  | 0, _ => exact mem_jumps.mpr (Or.inl rfl)
  | 1, _ => cases h
  | 2, _ => exact mem_jumps.mpr (Or.inr rfl)

theorem entered_iff (n : NodeId) : flattening.Entered .python38 jumps.members n ↔ n = 0 := by
  constructor
  · rintro ⟨-, -, rfl | ⟨p, e, hp, hout, hedge⟩⟩
    · rfl
    · exact absurd (mem_jumps_of_edge (valid.lt_of_live hp) hedge) hout
  · rintro rfl
    exact ⟨.root List.mem_cons_self, mem_jumps.mpr (Or.inl rfl), Or.inl rfl⟩

theorem atMember_opened {n : Nat} (hn : n = 0 ∨ n = 2) :
    Flattening.Exits.atMember .python38 jumps.members.contains { graph := opened } n =
      { graph := opened } := by
  have hzero : jumps.members.contains 0 = true :=
    Std.HashSet.contains_iff_mem.mpr (mem_jumps.mpr (Or.inl rfl))
  have htwo : jumps.members.contains 2 = true :=
    Std.HashSet.contains_iff_mem.mpr (mem_jumps.mpr (Or.inr rfl))
  have hlt : n < 4 := by omega
  simp only [Flattening.Exits.atMember, flags_opened n hlt, edges_opened n hlt]
  rcases hn with rfl | rfl <;> simp [kinds, Flattening.leaves, hzero, htwo]

theorem graph_written : (flattening.written .python38 0 jumps 0).graph = opened := by
  have houtside : flattening.outsideOf .python38 jumps.members 0 = [] := by
    refine List.eq_nil_iff_forall_not_mem.mpr fun p hp => ?_
    obtain ⟨hl, hout, hedge⟩ := (Flattening.mem_outsideOf valid).mp hp
    exact hout (mem_jumps_of_edge (valid.lt_of_live hl) hedge)
  have hopened : flattening.withOpener .python38 jumps 0 = opened := by
    rw [Flattening.withOpener, houtside]
    rfl
  have hcloses : ∀ members : List NodeId, (∀ n ∈ members, n = 0 ∨ n = 2) →
      members.foldl (Flattening.Exits.atMember .python38 jumps.members.contains) { graph := opened } =
        { graph := opened } := by
    intro members
    induction members with
    | nil => exact fun _ => rfl
    | cons n members ih =>
      intro h
      rw [List.foldl_cons, atMember_opened (h n List.mem_cons_self)]
      exact ih fun m hm => h m (List.mem_cons_of_mem n hm)
  show (flattening.withExits .python38 jumps 0).graph = opened
  rw [Flattening.withExits, hopened, hcloses]
  exact fun n hn => mem_jumps.mp ((Flattening.mem_membersOf valid).mp hn).2

theorem region_eq : flattening.region .python38 0 jumps =
    .ok (flattening.written .python38 0 jumps 0) :=
  (Flattening.region_eq_ok_iff valid).mpr ⟨0, entered_iff, rfl⟩

/-! #### The code -/

theorem closed_opened : opened.Closed := by decide

theorem roots_opened : ∀ r ∈ [3, 1], r < opened.size := by decide

theorem live_opened (n : Nat) : n ∈ [0, 1, 2, 3] ↔ opened.Live .python38 [3, 1] n := by
  have hopener : opened.Live .python38 [3, 1] 3 := .root (by decide)
  have hstep : ∀ {p m e}, p < 4 → opened.Live .python38 [3, 1] p →
      (m, e) ∈ [[(2, Edge.branch)], [], [(0, .branch)], [(0, .fallthrough), (1, .branch)]].getD p [] →
      opened.Live .python38 [3, 1] m := fun hp hl h =>
    hl.step (Graph.mem_targets_iff.mpr ⟨_, (edges_opened _ hp).symm ▸ h⟩)
  have hfirst := hstep (m := 0) (e := .fallthrough) (by decide) hopener (by decide)
  have hsecond := hstep (m := 2) (e := .branch) (by decide) hfirst (by decide)
  constructor
  · intro hn
    simp only [List.mem_cons, List.not_mem_nil, or_false] at hn
    rcases hn with rfl | rfl | rfl | rfl
    · exact hfirst
    · exact .root (by decide)
    · exact hsecond
    · exact hopener
  · intro hl
    have hlt : n < 4 := closed_opened.lt_of_live roots_opened hl
    simp only [List.mem_cons, List.not_mem_nil, or_false]
    omega

theorem fallthrough_opened (n : Nat) (hn : n < 4) : opened.fallthrough? .python38 n =
    if n = 3 then some 0 else none := by
  simp only [Graph.fallthrough?, Node.fallsThrough, flags_opened n hn]
  revert n
  decide

theorem order_opened : Layout.order .python38 opened 3 (opened.reachable .python38 [3, 1]) =
    [3, 0, 1, 2] := by
  have hsorted := Layout.mergeSort_of_ascending closed_opened roots_opened live_opened (by decide)
  rw [Layout.order, hsorted]
  have h0 := fallthrough_opened 0 (by decide)
  have h1 := fallthrough_opened 1 (by decide)
  have h3 := fallthrough_opened 3 (by decide)
  have hsize : opened.size = 4 := rfl
  simp [Graph.chains, explore, exploreFrom, hsize, h0, h1, h3]

/-- The graph as it is emitted. -/
def emitted : Graph := ⟨#[{ opcode := ⟨113⟩, operand := .jump, branch := some 2, offset := some 2 },
    { opcode := ⟨83⟩, offset := some 4 },
    { opcode := ⟨113⟩, operand := .jump, branch := some 0, offset := some 6 },
    { opcode := ⟨122⟩, operand := .jump, successor := some 0, branch := some 1,
      offset := some 0 }]⟩

/-- The code. -/
def code : Assembled where
  words := [⟨⟨122⟩, 2⟩, ⟨⟨113⟩, 6⟩, ⟨⟨83⟩, 0⟩, ⟨⟨113⟩, 2⟩]
  pools := {}
  layout := [3, 0, 1, 2]
  units := [0, 1, 2, 3]
  stats := ⟨1, 0⟩

/-- Where the instructions are placed. -/
def placed : List Placed :=
  [⟨⟨[], 3, 0⟩, 0, 0, 2⟩, ⟨⟨[], 0, 0⟩, 1, 0, 6⟩, ⟨⟨[], 1, 0⟩, 2, 0, 0⟩, ⟨⟨[], 2, 0⟩, 3, 0, 2⟩]

theorem flags_emitted (n : Nat) (hn : n < 4) :
    (emitted.node n).flags .python38 = kinds.getD n {} := by
  refine flags_of_opcode n hn ?_
  revert n
  decide

theorem isExtension_emitted : ∀ n < 4, (emitted.node n).isExtension .python38 = false := by
  intro n hn
  rw [Node.isExtension, flags_emitted n hn]
  revert n
  decide

theorem linearize_opened : opened.linearize .python38 3 [1] = .ok (emitted, [3, 0, 1, 2]) := by
  have hisa : InstructionSet.python38.BuiltIn := Or.inl rfl
  have hlt : ∀ n ∈ [3, 0, 1, 2], n < 4 := by decide
  refine Graph.linearize_of_order hisa.regular closed_opened roots_opened (fun n hl => ?_)
    order_opened (fun n hn s hs => ?_) fun n hn hrelative t ht => ?_
  · have hlt : n < 4 := closed_opened.lt_of_live roots_opened hl
    simp only [Graph.HasEdges, Node.fallsThrough, Node.isJump, flags_opened n hlt]
    clear hl
    revert n
    decide
  · rw [fallthrough_opened n (hlt n hn)] at hs
    split at hs
    · case _ heq =>
      obtain rfl := heq
      obtain rfl := Option.some.inj hs
      exact ⟨[], [1, 2], rfl⟩
    · cases hs
  · rw [flags_opened n (hlt n hn)] at hrelative
    have hopener : ∀ n < 4, (kinds.getD n {}).jumpRelative = true → n = 3 := by decide
    obtain rfl := hopener n (hlt n hn) hrelative
    obtain rfl : 1 = t := Option.some.inj ht
    decide

theorem collect_emitted : collect .python38 emitted [3, 0, 1, 2] (.ofPools {}) #[] =
    .ok (#[.ready 0, .ready 0, .ready 0, .ready 0], .ofPools {}) := by
  have hfits : ∀ n < 4, (emitted.node n).operand.fits
      (InstructionSet.python38.info (emitted.node n).opcode).operand = true := by
    simp only [InstructionSet.info_python38]
    decide +kernel
  simp only [collect, isExtension_emitted, hfits, Nat.reduceLT, Bool.false_eq_true, if_false,
    if_true]
  rfl

/-- A jump asks for the operand that leads to the run of its target. -/
theorem asks_jump {p q : Placed} (hq : q ∈ placed) (hlt : p.run.instruction < 4)
    (hne : p.run.instruction ≠ 1)
    (hb : (emitted.node p.run.instruction).branch = some q.run.instruction)
    (hd : distance .python38 (kinds.getD p.run.instruction {})
      (emitted.node p.run.instruction).opcode p.start p.width q.start = .ok p.operand) :
    Asks .python38 emitted placed p := by
  have hjump : ∀ n < 4, n ≠ 1 → (emitted.node n).isJump .python38 = true := by
    intro n hn
    rw [Node.isJump, flags_emitted n hn]
    revert n
    decide
  rw [← flags_emitted _ hlt] at hd
  refine ⟨fun hnot => ?_, fun _ => ⟨_, q, hq, hb, List.mem_append_right _ List.mem_cons_self, hd⟩⟩
  rw [hjump _ hlt hne] at hnot
  cases hnot

theorem asks_emitted : ∀ p ∈ placed, extraDigits p.operand ≤ p.width ∧
    Asks .python38 emitted placed p := by
  intro p hp
  simp only [placed, List.mem_cons, List.not_mem_nil, or_false] at hp
  rcases hp with rfl | rfl | rfl | rfl
  · exact ⟨by decide, asks_jump (q := ⟨⟨[], 1, 0⟩, 2, 0, 0⟩) (by simp [placed]) (by decide)
      (by decide) rfl rfl⟩
  · exact ⟨by decide, asks_jump (q := ⟨⟨[], 2, 0⟩, 3, 0, 2⟩) (by simp [placed]) (by decide)
      (by decide) rfl rfl⟩
  · refine ⟨by decide, fun _ => rfl, fun hj => ?_⟩
    rw [Node.isJump, flags_emitted 1 (by decide)] at hj
    cases hj
  · exact ⟨by decide, asks_jump (q := ⟨⟨[], 0, 0⟩, 1, 0, 6⟩) (by simp [placed]) (by decide)
      (by decide) rfl rfl⟩

theorem assemble_opened : opened.assemble .python38 3 [1] {} = (emitted, .ok code) := by
  have hruns : runsOf .python38 emitted [3, 0, 1, 2] [0, 0, 0, 0] =
      .ok [⟨[], 3, 0⟩, ⟨[], 0, 0⟩, ⟨[], 1, 0⟩, ⟨[], 2, 0⟩] := by
    simp [runsOf, addToRuns, isExtension_emitted]
  have hrelax := relax_of_fits (by decide) (by rfl) hruns (rfl : [2, 6, 0, 2].length = _)
    asks_emitted
  have hplaced : place 0 [⟨[], 3, 0⟩, ⟨[], 0, 0⟩, ⟨[], 1, 0⟩, ⟨[], 2, 0⟩] [0, 0, 0, 0]
    [2, 6, 0, 2] = placed := rfl
  have hwords : placed.flatMap (wordsOf .python38 emitted) = code.words := by decide
  have hbind : bind emitted (placed.flatMap offsetsOf) = emitted := rfl
  simp only [List.map_cons, List.map_nil, List.length_nil, hplaced, hwords, hbind] at hrelax
  exact Graph.assemble_of_steps linearize_opened collect_emitted rfl hrelax

/-- The unit when the region has been written. -/
def flattened : CodeUnit :=
  let f := flattening.written .python38 0 jumps 0
  { aroundHandler with graph := f.graph, entry := f.entry, exceptions := f.table }

/-- The unit that encoding leaves behind. -/
def after : CodeUnit :=
  { flattened with
    graph := emitted
    header := encodedHeader emitted 3 {} {} .python38 }

theorem encoded :
    Encoded aroundHandler after (flattened.written emitted code) code.stats flattened code where
  flattened := by
    have hall : flattening.all .python38 = (flattening.written .python38 0 jumps 0, .ok ()) := by
      rw [Flattening.all_singleton (r := jumps) rfl rfl, region_eq]
    have hall' : Flattening.all aroundHandler.isa
      ⟨aroundHandler.graph, aroundHandler.entry, aroundHandler.exceptions⟩ = _ := hall
    simp only [flatten, hall']
    rfl
  assembled := by
    have hhandlers : flattened.exceptions.handlers = [1] :=
      (Flattening.handlers_written rfl).trans handlers_eq
    rw [hhandlers]
    show (flattening.written .python38 0 jumps 0).graph.assemble .python38 3 [1] {} = _
    rw [graph_written]
    exact assemble_opened
  after := rfl
  object_eq := rfl
  stats_eq := rfl

/-! #### What is asked of the unit -/

theorem plain : flattening.Plain .python38 := by
  intro n hl
  have hn : n < 3 := valid.lt_of_live hl
  show ((aroundHandler.graph.node n).flags .python38).handlerSetup = false ∧
    ((aroundHandler.graph.node n).flags .python38).blockExit = false
  rw [flags_graph n hn]
  clear hl
  revert n
  decide

theorem handler_not_mem : jumps.handler ∉ jumps.members := fun h => by
  rcases mem_jumps.mp h with h | h <;> cases h

theorem node_graph (n : NodeId) : ((aroundHandler.graph.node n).operand = .jump ∨
    (aroundHandler.graph.node n).operand = .none) ∧ (aroundHandler.graph.node n).position = none := by
  by_cases hn : n < 3
  · match n, hn with
    | 0, _ => exact ⟨Or.inl rfl, rfl⟩
    | 1, _ => exact ⟨Or.inr rfl, rfl⟩
    | 2, _ => exact ⟨Or.inl rfl, rfl⟩
  · rw [Graph.node_of_size_le (Nat.not_lt.mp hn)]
    exact ⟨Or.inr rfl, rfl⟩

theorem raw_lt (n : NodeId) (value : Nat) (h : (aroundHandler.graph.node n).operand = .raw value) :
    value < UInt32.size := by
  rcases (node_graph n).1 with hn | hn <;> rw [hn] at h <;> cases h

theorem line_lt (n : NodeId) (l : Nat) (h : aroundHandler.graph.line n = some l) :
    l < UInt32.size := by
  rw [Graph.line, (node_graph n).2] at h
  cases h

theorem live_second : aroundHandler.graph.Live .python38 aroundHandler.roots 2 :=
  Reach.step (.root List.mem_cons_self)
    (Graph.mem_targets_iff.mpr ⟨.branch, edges_graph 0 (by decide) ▸ List.mem_cons_self⟩)

end aroundHandler

/-- The first of two jumps around their handler is got to from the opener. -/
theorem handlerFor?_decode_encode_around :
    (aroundHandler.isa.BuiltIn ∧ aroundHandler.Valid ∧
      aroundHandler.exceptions.regions = [aroundHandler.jumps] ∧
      aroundHandler.jumps.setup = none ∧ aroundHandler.jumps.handler ∉ aroundHandler.jumps.members ∧
      aroundHandler.flattening.Plain .python38) ∧
    ∃ u' object stats, aroundHandler.encode = (u', .ok (object, stats)) ∧
      ∃ v a d opener start stop, Encoded aroundHandler u' object stats v a ∧
        decode .python38 object = .ok d ∧
        u'.graph.BlockOf .python38 d.graph a.layout 1 opener start stop ∧
        ∃ i k, u'.graph.instructionFrom? .python38 a.layout 0 = some i ∧
          (u'.graph.node i).offset = some (2 * k) ∧
          (d.exceptions.handlerFor? k = some stop ↔
            u'.graph.InBlock .python38 opener (2 * start) (2 * stop) i) ∧
          (d.exceptions.handlerFor? k = none ↔
            ¬ u'.graph.InBlock .python38 opener (2 * start) (2 * stop) i) := by
  have hisa : aroundHandler.isa.BuiltIn := Or.inl rfl
  have henc := aroundHandler.encoded.encode_eq
  obtain ⟨v, a, d, opener, start, stop, e, hd, hblock, hprotected, -⟩ :=
    handlerFor?_decode_encode hisa aroundHandler.valid (r := aroundHandler.jumps) rfl rfl
      aroundHandler.handler_not_mem aroundHandler.plain aroundHandler.raw_lt (by decide)
      aroundHandler.line_lt henc ⟨by decide, by decide, by decide, by decide⟩ (by decide)
  exact ⟨⟨hisa, aroundHandler.valid, rfl, rfl, aroundHandler.handler_not_mem,
      aroundHandler.plain⟩,
    _, _, _, henc, v, a, d, opener, start, stop, e, hd, hblock,
    hprotected 0 (aroundHandler.mem_jumps.mpr (Or.inl rfl)) (.root List.mem_cons_self)⟩

/-- **A declared region need not be protected when the code is read.** The second of two jumps
around their handler is laid out behind it, beyond the span that is searched. -/
theorem exists_unprotected :
    (aroundHandler.isa.BuiltIn ∧ aroundHandler.Valid ∧
      aroundHandler.exceptions.regions = [aroundHandler.jumps] ∧
      aroundHandler.jumps.setup = none ∧ aroundHandler.jumps.handler ∉ aroundHandler.jumps.members ∧
      aroundHandler.flattening.Plain .python38) ∧
    2 ∈ aroundHandler.jumps.members ∧
    aroundHandler.graph.Live .python38 aroundHandler.roots 2 ∧
    ∃ u' object stats d, aroundHandler.encode = (u', .ok (object, stats)) ∧
      decode .python38 object = .ok d ∧
      (u'.graph.node 2).offset = some 6 ∧ d.exceptions.handlerFor? 3 = none := by
  have hisa : aroundHandler.isa.BuiltIn := Or.inl rfl
  have e := aroundHandler.encoded
  have hr : (1 : NodeId) ∈ aroundHandler.exceptions.handlers := by
    rw [aroundHandler.handlers_eq]
    exact List.mem_singleton_self 1
  obtain ⟨hregion, first, exit, moved, w⟩ :=
    e.exists_written hisa aroundHandler.valid (r := aroundHandler.jumps) rfl rfl
  have hraw : ∀ n value, (aroundHandler.flattened.graph.node n).operand = .raw value →
      value < UInt32.size := fun n =>
    Flattening.operands_region (P := fun operand => ∀ value, operand = .raw value →
      value < UInt32.size) (fun _ h => nomatch h) (fun _ h => nomatch h) hregion
      aroundHandler.raw_lt n
  obtain ⟨placed, lines, d, hd, hdecoded, b⟩ := e.exists_decode hisa aroundHandler.valid hraw
    (by decide) aroundHandler.line_lt ⟨by decide, by decide, by decide, by decide⟩ (by decide)
  obtain ⟨o, ho, q, hq, hopener, hunit, hblock⟩ := w.exists_block hr b aroundHandler.plain
  obtain ⟨p, hp, hinstruction⟩ := b.emits.exists_instruction (n := 2) (by decide)
    (aroundHandler.isExtension_emitted 2 (by decide))
  have hunits : 6 = 2 * (p.start + p.width) := by
    have hoffset := b.emits.offset_instruction hp
    rw [hinstruction] at hoffset
    exact Option.some.inj hoffset
  -- the handler stands at the unit before
  have hstop : q.start ≤ 2 := by
    obtain ⟨t, ht, -, n, k, hfrom, hoffset, hq⟩ := hblock.leads
    obtain rfl : 1 = t := Option.some.inj ht
    have hfrom' : aroundHandler.emitted.instructionFrom? .python38 [3, 0, 1, 2] 1 = some 1 := by
      simp [Graph.instructionFrom?, aroundHandler.isExtension_emitted]
    obtain rfl : 1 = n := Option.some.inj (hfrom'.symm.trans hfrom)
    have hk : 4 = 2 * k := Option.some.inj hoffset
    have hle := Graph.firstOfRun_le (g := d.graph) aroundHandler.isa k
    omega
  have hprotected := (w.handlerFor?_unit hr b aroundHandler.plain ho hq hopener hunit hp
    (Nat.le_refl p.width)).2.mpr fun hin => by
      obtain ⟨offset, hoffset, -, hlt⟩ := RegionTable.isBetween_iff.mp hin.isBetween
      rw [hinstruction] at hoffset
      obtain rfl : 6 = offset := Option.some.inj hoffset
      omega
  refine ⟨⟨hisa, aroundHandler.valid, rfl, rfl, aroundHandler.handler_not_mem,
      aroundHandler.plain⟩,
    aroundHandler.mem_jumps.mpr (Or.inr rfl), aroundHandler.live_second, _, _, _, d, e.encode_eq,
    hd, rfl, ?_⟩
  have hthree : p.start + p.width = 3 := by omega
  rwa [hthree, ← hdecoded.exceptions_eq] at hprotected

end CodeUnit

end Wordcode
