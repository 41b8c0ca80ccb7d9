/-
# What a layout is

Laying out a graph fails exactly when execution can get to a node that lacks an
edge its flags ask for. Otherwise the layout holds every node that execution can
get to, once, and besides them only new jumps; every instruction that falls
through stands right before its successor, every relative jump stands before its
target, and each edge still leads where it led, over at most one new jump
(`Graph.Laid`).

The two repairs run one after the other. The second one changes branch targets
alone and adds jumps at the end, so the neighbours that the first one established
stay neighbours; and no jump of the first one goes the wrong way, so the second
one leaves them alone and every new jump leads to a node of the old graph.

Key definitions: `Graph.JumpsTo`, `Graph.Leads`, `Graph.Laid`.
Key theorems: `Graph.linearize_eq_ok`, `Graph.repaired_of_linearize`,
`Graph.laid_of_linearize`, `Graph.linearize_lays_out`.
-/
import Wordcode.Assembly
import Wordcode.Proofs.BuiltIn
import Wordcode.Proofs.Detours
import Wordcode.Proofs.Reachability

namespace Wordcode

namespace Graph

open List

/-- The node does nothing but jump to `t`, as the assembler writes jumps. -/
structure JumpsTo (isa : InstructionSet) (g : Graph) (j t : Nat) : Prop where
  opcode : (g.node j).opcode = isa.jumpForward ∨ (g.node j).opcode = isa.jumpAbsolute
  isJump : (g.node j).isJump isa = true
  unconditional : ((g.node j).flags isa).unconditional = true
  operand : (g.node j).operand = .jump
  branch : (g.node j).branch = some t

/-- The edge `e` of `n` leads to `m` in `g'`, directly or over one jump that was
added to `g`. -/
def Leads (isa : InstructionSet) (g g' : Graph) (n : Nat) (e : Edge) (m : Nat) : Prop :=
  (m, e) ∈ g'.edges isa n ∨ ∃ j, g.size ≤ j ∧ (j, e) ∈ g'.edges isa n ∧ g'.JumpsTo isa j m

/-- `layout` is a layout of what execution can get to in `g` from `entry` and
`handlers`, and `g'` is the graph with the jumps that were added. -/
structure Laid (isa : InstructionSet) (g g' : Graph) (entry : NodeId) (handlers : List NodeId)
    (layout : List Nat) : Prop where
  head : layout.head? = some entry
  nodup : layout.Nodup
  /-- The nodes of the graph in it are those that execution can get to. -/
  mem_iff : ∀ n < g.size, n ∈ layout ↔ g.Live isa (entry :: handlers) n
  /-- All others are new jumps, to nodes of the graph. -/
  added : ∀ j ∈ layout, g.size ≤ j →
    j < g'.size ∧ ∃ t ∈ layout, t < g.size ∧ g'.JumpsTo isa j t
  /-- It ends in an instruction that does not fall through. -/
  last : ∀ n, layout.getLast? = some n → (g'.node n).fallsThrough isa = false
  /-- An instruction that falls through stands right before its successor. -/
  next : ∀ n ∈ layout, (g'.node n).fallsThrough isa = true →
    ∃ s, (g'.node n).successor = some s ∧ [n, s] <:+: layout
  target : ∀ n ∈ layout, (g'.node n).isJump isa = true → ∃ t ∈ layout, (g'.node n).branch = some t
  forward : ∀ n ∈ layout, ((g'.node n).flags isa).jumpRelative = true →
    ∃ t, (g'.node n).branch = some t ∧ [n, t] <+ layout
  /-- Every edge leads where it led. -/
  leads : ∀ n < g.size, ∀ m e, (m, e) ∈ g.edges isa n → Leads isa g g' n e m
  kept : ∀ n < g.size, (g'.node n).body = (g.node n).body
  grown : g.size ≤ g'.size

variable {isa : InstructionSet} {g g' h : Graph} {entry : NodeId} {handlers : List NodeId}
  {layout : List Nat}

theorem JumpsTo.not_fallsThrough {j t : Nat} (h : g.JumpsTo isa j t) :
    (g.node j).fallsThrough isa = false := by
  simp [Node.fallsThrough, Flags.fallsThrough, h.unconditional]

theorem JumpsTo.congr {j t : Nat} (hj : g.JumpsTo isa j t) (heq : h.node j = g.node j) :
    h.JumpsTo isa j t where
  opcode := heq ▸ hj.opcode
  isJump := heq ▸ hj.isJump
  unconditional := heq ▸ hj.unconditional
  operand := heq ▸ hj.operand
  branch := heq ▸ hj.branch

theorem SameCode.jumpsTo (s : g.SameCode h) {j t : Nat} (hj : g.JumpsTo isa j t) :
    h.JumpsTo isa j t where
  opcode := by rw [s.opcode]; exact hj.opcode
  isJump := by rw [s.isJump]; exact hj.isJump
  unconditional := by rw [s.flags]; exact hj.unconditional
  operand := by rw [s.operand]; exact hj.operand
  branch := by rw [s.branch]; exact hj.branch

theorem Laid.lt (hl : Laid isa g g' entry handlers layout) {n : Nat} (hn : n ∈ layout) :
    n < g'.size := by
  rcases Nat.lt_or_ge n g.size with hlt | hge
  · exact Nat.lt_of_lt_of_le hlt hl.grown
  · exact (hl.added n hn hge).1

theorem Laid.of_sameCode (hl : Laid isa g g' entry handlers layout) (s : g'.SameCode h) :
    Laid isa g h entry handlers layout where
  head := hl.head
  nodup := hl.nodup
  mem_iff := hl.mem_iff
  added := fun j hj hge => by
    obtain ⟨hlt, t, ht, htlt, hjump⟩ := hl.added j hj hge
    exact ⟨by rw [s.size_eq]; exact hlt, t, ht, htlt, s.jumpsTo hjump⟩
  last := fun n hn => by rw [s.fallsThrough]; exact hl.last n hn
  next := fun n hn hf => by
    rw [s.fallsThrough] at hf
    rw [s.successor]
    exact hl.next n hn hf
  target := fun n hn hj => by
    rw [s.isJump] at hj
    simp only [s.branch]
    exact hl.target n hn hj
  forward := fun n hn hr => by
    rw [s.flags] at hr
    simp only [s.branch]
    exact hl.forward n hn hr
  leads := fun n hn m e he => by
    rcases hl.leads n hn m e he with hd | ⟨j, hge, hj, hjump⟩
    · exact Or.inl (by rw [s.edges]; exact hd)
    · exact Or.inr ⟨j, hge, by rw [s.edges]; exact hj, s.jumpsTo hjump⟩
  kept := fun n hn => (s.body n).trans (hl.kept n hn)
  grown := by rw [s.size_eq]; exact hl.grown

end Graph

namespace Layout

open List

variable {isa : InstructionSet} {g : Graph} {entry : NodeId} {handlers : List NodeId}

/-! ### The order before the repairs -/

section Order

theorem lt_of_mem_chain (hg : g.Closed) (a : NodeId) : ∀ b ∈ (g.fallthrough? isa a).toList,
    b < g.size := by
  intro b hb
  rw [Option.mem_toList] at hb
  exact hg.lt_of_successor (Graph.fallthrough?_eq_some.mp hb).2

variable (hg : g.Closed) (hroots : ∀ r ∈ entry :: handlers, r < g.size)
include hg hroots

theorem lt_of_mem_heads : ∀ n ∈ entry ::
    (g.reachable isa (entry :: handlers)).mergeSort (offsetLe g), n < g.size := by
  intro n hn
  rcases List.mem_cons.mp hn with rfl | hn
  · exact hroots n List.mem_cons_self
  · rw [List.mem_mergeSort, Graph.mem_reachable hg hroots] at hn
    exact hg.lt_of_live hroots hn

/-- The chains hold what execution can get to: every node of a chain follows its head
along edges, and every node that execution can get to is a head. -/
theorem mem_order {n : Nat} : n ∈ order isa g entry (g.reachable isa (entry :: handlers)) ↔
    g.Live isa (entry :: handlers) n := by
  rw [order, Graph.chains, mem_explore_below (lt_of_mem_heads hg hroots) (lt_of_mem_chain hg)]
  constructor
  · intro h
    refine Reach.induct (fun r hr => ?_) (fun a b ha hb => ?_) h
    · rcases List.mem_cons.mp hr with rfl | hr
      · exact Reach.root List.mem_cons_self
      · rwa [List.mem_mergeSort, Graph.mem_reachable hg hroots] at hr
    · refine Reach.step ha (Graph.mem_targets.mpr (Or.inl ?_))
      rwa [Option.mem_toList] at hb
  · intro h
    refine Reach.root (List.mem_cons_of_mem _ ?_)
    rwa [List.mem_mergeSort, Graph.mem_reachable hg hroots]

theorem nodup_order : (order isa g entry (g.reachable isa (entry :: handlers))).Nodup :=
  nodup_explore_below (lt_of_mem_heads hg hroots) (lt_of_mem_chain hg)

theorem head?_order :
    (order isa g entry (g.reachable isa (entry :: handlers))).head? = some entry :=
  head?_explore_below (lt_of_mem_heads hg hroots) (lt_of_mem_chain hg) rfl

end Order

/-! ### The two repairs together -/

section Jumps

variable {g₁ g₂ : Graph} {closed laid : List Nat}

/-- A jump over a gap leads to a node of the old graph, and goes the right way. -/
theorem GapJump.jumpsTo (hisa : isa.Directed) {n j : Nat} (h : GapJump isa g g₁ closed n j) :
    ∃ s, g.fallthrough? isa n = some s ∧ g₁.JumpsTo isa j s ∧
      (((g₁.node j).flags isa).jumpRelative = true →
        [j, s] <+ closed ∧ ((g₁.node j).flags isa).jumpBackward = false) := by
  obtain ⟨s, opcode, hf, hnode, hop⟩ := h.jump
  have hwritten : opcode = isa.jumpForward ∨ opcode = isa.jumpAbsolute :=
    hop.elim Or.inr fun hop => Or.inl hop.1
  obtain ⟨hjump, huncond, -, -⟩ := hisa.written hwritten
  refine ⟨s, hf, ?_, ?_⟩
  · constructor <;> rw [hnode]
    · exact hwritten
    · exact hjump
    · exact huncond
    · rfl
    · rfl
  · intro hr
    rcases hop with rfl | ⟨rfl, hsub⟩
    · have hnot : ((g₁.node j).flags isa).jumpRelative = false := by
        rw [hnode]
        exact hisa.jumpAbsolute_not_relative
      rw [hr] at hnot
      cases hnot
    · refine ⟨hsub, ?_⟩
      rw [hnode]
      exact hisa.jumpForward.2.1

theorem Trampoline.jumpsTo (hisa : isa.Directed) {n j t : Nat}
    (h : Trampoline isa g₁ g₂ closed laid n j t) :
    g₂.JumpsTo isa j t ∧ ((g₂.node j).flags isa).jumpRelative = false := by
  obtain ⟨hjump, huncond, -, -⟩ := hisa.written (Or.inr rfl : isa.jumpAbsolute = _ ∨ _)
  refine ⟨?_, ?_⟩
  · constructor <;> rw [h.jump]
    · exact Or.inr rfl
    · exact hjump
    · exact huncond
    · rfl
    · rfl
  · rw [h.jump]
    exact hisa.jumpAbsolute_not_relative

end Jumps

/-- The two repairs, one after the other, of a sequence `order` of what execution can get
to. -/
structure Repaired (isa : InstructionSet) (g g₁ g₂ : Graph) (roots order closed laid : List Nat) :
    Prop where
  directed : isa.Directed
  complete : ∀ n, g.Live isa roots n → g.HasEdges isa n
  order_iff : ∀ n, n ∈ order ↔ g.Live isa roots n
  order_nodup : order.Nodup
  order_lt : ∀ n ∈ order, n < g.size
  gaps : GapsClosed isa g g₁ order closed
  trampolines : Trampolines isa g₁ g₂ closed laid

namespace Repaired

variable {g₁ g₂ : Graph} {roots order closed laid : List Nat} {n j s t : Nat}
  (r : Repaired isa g g₁ g₂ roots order closed laid)
include r

theorem size_le₁ : g.size ≤ g₁.size := by
  obtain ⟨count, hcount, -⟩ := r.gaps.added
  omega

theorem size_le₂ : g₁.size ≤ g₂.size := by
  obtain ⟨count, hcount, -⟩ := r.trampolines.added
  omega

theorem closed_lt : ∀ n ∈ closed, n < g₁.size := fun _ hn => r.gaps.lt_size r.order_lt hn

theorem nodup : laid.Nodup :=
  r.trampolines.nodup (r.gaps.nodup r.order_nodup r.order_lt) r.closed_lt

theorem infix_laid (h : [n, t] <:+: closed) : [n, t] <:+: laid :=
  h.trans r.trampolines.prefix_laid.isInfix

theorem sublist_laid (h : [n, t] <+ closed) : [n, t] <+ laid :=
  h.trans r.trampolines.prefix_laid.sublist

theorem mem_closed (hn : n ∈ laid) (hlt : n < g₁.size) : n ∈ closed :=
  (r.trampolines.mem_iff hlt).mp hn

theorem mem_laid (hn : n < g.size) : n ∈ laid ↔ n ∈ order :=
  (r.trampolines.mem_iff (by have := r.size_le₁; omega)).trans (r.gaps.mem_iff hn)

theorem mem_laid_of_order (hn : n ∈ order) : n ∈ laid := (r.mem_laid (r.order_lt n hn)).mpr hn

theorem body (hn : n < g.size) : (g₂.node n).body = (g.node n).body :=
  (r.trampolines.body_successor (by have := r.size_le₁; omega)).1.trans (r.gaps.body_branch hn).1

theorem successor (hn : n < g.size) : (g₂.node n).successor = (g₁.node n).successor :=
  (r.trampolines.body_successor (by have := r.size_le₁; omega)).2

theorem flags (hn : n < g.size) : (g₂.node n).flags isa = (g.node n).flags isa :=
  Node.flags_of_body isa (r.body hn)

theorem fallsThrough (hn : n < g.size) :
    (g₂.node n).fallsThrough isa = (g.node n).fallsThrough isa := by
  rw [Node.fallsThrough, r.flags hn, Node.fallsThrough]

theorem isJump (hn : n < g.size) : (g₂.node n).isJump isa = (g.node n).isJump isa := by
  rw [Node.isJump, r.flags hn, Node.isJump]

theorem successor_mem (hn : n ∈ order) (hs : g.fallthrough? isa n = some s) : s ∈ order :=
  (r.order_iff s).mpr (((r.order_iff n).mp hn).step (Graph.mem_targets.mpr (Or.inl hs)))

theorem branch_mem (hn : n ∈ order) (hj : (g.node n).isJump isa = true)
    (ht : (g.node n).branch = some t) : t ∈ order :=
  (r.order_iff t).mpr (((r.order_iff n).mp hn).step
    (Graph.mem_targets.mpr (Or.inr (Graph.branch?_eq_some.mpr ⟨hj, ht⟩))))

/-- No jump over a gap goes the wrong way, so the second repair leaves it alone. -/
theorem gap_jump_kept (hj : j ∈ closed) (hge : g.size ≤ j) : g₂.node j = g₁.node j := by
  obtain ⟨n, -, hn⟩ := r.gaps.jump j hj hge
  obtain ⟨s, -, hjump, hright⟩ := hn.jumpsTo r.directed
  rcases r.trampolines.node j hj with ⟨heq, -⟩ | ⟨k, t, hk, -⟩
  · exact heq
  · have hts : some s = some t := hjump.branch.symm.trans hk.branch
    obtain rfl : s = t := by simpa using hts
    obtain ⟨hsub, hback⟩ := hright hk.relative
    rw [hk.wrong_way.mp hsub] at hback
    cases hback

theorem gap_jumpsTo (h : GapJump isa g g₁ closed n j) : ∃ s, g.fallthrough? isa n = some s ∧
    g₂.JumpsTo isa j s ∧ (((g₂.node j).flags isa).jumpRelative = true →
      [j, s] <+ laid ∧ ((g₂.node j).flags isa).jumpBackward = false) := by
  obtain ⟨s, hf, hjump, hright⟩ := h.jumpsTo r.directed
  have heq := r.gap_jump_kept (h.next.subset (by simp)) h.added
  refine ⟨s, hf, hjump.congr heq, fun hr => ?_⟩
  rw [heq] at hr ⊢
  exact (hright hr).imp_left r.sublist_laid

theorem trampoline_old (hn : n ∈ closed) (h : Trampoline isa g₁ g₂ closed laid n j t) :
    n < g.size ∧ (g.node n).isJump isa = true ∧ (g.node n).branch = some t := by
  -- a jump over a gap goes the right way, so no trampoline is put up for it
  have hnlt : n < g.size := by
    by_contra hge
    obtain ⟨k, -, hk⟩ := r.gaps.jump n hn (by omega)
    obtain ⟨s, -, hjump, hright⟩ := hk.jumpsTo r.directed
    have hst : some s = some t := hjump.branch.symm.trans h.branch
    obtain rfl : s = t := by simpa using hst
    obtain ⟨hsub, hback⟩ := hright h.relative
    rw [h.wrong_way.mp hsub] at hback
    cases hback
  obtain ⟨hb, hbr⟩ := r.gaps.body_branch hnlt
  have hr := h.relative
  rw [Node.flags_of_body isa hb] at hr
  exact ⟨hnlt, by simp [Node.isJump, Flags.isJump, hr], hbr.symm.trans h.branch⟩

/-- Every new node is a jump to a node of the old graph, and goes the right way. -/
theorem added (hj : j ∈ laid) (hge : g.size ≤ j) : ∃ t ∈ laid, t < g.size ∧ g₂.JumpsTo isa j t ∧
    (((g₂.node j).flags isa).jumpRelative = true →
      [j, t] <+ laid ∧ ((g₂.node j).flags isa).jumpBackward = false) := by
  rcases Nat.lt_or_ge j g₁.size with hlt | hge₁
  · obtain ⟨n, hn, hk⟩ := r.gaps.jump j (r.mem_closed hj hlt) hge
    obtain ⟨s, hf, hjump, hright⟩ := r.gap_jumpsTo hk
    have hs := r.successor_mem hn hf
    exact ⟨s, r.mem_laid_of_order hs, r.order_lt s hs, hjump, hright⟩
  · obtain ⟨n, hn, t, hk⟩ := r.trampolines.jump j hj hge₁
    obtain ⟨hnlt, hisjump, hb⟩ := r.trampoline_old hn hk
    have ht := r.branch_mem ((r.gaps.mem_iff hnlt).mp hn) hisjump hb
    obtain ⟨hjump, hrel⟩ := hk.jumpsTo r.directed
    exact ⟨t, r.mem_laid_of_order ht, r.order_lt t ht, hjump, fun hr => by rw [hrel] at hr; cases hr⟩

/-- The first repair puts successors next to their nodes. -/
theorem next_closed (hn : n ∈ closed) (hf : (g₂.node n).fallsThrough isa = true) :
    ∃ s, (g₂.node n).successor = some s ∧ [n, s] <:+: closed := by
  rcases Nat.lt_or_ge n g.size with hlt | hge
  · have ho := (r.gaps.mem_iff hlt).mp hn
    rw [r.fallsThrough hlt] at hf
    obtain ⟨s, hs⟩ := Option.ne_none_iff_exists'.mp ((r.complete n ((r.order_iff n).mp ho)).1 hf)
    rcases r.gaps.node n ho with ⟨heq, hnext⟩ | ⟨j, hj, heq⟩
    · refine ⟨s, by rw [r.successor hlt, heq, hs], hnext s ?_⟩
      exact Graph.fallthrough?_eq_some.mpr ⟨hf, hs⟩
    · exact ⟨j, by rw [r.successor hlt, heq]; rfl, hj.next⟩
  · -- a new jump does not fall through
    obtain ⟨t, -, -, hjump, -⟩ := r.added (r.trampolines.prefix_laid.subset hn) hge
    rw [hjump.not_fallsThrough] at hf
    cases hf

theorem next (hn : n ∈ laid) (hf : (g₂.node n).fallsThrough isa = true) :
    ∃ s, (g₂.node n).successor = some s ∧ [n, s] <:+: laid := by
  rcases Nat.lt_or_ge n g₁.size with hlt | hge
  · obtain ⟨s, hs, hnext⟩ := r.next_closed (r.mem_closed hn hlt) hf
    exact ⟨s, hs, r.infix_laid hnext⟩
  · obtain ⟨t, -, -, hjump, -⟩ := r.added hn (Nat.le_trans r.size_le₁ hge)
    rw [hjump.not_fallsThrough] at hf
    cases hf

theorem sublist_laid_iff (ht : t ∈ closed) : [n, t] <+ laid ↔ [n, t] <+ closed := by
  refine ⟨fun h => ?_, r.sublist_laid⟩
  obtain ⟨count, -, hl⟩ := r.trampolines.added
  obtain ⟨i, k, hik, hi, hk⟩ := pair_sublist_iff.mp h
  obtain ⟨k', hk'⟩ := List.mem_iff_getElem?.mp ht
  have hlt := (List.getElem?_eq_some_iff.mp hk').1
  have hsame : laid[k']? = some t := by rw [hl, List.getElem?_append_left hlt, hk']
  obtain rfl := getElem?_inj_of_nodup r.nodup hk hsame
  rw [hl, List.getElem?_append_left (Nat.lt_trans hik hlt)] at hi
  exact pair_sublist_iff.mpr ⟨i, k, hik, hi, hk'⟩

/-- A branch leads where it led and goes the right way, or it leads ahead to its
trampoline. -/
theorem branch (hn : n ∈ order) (hj : (g.node n).isJump isa = true) :
    ∃ t ∈ laid, (g.node n).branch = some t ∧
      ((g₂.node n).branch = some t ∧ (((g₂.node n).flags isa).jumpRelative = true →
          ([n, t] <+ laid ↔ ((g₂.node n).flags isa).jumpBackward = false)) ∨
        ∃ j ∈ laid, g₁.size ≤ j ∧ (g₂.node n).branch = some j ∧ [n, j] <+ laid ∧
          g₂.JumpsTo isa j t ∧ ((g₂.node n).flags isa).jumpRelative = true ∧
          ([n, t] <+ laid ↔ ((g₂.node n).flags isa).jumpBackward = true)) := by
  have hc := (r.gaps.mem_iff (r.order_lt n hn)).mpr hn
  have hbr₁ := (r.gaps.body_branch (r.order_lt n hn)).2
  obtain ⟨t, ht⟩ := Option.ne_none_iff_exists'.mp ((r.complete n ((r.order_iff n).mp hn)).2 hj)
  have hto := r.branch_mem hn hj ht
  have htc := r.gaps.in_order.subset hto
  refine ⟨t, r.mem_laid_of_order hto, ht, ?_⟩
  rw [r.sublist_laid_iff htc]
  rcases r.trampolines.node n hc with ⟨heq, hright⟩ | ⟨j, t', hk, heq⟩
  · left
    rw [heq]
    exact ⟨hbr₁.trans ht, fun hr => hright hr t (hbr₁.trans ht)⟩
  · right
    have htt : some t' = some t := hk.branch.symm.trans (hbr₁.trans ht)
    obtain rfl : t' = t := by simpa using htt
    have hflags : (g₂.node n).flags isa = (g₁.node n).flags isa := by
      rw [heq, Node.flags_withEdge]
    rw [hflags]
    exact ⟨j, hk.mem, hk.added, by rw [heq]; rfl,
      r.trampolines.before r.closed_lt hc hk.mem hk.added, (hk.jumpsTo r.directed).1, hk.relative,
      hk.wrong_way⟩

theorem target (hn : n ∈ laid) (hj : (g₂.node n).isJump isa = true) :
    ∃ t ∈ laid, (g₂.node n).branch = some t := by
  rcases Nat.lt_or_ge n g.size with hlt | hge
  · rw [r.isJump hlt] at hj
    obtain ⟨t, ht, -, ⟨hb, -⟩ | ⟨j, hjl, -, hb, -⟩⟩ := r.branch ((r.mem_laid hlt).mp hn) hj
    · exact ⟨t, ht, hb⟩
    · exact ⟨j, hjl, hb⟩
  · obtain ⟨t, ht, -, hjump, -⟩ := r.added hn hge
    exact ⟨t, ht, hjump.branch⟩

/-- A relative jump that counts forwards stands before its target. -/
theorem forward (hn : n ∈ laid) (hr : ((g₂.node n).flags isa).jumpRelative = true)
    (hback : ((g₂.node n).flags isa).jumpBackward = false) :
    ∃ t, (g₂.node n).branch = some t ∧ [n, t] <+ laid := by
  rcases Nat.lt_or_ge n g.size with hlt | hge
  · have hj : (g.node n).isJump isa = true := by
      rw [r.flags hlt] at hr
      simp [Node.isJump, Flags.isJump, hr]
    obtain ⟨t, -, -, ⟨hb, hright⟩ | ⟨j, -, -, hb, hright, -⟩⟩ := r.branch ((r.mem_laid hlt).mp hn) hj
    · exact ⟨t, hb, (hright hr).mpr hback⟩
    · exact ⟨j, hb, hright⟩
  · obtain ⟨t, -, -, hjump, hright⟩ := r.added hn hge
    exact ⟨t, hjump.branch, (hright hr).1⟩

theorem frame (hlt : n < g.size) (hn : n ∉ order) : g₂.node n = g.node n := by
  have hc : n ∉ closed := fun hc => hn ((r.gaps.mem_iff hlt).mp hc)
  rw [r.trampolines.frame n (by have := r.size_le₁; omega) hc, r.gaps.frame n hlt hn]

theorem leads (hlt : n < g.size) {m : Nat} {e : Edge} (he : (m, e) ∈ g.edges isa n) :
    Graph.Leads isa g g₂ n e m := by
  by_cases hn : n ∈ order
  · rw [Graph.mem_edges] at he
    simp only [Graph.Leads, Graph.mem_edges]
    cases e with
    | fallthrough =>
      simp only [Graph.fallthrough?_eq_some, r.fallsThrough hlt, r.successor hlt] at he ⊢
      rcases r.gaps.node n hn with ⟨heq, -⟩ | ⟨j, hj, heq⟩
      · exact Or.inl ⟨he.1, by rw [heq]; exact he.2⟩
      · obtain ⟨s, hf, hto, -⟩ := r.gap_jumpsTo hj
        have hsm : some s = some m := hf.symm.trans (Graph.fallthrough?_eq_some.mpr he)
        obtain rfl : s = m := by simpa using hsm
        exact Or.inr ⟨j, hj.added, ⟨he.1, by rw [heq]; rfl⟩, hto⟩
    | branch =>
      simp only [Graph.branch?_eq_some, r.isJump hlt] at he ⊢
      obtain ⟨t, -, ht, hcase⟩ := r.branch hn he.1
      have htm : some t = some m := ht.symm.trans he.2
      obtain rfl : t = m := by simpa using htm
      rcases hcase with ⟨hb, -⟩ | ⟨j, -, hge, hb, -, hto, -⟩
      · exact Or.inl ⟨he.1, hb⟩
      · exact Or.inr ⟨j, Nat.le_trans r.size_le₁ hge, ⟨he.1, hb⟩, hto⟩
  · left
    -- what is not laid out keeps its edges
    rw [Graph.mem_edges] at he ⊢
    simpa only [Graph.fallthrough?, Graph.branch?, r.frame hlt hn] using he

end Repaired

/-- After both repairs the sequence is a layout, if no jump counts backwards. -/
theorem laid_of_repaired (hisa : isa.Regular) {g₁ g₂ : Graph} {order closed laid : List Nat}
    (r : Repaired isa g g₁ g₂ (entry :: handlers) order closed laid)
    (hhead : order.head? = some entry) : Graph.Laid isa g g₂ entry handlers laid where
  head := by
    obtain ⟨count, -, hl⟩ := r.trampolines.added
    rw [hl, List.head?_append, r.gaps.head, hhead, Option.some_or]
  nodup := r.nodup
  mem_iff := fun n hn => (r.mem_laid hn).trans (r.order_iff n)
  added := fun j hj hge => by
    obtain ⟨t, ht, hlt, hjump, -⟩ := r.added hj hge
    exact ⟨r.trampolines.lt_size r.closed_lt hj, t, ht, hlt, hjump⟩
  last := fun n hn => by
    by_contra hf
    obtain ⟨s, -, hs⟩ := r.next (List.mem_of_getLast? hn) (by simpa using hf)
    exact not_pair_infix_getLast r.nodup hn hs
  next := fun n hn hf => r.next hn hf
  target := fun n hn hj => r.target hn hj
  forward := fun n hn hr => r.forward hn hr (hisa.opcodes _).forward
  leads := fun n hn m e he => r.leads hn he
  kept := fun n hn => r.body hn
  grown := Nat.le_trans r.size_le₁ r.size_le₂

/-- Both repairs of the order can be made. -/
theorem exists_repairs (isa : InstructionSet) (hg : g.Closed)
    (hroots : ∀ r ∈ entry :: handlers, r < g.size) :
    let sequence := order isa g entry (g.reachable isa (entry :: handlers))
    ∃ g₁ closed g₂ laid, closeGaps isa g sequence = (g₁, closed) ∧
      addTrampolines isa g₁ closed = (g₂, laid) ∧ GapsClosed isa g g₁ sequence closed ∧
      Trampolines isa g₁ g₂ closed laid := by
  intro sequence
  have hmem : ∀ n, n ∈ sequence ↔ g.Live isa (entry :: handlers) n := fun n => mem_order hg hroots
  have hnd : sequence.Nodup := nodup_order hg hroots
  have hlt : ∀ n ∈ sequence, n < g.size := fun n hn => hg.lt_of_live hroots ((hmem n).mp hn)
  obtain ⟨g₁, closed, hclose, hgaps⟩ := closeGaps_spec hnd hlt fun n hn s hs =>
    (hmem s).mpr (((hmem n).mp hn).step (Graph.mem_targets.mpr (Or.inl hs)))
  -- a relative jump behind the first repair is one of the graph, or leads over a gap
  have hbranch : ∀ n ∈ closed, ((g₁.node n).flags isa).jumpRelative = true →
      ∀ t, (g₁.node n).branch = some t → t ∈ closed := by
    intro n hn hr t ht
    refine hgaps.in_order.subset ((hmem t).mpr ?_)
    rcases Nat.lt_or_ge n g.size with hn' | hge
    · obtain ⟨hb, hbr⟩ := hgaps.body_branch hn'
      have hlive := (hmem n).mp ((hgaps.mem_iff hn').mp hn)
      rw [Node.flags_of_body isa hb] at hr
      refine hlive.step (Graph.mem_targets.mpr (Or.inr (Graph.branch?_eq_some.mpr ⟨?_, ?_⟩)))
      · simp [Node.isJump, Flags.isJump, hr]
      · exact hbr.symm.trans ht
    · obtain ⟨m, hm, hgap⟩ := hgaps.jump n hn hge
      obtain ⟨s, opcode, hs, hnode, -⟩ := hgap.jump
      rw [hnode] at ht
      obtain rfl : s = t := Option.some.inj ht
      exact ((hmem m).mp hm).step (Graph.mem_targets.mpr (Or.inl hs))
  obtain ⟨g₂, laid, htrampolines, hlaid⟩ := addTrampolines_spec (hgaps.nodup hnd hlt)
    (fun n hn => hgaps.lt_size hlt hn) hbranch
  exact ⟨g₁, closed, g₂, laid, hclose, htrampolines, hgaps, hlaid⟩

/-- When all nodes have their edges, that is all there is to repair. -/
theorem repaired_of_complete (hisa : isa.Directed) (hg : g.Closed)
    (hroots : ∀ r ∈ entry :: handlers, r < g.size)
    (hcomplete : ∀ n, g.Live isa (entry :: handlers) n → g.HasEdges isa n) :
    let sequence := order isa g entry (g.reachable isa (entry :: handlers))
    ∃ g₁ closed g₂ laid, closeGaps isa g sequence = (g₁, closed) ∧
      addTrampolines isa g₁ closed = (g₂, laid) ∧
      Repaired isa g g₁ g₂ (entry :: handlers) sequence closed laid := by
  intro sequence
  have hmem : ∀ n, n ∈ sequence ↔ g.Live isa (entry :: handlers) n := fun n => mem_order hg hroots
  have hlt : ∀ n ∈ sequence, n < g.size := fun n hn => hg.lt_of_live hroots ((hmem n).mp hn)
  obtain ⟨g₁, closed, g₂, laid, hclose, htrampolines, hgaps, hlaid⟩ := exists_repairs isa hg hroots
  exact ⟨g₁, closed, g₂, laid, hclose, htrampolines, hisa, hcomplete, hmem, nodup_order hg hroots, hlt,
    hgaps, hlaid⟩

theorem sameCode_bindOffsets : ∀ (nodes : List NodeId) (i : Nat) (g : Graph),
    g.SameCode (bindOffsets nodes i g)
  | [], _, g => Graph.SameCode.refl g
  | n :: rest, i, g => by
    have hone : g.SameCode (g.modify n ({ · with offset := some (i * 2) })) :=
      g.sameCode_modify n fun _ => rfl
    exact hone.trans (sameCode_bindOffsets rest (i + 1) _)

end Layout

namespace Graph

variable {isa : InstructionSet} {g g' : Graph} {entry : NodeId} {handlers layout : List NodeId}

/-- The steps of a successful linearization. -/
theorem linearize_eq_ok (h : g.linearize isa entry handlers = .ok (g', layout)) :
    ∃ found g₁ closed g₂, g.reachable? isa (entry :: handlers) = .ok found ∧
      Layout.closeGaps isa g (Layout.order isa g entry found) = (g₁, closed) ∧
      Layout.addTrampolines isa g₁ closed = (g₂, layout) ∧
      g' = Layout.bindOffsets layout 0 g₂ := by
  unfold linearize at h
  cases hf : g.reachable? isa (entry :: handlers) with
  | error e => simp [hf] at h
  | ok found =>
    simp only [hf, Except.ok.injEq, Prod.mk.injEq] at h
    obtain ⟨rfl, rfl⟩ := h
    exact ⟨found, _, _, _, rfl, rfl, rfl, rfl⟩

/-- The repairs of a successful linearization. -/
theorem repaired_of_linearize (hisa : isa.Directed) (hg : g.Closed)
    (hroots : ∀ r ∈ entry :: handlers, r < g.size)
    (h : g.linearize isa entry handlers = .ok (g', layout)) :
    let sequence := Layout.order isa g entry (g.reachable isa (entry :: handlers))
    ∃ g₁ closed g₂, Layout.closeGaps isa g sequence = (g₁, closed) ∧
      Layout.addTrampolines isa g₁ closed = (g₂, layout) ∧
      Layout.Repaired isa g g₁ g₂ (entry :: handlers) sequence closed layout ∧
      g' = Layout.bindOffsets layout 0 g₂ := by
  obtain ⟨found, g₁, closed, g₂, hfound, hclose, hadd, rfl⟩ := linearize_eq_ok h
  obtain ⟨rfl, hcomplete⟩ := (reachable?_eq_ok_iff hg hroots).mp hfound
  obtain ⟨g₁', closed', g₂', laid', hclose', hadd', hr⟩ :=
    Layout.repaired_of_complete hisa hg hroots hcomplete
  obtain ⟨rfl, rfl⟩ := Prod.mk.inj (hclose.symm.trans hclose')
  obtain ⟨rfl, rfl⟩ := Prod.mk.inj (hadd.symm.trans hadd')
  exact ⟨g₁, closed, g₂, hclose, hadd, hr, rfl⟩

/-- Linearizing gives a layout. -/
theorem laid_of_linearize (hisa : isa.Regular) (hg : g.Closed)
    (hroots : ∀ r ∈ entry :: handlers, r < g.size)
    (h : g.linearize isa entry handlers = .ok (g', layout)) :
    Laid isa g g' entry handlers layout := by
  obtain ⟨g₁, closed, g₂, -, -, hr, rfl⟩ := repaired_of_linearize hisa.directed hg hroots h
  exact (Layout.laid_of_repaired hisa hr (Layout.head?_order hg hroots)).of_sameCode
    (Layout.sameCode_bindOffsets layout 0 g₂)

theorem linearize_eq_error_iff {e : GraphError} : g.linearize isa entry handlers = .error e ↔
    g.reachable? isa (entry :: handlers) = .error e := by
  unfold linearize
  cases g.reachable? isa (entry :: handlers) with
  | error e' => simp
  | ok found => simp

/-- **Linearizing fails exactly when execution can get to a node that lacks an edge, and
then the graph stays as it is. Otherwise it gives a layout.** -/
theorem linearize_lays_out (hisa : isa.BuiltIn) (hg : g.Closed)
    (hroots : ∀ r ∈ entry :: handlers, r < g.size) :
    ((∃ e, g.linearize isa entry handlers = .error e) ↔
      ∃ n, g.Live isa (entry :: handlers) n ∧ ¬ g.HasEdges isa n) ∧
    (∀ e, g.linearize isa entry handlers = .error e →
      ∀ pools, g.assemble isa entry handlers pools = (g, .error (.graph e))) ∧
    ∀ g' layout, g.linearize isa entry handlers = .ok (g', layout) →
      Laid isa g g' entry handlers layout := by
  refine ⟨?_, fun e he pools => ?_, fun g' layout h => ?_⟩
  · simp only [linearize_eq_error_iff]
    exact reachable?_eq_error_iff hg hroots
  · unfold assemble
    rw [he]
  · exact laid_of_linearize hisa.regular hg hroots h

/-- A conditional jump to itself, and behind it a jump back to it, can be laid out. -/
theorem linearize_lays_out_loop :
    let g : Graph := ⟨#[{ opcode := ⟨114⟩, operand := .jump, successor := some 1, branch := some 0 },
      { opcode := ⟨113⟩, operand := .jump, branch := some 0 }]⟩
    g.Closed ∧ ∃ g' layout, g.linearize .python38 0 [] = .ok (g', layout) ∧
      Laid .python38 g g' 0 [] layout := by
  intro g
  have hclosed : g.Closed := by decide
  have hroots : ∀ r ∈ [0], r < g.size := by decide
  have hisa : InstructionSet.python38.BuiltIn := Or.inl rfl
  obtain ⟨herror, -, hok⟩ := linearize_lays_out hisa hclosed hroots
  refine ⟨hclosed, ?_⟩
  cases h : g.linearize .python38 0 [] with
  | ok r => exact ⟨r.1, r.2, rfl, hok _ _ h⟩
  | error e =>
    obtain ⟨n, hn, hne⟩ := herror.mp ⟨e, h⟩
    have hlt : n < g.size := hclosed.lt_of_live hroots hn
    have hends : ((g.node 1).flags .python38).fallsThrough = false :=
      (hisa.regular.written (Or.inr rfl)).2.2.1
    refine absurd ?_ hne
    obtain rfl | rfl : n = 0 ∨ n = 1 := Nat.le_one_iff_eq_zero_or_eq_one.mp (Nat.lt_succ_iff.mp hlt)
    · exact ⟨fun _ => by simp [g, node], fun _ => by simp [g, node]⟩
    · refine ⟨fun hf => ?_, fun _ => by simp [g, node]⟩
      rw [Node.fallsThrough, hends] at hf
      cases hf

end Graph

end Wordcode
