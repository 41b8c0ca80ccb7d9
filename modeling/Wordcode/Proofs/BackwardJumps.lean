/-
# Jumps that count backwards

An instruction set may be given relative jumps that count backwards. Their operand reaches
what stands before the end of the instruction, while that of other relative jumps reaches
what stands behind it. Where the target of a relative jump was laid out on the other side, the
jump is pointed at an absolute jump at the end of the code. That helps a jump that counts
forwards. One that counts backwards cannot express the way to the end of the code either, so it
is stranded, and relaxation fails with its direction.

So relaxation succeeds exactly when no backward jump is stranded. In code as it was read that
is a question of one distance: a backward jump of distance zero leads to the next unit, which
its operand could express, but which is taken to lie on the wrong side.

Key definitions: `InstructionSet.BackwardJumps`, `Graph.JumpsBack`, `Graph.Stranded`,
`Graph.Steered`.
Key theorems: `Graph.exists_steered`, `Graph.Steered.exists_relax`, `Graph.Steered.relax_eq_error`,
`Graph.relax_linearized`.
-/
import Wordcode.Proofs.Consistency
import Wordcode.Proofs.Unedited

namespace Wordcode

namespace InstructionSet

/-- A built-in instruction set in which opcodes were described anew, as relative jumps that count
backwards. The two jumps that the assembler writes are what they were. -/
inductive BackwardJumps : InstructionSet → Prop
  | builtIn {isa : InstructionSet} (h : isa.BuiltIn) : BackwardJumps isa
  | withOpcode {isa : InstructionSet} {op : Opcode} {info : OpcodeInfo} (h : BackwardJumps isa)
      (hnew : op ≠ isa.jumpForward ∧ op ≠ isa.jumpAbsolute)
      (hrelative : info.flags.jumpRelative = true ∧ info.flags.jumpAbsolute = false)
      (hbackward : info.flags.jumpBackward = true) (hextension : info.flags.extension = false) :
      BackwardJumps (isa.withOpcode op info)

theorem BackwardJumps.directed {isa : InstructionSet} (h : isa.BackwardJumps) : isa.Directed := by
  induction h with
  | builtIn h => exact h.regular.directed
  | @withOpcode isa op info _ hnew hrelative hbackward hextension ih =>
    have hforward : (isa.withOpcode op info).flags isa.jumpForward = isa.flags isa.jumpForward := by
      rw [flags_withOpcode, if_neg hnew.1]
    have habsolute : (isa.withOpcode op info).flags isa.jumpAbsolute =
        isa.flags isa.jumpAbsolute := by
      rw [flags_withOpcode, if_neg hnew.2]
    refine ⟨fun op' hext => ?_, fun op' hr => ?_, hforward ▸ ih.jumpForward,
      habsolute ▸ ih.jumpAbsolute⟩
    · rw [flags_withOpcode] at hext ⊢
      split at hext
      · rw [hextension] at hext
        cases hext
      · rename_i hne
        rw [if_neg hne]
        exact ih.idle op' hext
    · rw [flags_withOpcode] at hr ⊢
      split at hr
      · rename_i heq
        rw [if_pos heq]
        exact hrelative.2
      · rename_i hne
        rw [if_neg hne]
        exact ih.addressing op' hr

/-- The 3.8 interpreter with an unconditional jump that counts backwards. -/
def looping : InstructionSet :=
  python38.withOpcode ⟨200⟩
    { name := "JUMP_BACKWARD"
      flags := { hasArgument := true, jumpRelative := true, jumpBackward := true
                 unconditional := true }
      operand := .relativeJump
      effect := .fixed .nothing }

theorem backwardJumps_looping : looping.BackwardJumps :=
  .withOpcode (.builtIn (Or.inl rfl)) (by decide) (by decide) rfl rfl

end InstructionSet

namespace Graph

open List

variable {isa : InstructionSet} {g g' h : Graph} {entry : NodeId} {handlers layout : List NodeId}

variable (isa) in
/-- The node is a relative jump that counts backwards. -/
def JumpsBack (g : Graph) (n : NodeId) : Prop :=
  ((g.node n).flags isa).jumpRelative = true ∧ ((g.node n).flags isa).jumpBackward = true

variable (isa) in
/-- The node jumps back, but its target was laid out behind it. -/
def Stranded (g : Graph) (layout : List NodeId) (n : NodeId) : Prop :=
  g.JumpsBack isa n ∧ ∃ t, (g.node n).branch = some t ∧ [n, t] <+ layout

theorem Stranded.lt {n : NodeId} (hn : g.Stranded isa layout n) : n < g.size := by
  by_contra hge
  obtain ⟨-, t, hbranch, -⟩ := hn
  rw [node_of_size_le (Nat.not_lt.mp hge)] at hbranch
  cases hbranch

/-- The jump `n` to `t` was pointed at a new jump at the end of the code, behind an instruction
that stands behind `n`. -/
structure Diverted (isa : InstructionSet) (g g' : Graph) (layout : List NodeId) (n t j : NodeId) :
    Prop where
  added : g.size ≤ j
  mem : j ∈ layout
  branch : (g'.node n).branch = some j
  jumpsTo : g'.JumpsTo isa j t
  behind : [t, j] <+ layout
  between : ∃ z, (g'.node z).isExtension isa = false ∧ [n, z] <+ layout ∧ [z, j] <+ layout

/-- What laying out a graph `g` does to its jumps, also those that count backwards. -/
structure Steered (isa : InstructionSet) (g g' : Graph) (entry : NodeId) (handlers : List NodeId)
    (layout : List NodeId) : Prop where
  nodup : layout.Nodup
  /-- The nodes of the graph in it are those that execution can get to. -/
  mem_iff : ∀ n < g.size, n ∈ layout ↔ g.Live isa (entry :: handlers) n
  in_order : Layout.order isa g entry (g.reachable isa (entry :: handlers)) <+ layout
  /-- It ends in an instruction that does not fall through. -/
  last : ∀ n, layout.getLast? = some n → (g'.node n).fallsThrough isa = false
  target : ∀ n ∈ layout, (g'.node n).isJump isa = true → ∃ t ∈ layout, (g'.node n).branch = some t
  forward : ∀ n ∈ layout, ((g'.node n).flags isa).jumpRelative = true →
    ((g'.node n).flags isa).jumpBackward = false →
      ∃ t, (g'.node n).branch = some t ∧ [n, t] <+ layout
  /-- A relative jump that counts backwards is a node of the graph. It keeps its target, unless it
  is stranded. -/
  backward : ∀ n ∈ layout, g'.JumpsBack isa n → n < g.size ∧ g.JumpsBack isa n ∧
    ∃ t ∈ layout, (g.node n).branch = some t ∧
      (¬ [n, t] <+ layout ∧ (g'.node n).branch = some t ∨
        [n, t] <+ layout ∧ ∃ j, Diverted isa g g' layout n t j)
  kept : ∀ n < g.size, g.JumpsBack isa n → g'.JumpsBack isa n

theorem SameCode.jumpsBack (s : g.SameCode h) {n : NodeId} :
    h.JumpsBack isa n ↔ g.JumpsBack isa n := by
  rw [JumpsBack, JumpsBack, s.flags]

theorem Diverted.of_sameCode (s : g'.SameCode h) {n t j : NodeId}
    (hd : Diverted isa g g' layout n t j) : Diverted isa g h layout n t j where
  added := hd.added
  mem := hd.mem
  branch := by rw [s.branch]; exact hd.branch
  jumpsTo := s.jumpsTo hd.jumpsTo
  behind := hd.behind
  between := by
    obtain ⟨z, hz, hbetween⟩ := hd.between
    exact ⟨z, by rw [s.isExtension]; exact hz, hbetween⟩

theorem Steered.of_sameCode (hs : Steered isa g g' entry handlers layout) (s : g'.SameCode h) :
    Steered isa g h entry handlers layout where
  nodup := hs.nodup
  mem_iff := hs.mem_iff
  in_order := hs.in_order
  last := fun n hn => by rw [s.fallsThrough]; exact hs.last n hn
  target := fun n hn hj => by
    rw [s.isJump] at hj
    simp only [s.branch]
    exact hs.target n hn hj
  forward := fun n hn hr hback => by
    rw [s.flags] at hr hback
    simp only [s.branch]
    exact hs.forward n hn hr hback
  backward := fun n hn hjump => by
    obtain ⟨hlt, hold, t, ht, hb, hcase⟩ := hs.backward n hn (s.jumpsBack.mp hjump)
    refine ⟨hlt, hold, t, ht, hb, hcase.imp (fun hkept => ?_) fun hdiverted => ?_⟩
    · rw [s.branch]
      exact hkept
    · exact hdiverted.imp_right fun ⟨j, hd⟩ => ⟨j, hd.of_sameCode s⟩
  kept := fun n hn hjump => s.jumpsBack.mpr (hs.kept n hn hjump)

end Graph

/-! ### Laying out -/

namespace Layout.Repaired

open List

variable {isa : InstructionSet} {g g₁ g₂ : Graph} {roots order closed laid : List NodeId}
  (r : Repaired isa g g₁ g₂ roots order closed laid)
include r

theorem diverted {n t j : NodeId} (ht : t ∈ order) (hj : j ∈ laid)
    (hge : g₁.size ≤ j) (hbranch : (g₂.node n).branch = some j) (hto : g₂.JumpsTo isa j t)
    (hstranded : [n, t] <+ laid) : Graph.Diverted isa g g₂ laid n t j := by
  have htc := r.gaps.in_order.subset ht
  have hbefore : ∀ {m : NodeId}, m ∈ closed → [m, j] <+ laid := fun hm =>
    r.trampolines.before r.closed_lt hm hj hge
  refine ⟨Nat.le_trans r.size_le₁ hge, hj, hbranch, hto, hbefore htc, ?_⟩
  -- the last of the nodes that were there before the trampolines
  obtain ⟨z, hz⟩ := Option.isSome_iff_exists.mp
    (List.getLast?_isSome.mpr (List.ne_nil_of_mem htc))
  have hzc := List.mem_of_getLast? hz
  refine ⟨z, ?_, ?_, hbefore hzc⟩
  · by_contra hext
    have hfalls := (r.directed.idle _ (Bool.eq_true_of_not_eq_false hext)).1
    obtain ⟨s, -, hnext⟩ := r.next_closed hzc hfalls
    exact not_pair_infix_getLast (r.gaps.nodup r.order_nodup r.order_lt) hz hnext
  · obtain ⟨i, k, hik, hi, hk⟩ := pair_sublist_iff.mp ((r.sublist_laid_iff htc).mp hstranded)
    have hlt := (List.getElem?_eq_some_iff.mp hk).1
    rw [List.getLast?_eq_getElem?] at hz
    exact r.sublist_laid (pair_sublist_iff.mpr ⟨i, closed.length - 1, by omega, hi, hz⟩)

end Layout.Repaired

namespace Graph

open List

variable {isa : InstructionSet} {g g' : Graph} {entry : NodeId} {handlers layout : List NodeId}

theorem steered_of_repaired {g₁ g₂ : Graph} {closed laid : List NodeId}
    (r : Layout.Repaired isa g g₁ g₂ (entry :: handlers)
      (Layout.order isa g entry (g.reachable isa (entry :: handlers))) closed laid) :
    Steered isa g g₂ entry handlers laid where
  nodup := r.nodup
  mem_iff := fun n hn => (r.mem_laid hn).trans (r.order_iff n)
  in_order := r.gaps.in_order.trans r.trampolines.prefix_laid.sublist
  last := fun n hn => by
    by_contra hf
    obtain ⟨s, -, hs⟩ := r.next (List.mem_of_getLast? hn) (Bool.eq_true_of_not_eq_false hf)
    exact Layout.not_pair_infix_getLast r.nodup hn hs
  target := fun n hn hj => r.target hn hj
  forward := fun n hn hr hback => r.forward hn hr hback
  backward := fun n hn ⟨hr, hback⟩ => by
    -- the jumps that were added count forwards
    have hlt : n < g.size := by
      by_contra hge
      obtain ⟨t, -, -, -, hright⟩ := r.added hn (Nat.not_lt.mp hge)
      rw [(hright hr).2] at hback
      cases hback
    have ho := (r.mem_laid hlt).mp hn
    have hj : (g.node n).isJump isa = true := by
      rw [← r.isJump hlt, Node.isJump, Flags.isJump, hr, Bool.or_true]
    obtain ⟨t, ht, hb, hcase⟩ := r.branch ho hj
    refine ⟨hlt, by rw [JumpsBack, ← r.flags hlt]; exact ⟨hr, hback⟩, t, ht, hb, ?_⟩
    rcases hcase with ⟨hkept, hright⟩ | ⟨j, hjl, hge, hbj, -, hto, -, hwrong⟩
    · refine Or.inl ⟨fun hsub => ?_, hkept⟩
      rw [(hright hr).mp hsub] at hback
      cases hback
    · have hsub := hwrong.mpr hback
      exact Or.inr ⟨hsub, j, r.diverted (r.branch_mem ho hj hb) hjl hge hbj hto hsub⟩
  kept := fun n hn hjump => by
    rw [JumpsBack, r.flags hn]
    exact hjump

/-- **A graph whose nodes have their edges is laid out with all its jumps steered.** -/
theorem exists_steered (hisa : isa.Directed) (hg : g.Closed)
    (hroots : ∀ r ∈ entry :: handlers, r < g.size)
    (hcomplete : ∀ n, g.Live isa (entry :: handlers) n → g.HasEdges isa n) :
    ∃ g' layout, g.linearize isa entry handlers = .ok (g', layout) ∧
      Steered isa g g' entry handlers layout := by
  have hfound : g.reachable? isa (entry :: handlers) = .ok (g.reachable isa (entry :: handlers)) :=
    (reachable?_eq_ok_iff hg hroots).mpr ⟨rfl, hcomplete⟩
  obtain ⟨g₁, closed, g₂, laid, hclose, hadd, hr⟩ :=
    Layout.repaired_of_complete hisa hg hroots hcomplete
  refine ⟨Layout.bindOffsets laid 0 g₂, laid, ?_,
    (steered_of_repaired hr).of_sameCode (Layout.sameCode_bindOffsets laid 0 g₂)⟩
  simp only [linearize, hfound, hclose, hadd]

end Graph

/-! ### Relaxation -/

namespace Relaxation

open List

variable {isa : InstructionSet} {g g' : Graph} {entry : NodeId} {handlers layout : List NodeId}
  {runs : List Run} {widths : List Nat} {r q : Run} {i j n t : Nat}

theorem pair_sublist_of_lt (hr : runs[i]? = some r) (hq : runs[j]? = some q) (hn : n ∈ r.nodes)
    (ht : t ∈ q.nodes) (h : i < j) : [n, t] <+ runs.flatMap Run.nodes := by
  have hpair : [r, q] <+ runs := Layout.pair_sublist_iff.mpr ⟨i, j, h, hr, hq⟩
  calc [n, t] = [n] ++ [t] := rfl
    _ <+ r.nodes ++ q.nodes := (singleton_sublist.mpr hn).append (singleton_sublist.mpr ht)
    _ = [r, q].flatMap Run.nodes := by simp
    _ <+ runs.flatMap Run.nodes := hpair.flatMap _

theorem distance_backward {flags : Flags} {opcode : Opcode} {start width target : Nat}
    (habs : flags.jumpAbsolute = false) (hback : flags.jumpBackward = true) :
    (target ≤ start + width + 1 →
      ∃ operand, distance isa flags opcode start width target = .ok operand) ∧
    (start + width + 1 < target → distance isa flags opcode start width target =
      .error (.invalidJumpDirection opcode ((start + width + 1) * 2) (target * 2))) := by
  constructor
  · intro hle
    exact ⟨_, distance_eq_ok_iff.mpr ⟨rfl, fun _ => Or.inl ⟨hback, hle⟩⟩⟩
  · intro hlt
    simp [distance, habs, hback, Nat.not_le.mpr hlt]

theorem exists_of_operandsFrom_eq_error {owner : Std.HashMap NodeId Nat} {starts : Array Nat}
    {e : GraphError} : ∀ {runs : List Run} {places widths : List Nat},
    operandsFrom isa g owner starts runs places widths = .error e →
    ∃ r ∈ runs, ∃ start width, operandOf isa g owner starts r start width = .error e
  | [], _, _, h => by
    rw [operandsFrom] at h
    · cases h
    · simp
  | _ :: _, [], _, h => by
    rw [operandsFrom] at h
    · cases h
    · simp
  | _ :: _, _ :: _, [], h => by
    rw [operandsFrom] at h
    · cases h
    · simp
  | r :: runs, start :: places, width :: widths, h => by
    rw [operandsFrom] at h
    cases hop : operandOf isa g owner starts r start width with
    | error e' =>
      rw [hop] at h
      obtain rfl : e' = e := Except.error.inj h
      exact ⟨r, List.mem_cons_self, start, width, hop⟩
    | ok operand =>
      rw [hop] at h
      cases hops : operandsFrom isa g owner starts runs places widths with
      | error e' =>
        rw [hops] at h
        obtain rfl : e' = e := Except.error.inj h
        obtain ⟨r', hr', hfails⟩ := exists_of_operandsFrom_eq_error hops
        exact ⟨r', List.mem_cons_of_mem _ hr', hfails⟩
      | ok operands =>
        rw [hops] at h
        cases h

section Steered

variable (hisa : isa.Directed) (hs : Graph.Steered isa g g' entry handlers layout)
  (hnodes : runs.flatMap Run.nodes = layout) (hw : widths.length = runs.length)
include hnodes

theorem instruction_mem (hr : runs[i]? = some r) : r.instruction ∈ layout :=
  hnodes ▸ List.mem_flatMap.mpr
    ⟨r, List.mem_of_getElem? hr, List.mem_append_right _ List.mem_cons_self⟩

include hs hw

theorem exists_operandOf_eq (hr : runs[i]? = some r)
    (hjump : (g'.node r.instruction).isJump isa = true)
    (hbranch : (g'.node r.instruction).branch = some t) :
    ∃ j q, runs[j]? = some q ∧ t ∈ q.nodes ∧ ∀ start width,
      operandOf isa g' (owners runs) (startsFrom 0 widths).toArray r start width =
        distance isa ((g'.node r.instruction).flags isa) (g'.node r.instruction).opcode start width
          (unitsBefore widths j) := by
  obtain ⟨t', ht, hbranch'⟩ := hs.target _ (instruction_mem hnodes hr) hjump
  obtain rfl : t = t' := Option.some.inj (hbranch.symm.trans hbranch')
  rw [← hnodes] at ht
  obtain ⟨q, hq, htq⟩ := List.mem_flatMap.mp ht
  obtain ⟨j, hj⟩ := List.mem_iff_getElem?.mp hq
  exact ⟨j, q, hj, htq, fun start width =>
    operandOf_eq_distance (hnodes ▸ hs.nodup) hw hjump hbranch hj htq⟩

theorem invalidJumpDirection_of_operandOf (hr : runs[i]? = some r) {start width : Nat}
    {e : GraphError} (h : operandOf isa g' (owners runs) (startsFrom 0 widths).toArray r start
      width = .error e) : ∃ opcode finish target, e = .invalidJumpDirection opcode finish target := by
  cases hjump : (g'.node r.instruction).isJump isa with
  | false =>
    simp only [operandOf, hjump, Bool.false_eq_true, if_false] at h
    cases h
  | true =>
    obtain ⟨t, -, hbranch⟩ := hs.target _ (instruction_mem hnodes hr) hjump
    obtain ⟨j, q, -, -, hop⟩ := exists_operandOf_eq hs hnodes hw hr hjump hbranch
    rw [hop, distance] at h
    dsimp only at h
    split at h
    · cases h
    · split at h
      · cases h
      · split at h
        · cases h
        · exact ⟨_, _, _, (Except.error.inj h).symm⟩

/-- Whatever the widths are, the operand of a run can be found unless its instruction is a stranded
jump. -/
theorem exists_operandOf_of_not_stranded {width : Nat} (hr : runs[i]? = some r)
    (hwidth : widths[i]? = some width) (hstays : ¬ g.Stranded isa layout r.instruction) :
    ∃ operand, operandOf isa g' (owners runs) (startsFrom 0 widths).toArray r
      (unitsBefore widths i) width = .ok operand := by
  have hmem := instruction_mem hnodes hr
  have hnd : (runs.flatMap Run.nodes).Nodup := hnodes ▸ hs.nodup
  have hfinish := unitsBefore_succ widths i
  rw [hwidth, Option.getD_some] at hfinish
  cases hjump : (g'.node r.instruction).isJump isa with
  | false => exact ⟨r.argument, by simp [operandOf, hjump]⟩
  | true =>
    obtain ⟨t, ht, hbranch⟩ := hs.target _ hmem hjump
    obtain ⟨j, q, hq, htq, hop⟩ := exists_operandOf_eq hs hnodes hw hr hjump hbranch
    rw [hop]
    by_cases habs : ((g'.node r.instruction).flags isa).jumpAbsolute = true
    · exact exists_distance (Or.inl habs)
    have hrelative : ((g'.node r.instruction).flags isa).jumpRelative = true := by
      simpa [Node.isJump, Flags.isJump, habs] using hjump
    by_cases hback : ((g'.node r.instruction).flags isa).jumpBackward = true
    · -- a jump that is not stranded does not stand before its target
      obtain ⟨-, hold, t', -, hbranch', hcase⟩ := hs.backward _ hmem ⟨hrelative, hback⟩
      rcases hcase with ⟨hnot, hkept⟩ | ⟨hahead, -⟩
      · obtain rfl : t = t' := Option.some.inj (hbranch.symm.trans hkept)
        have hji : j ≤ i := by
          by_contra hij
          refine hnot (hnodes ▸ pair_sublist_of_lt hr hq ?_ htq (Nat.not_le.mp hij))
          exact List.mem_append_right _ List.mem_cons_self
        refine (distance_backward (Bool.eq_false_of_not_eq_true habs) hback).1 ?_
        exact hfinish ▸ (unitsBefore_le_iff widths).mpr (Nat.le_succ_of_le hji)
      · exact absurd ⟨hold, t', hbranch', hahead⟩ hstays
    · have hback := Bool.eq_false_of_not_eq_true hback
      obtain ⟨t', hbranch', hahead⟩ := hs.forward _ hmem hrelative hback
      obtain rfl : t = t' := Option.some.inj (hbranch.symm.trans hbranch')
      have hlt := lt_of_pair_sublist hnd hr hq htq (hnodes ▸ hahead)
      exact exists_distance (Or.inr ⟨hback, hfinish ▸ (unitsBefore_le_iff widths).mpr hlt⟩)

include hisa in
theorem operandOf_of_stranded (hshaped : ∀ r ∈ runs, Shaped isa g' r) {width : Nat}
    (hr : runs[i]? = some r) (hwidth : widths[i]? = some width)
    (hstranded : g.Stranded isa layout r.instruction) :
    ∀ operand, operandOf isa g' (owners runs) (startsFrom 0 widths).toArray r
      (unitsBefore widths i) width ≠ .ok operand := by
  have hmem := instruction_mem hnodes hr
  have hnd : (runs.flatMap Run.nodes).Nodup := hnodes ▸ hs.nodup
  have hlt := hstranded.lt
  obtain ⟨hold, t, hbranch, hahead⟩ := hstranded
  obtain ⟨hrelative, hback⟩ := hs.kept _ hlt hold
  have hjump : (g'.node r.instruction).isJump isa = true := by
    rw [Node.isJump, Flags.isJump, hrelative, Bool.or_true]
  obtain ⟨-, -, t', -, hbranch', ⟨hnot, -⟩ | ⟨-, j, hd⟩⟩ := hs.backward _ hmem ⟨hrelative, hback⟩
  · obtain rfl : t = t' := Option.some.inj (hbranch.symm.trans hbranch')
    exact absurd hahead hnot
  · obtain ⟨k, q, hq, hjq, hop⟩ := exists_operandOf_eq hs hnodes hw hr hjump hd.branch
    obtain ⟨z, hz, hnz, hzj⟩ := hd.between
    -- the instruction in between is the last of a run of its own
    obtain ⟨p, hp, hzp⟩ := List.mem_flatMap.mp (hnodes ▸ hnz.subset (by simp) :
      z ∈ runs.flatMap Run.nodes)
    obtain ⟨m, hm⟩ := List.mem_iff_getElem?.mp hp
    obtain rfl : z = p.instruction := by
      rcases List.mem_append.mp hzp with hreserved | hlast
      · rw [(hshaped p hp).reserved z hreserved] at hz
        cases hz
      · exact List.mem_singleton.mp hlast
    have him := lt_of_pair_sublist hnd hr hm hzp (hnodes ▸ hnz)
    have hmk := lt_of_pair_sublist hnd hm hq hjq (hnodes ▸ hzj)
    have hfinish := unitsBefore_succ widths i
    rw [hwidth, Option.getD_some] at hfinish
    have hbehind : unitsBefore widths i + width + 1 < unitsBefore widths k :=
      hfinish ▸ unitsBefore_lt widths (Nat.lt_of_le_of_lt him hmk)
    have habs : ((g'.node r.instruction).flags isa).jumpAbsolute = false :=
      hisa.addressing _ hrelative
    rw [hop, (distance_backward habs hback).2 hbehind]
    intro operand h
    cases h

end Steered

end Relaxation

namespace Graph

open List Relaxation

variable {isa : InstructionSet} {g g' : Graph} {entry : NodeId} {handlers layout : List NodeId}

namespace Steered

variable (hisa : isa.Directed) (hs : Steered isa g g' entry handlers layout)
  {arguments : List Nat} (hlen : arguments.length = layout.length)
include hisa hs

theorem last_not_extension {n : NodeId} (hn : layout.getLast? = some n) :
    (g'.node n).isExtension isa = false := by
  by_contra hext
  have hfalls : (g'.node n).fallsThrough isa = true :=
    (hisa.idle _ (Bool.eq_true_of_not_eq_false hext)).1
  rw [hs.last n hn] at hfalls
  cases hfalls

include hlen

/-- **Where no jump is stranded, the layout can be relaxed.** -/
theorem exists_relax (hstays : ∀ n ∈ layout, ¬ g.Stranded isa layout n) :
    ∃ r, relax isa g' layout arguments = .ok r :=
  exists_relax_of_operandOf hlen (fun _ => hs.last_not_extension hisa)
    fun {_ _} hnodes hw {_ _ _} hr hwidth =>
      exists_operandOf_of_not_stranded hs hnodes hw hr hwidth
        (hstays _ (instruction_mem hnodes hr))

/-- **Where a jump is stranded, relaxation fails with the direction of a jump.** -/
theorem relax_eq_error {n : NodeId} (hn : n ∈ layout) (hstranded : g.Stranded isa layout n) :
    ∃ opcode finish target, relax isa g' layout arguments =
      .error (.graph (.invalidJumpDirection opcode finish target)) := by
  obtain ⟨runs, hruns⟩ := exists_runsOf hlen fun _ => hs.last_not_extension hisa
  obtain ⟨hnodes, hspec⟩ := runsOf_spec hlen.ge hruns
  have hshaped : ∀ r ∈ runs, Shaped isa g' r := fun r hr => (hspec r hr).1
  -- a stranded jump is no extension unit, so it is the instruction of its run
  obtain ⟨r, hr, hnr⟩ := List.mem_flatMap.mp (hnodes ▸ hn : n ∈ runs.flatMap Run.nodes)
  obtain ⟨i, hi⟩ := List.mem_iff_getElem?.mp hr
  obtain rfl : n = r.instruction := by
    rcases List.mem_append.mp hnr with hreserved | hlast
    · have hidle : ((g'.node n).flags isa).isJump = false :=
        (hisa.idle _ ((hshaped r hr).reserved n hreserved)).2
      rw [Flags.isJump, (hs.kept n hstranded.lt hstranded.1).1, Bool.or_true] at hidle
      cases hidle
    · exact List.mem_singleton.mp hlast
  obtain ⟨last, final, hfinal, hend⟩ := settle_reserved isa g' runs
  have hw := (widthsAt_spec hfinal).1.length_eq
  rcases hend with ⟨e, he, hsettle⟩ | ⟨operands, hops, -, -⟩
  · -- the last round fails for some run
    obtain ⟨r', hr', start, width, hfails⟩ := exists_of_operandsFrom_eq_error he
    obtain ⟨i', hi'⟩ := List.mem_iff_getElem?.mp hr'
    obtain ⟨opcode, finish, target, rfl⟩ :=
      invalidJumpDirection_of_operandOf hs hnodes hw hi' hfails
    exact ⟨opcode, finish, target, by simp only [relax, hruns, hsettle]⟩
  · -- it cannot have found the operand of the stranded jump
    obtain ⟨ho, hall⟩ := (operandsFrom_eq_ok_iff 0 hw).mp hops
    obtain ⟨p, hp, rfl, hwidth, -, hstart⟩ := getElem?_place 0 hw ho hi
    rw [getElem?_startsFrom 0 final (List.getElem?_eq_some_iff.mp hwidth).1, Nat.zero_add] at hstart
    have hok := hall p (List.mem_of_getElem? hp)
    rw [← Option.some.inj hstart] at hok
    exact absurd hok
      (operandOf_of_stranded hisa hs hnodes hw hshaped hi hwidth hstranded p.operand)

end Steered

theorem Steered.pair_sublist_iff_lt {words : List Word} {pools : Pools}
    (hs : Steered isa g g' 0 handlers layout) (h : Stream.Unedited isa words pools g)
    (hroots : ∀ r ∈ 0 :: handlers, r < g.size) {n t : NodeId} (hn : n ∈ layout) (hlt : n < g.size)
    (ht : t ∈ layout) (htlt : t < g.size) : [n, t] <+ layout ↔ n < t := by
  have hascending := Layout.pairwise_order h.closed hroots (fun _ => h.offset_of_lt) fun n s hs => (h.next hs).1
  have hmem : ∀ m ∈ layout, m < g.size →
      m ∈ Layout.order isa g 0 (g.reachable isa (0 :: handlers)) := fun m hm hlt =>
    (Layout.mem_order h.closed hroots).mpr ((hs.mem_iff m hlt).mp hm)
  have hahead : ∀ {m k : NodeId}, m ∈ layout → m < g.size → k ∈ layout → k < g.size → m < k →
      [m, k] <+ layout := fun hm hmlt hk hklt hlt =>
    (Layout.pair_sublist_of_pairwise_lt hascending (hmem _ hm hmlt) (hmem _ hk hklt) hlt).trans
      hs.in_order
  -- and so no node stands before an earlier one
  refine ⟨fun hsub => ?_, hahead hn hlt ht htlt⟩
  obtain ⟨i, k, hik, hi, hk⟩ := Layout.pair_sublist_iff.mp hsub
  by_contra hge
  rcases Nat.lt_or_eq_of_le (Nat.not_lt.mp hge) with hless | rfl
  · obtain ⟨k', i', hki, hk', hi'⟩ := Layout.pair_sublist_iff.mp (hahead ht htlt hn hlt hless)
    have := Layout.getElem?_inj_of_nodup hs.nodup hi hi'
    have := Layout.getElem?_inj_of_nodup hs.nodup hk hk'
    omega
  · have := Layout.getElem?_inj_of_nodup hs.nodup hi hk
    omega

/-- **In code as it was read the stranded jumps are those of distance zero.** -/
theorem Steered.stranded_iff {words : List Word} {pools : Pools}
    (hs : Steered isa g g' 0 handlers layout) (h : Stream.Unedited isa words pools g)
    (hisa : isa.Directed) (hroots : ∀ r ∈ 0 :: handlers, r < g.size) {n : NodeId}
    (hn : n ∈ layout) : g.Stranded isa layout n ↔
      g.JumpsBack isa n ∧ (g.node n).branch = some (n + 1) := by
  have hlive : ∀ {t : NodeId}, n < g.size → g.JumpsBack isa n → (g.node n).branch = some t →
      t < g.size ∧ t ∈ layout ∧ t ≤ n + 1 := by
    intro t hlt ⟨hrelative, hback⟩ hbranch
    have hj : (g.node n).isJump isa = true := by
      rw [Node.isJump, Flags.isJump, hrelative, Bool.or_true]
    have htlt : t < g.size := (h.closed n hlt).2 t hbranch
    obtain ⟨word, argument, hw, ha⟩ := h.at_lt hlt
    obtain ⟨t', -, hbranch', hdistance⟩ := h.jumps hw ha hj
    obtain rfl : t = t' := Option.some.inj (hbranch.symm.trans hbranch')
    refine ⟨htlt, (hs.mem_iff t htlt).mpr (((hs.mem_iff n hlt).mp hn).step
      (mem_targets.mpr (Or.inr (branch?_eq_some.mpr ⟨hj, hbranch⟩)))), ?_⟩
    have habs : ((g.node n).flags isa).jumpAbsolute = false := hisa.addressing _ hrelative
    -- what was read is a distance backwards from the end of the instruction
    rcases (distance_eq_ok_iff.mp (hdistance n 0 rfl)).2 habs with ⟨-, hle⟩ | ⟨hforward, -⟩
    · exact hle
    · rw [hback] at hforward
      cases hforward
  constructor
  · intro hstranded
    have hlt := hstranded.lt
    obtain ⟨hjump, t, hbranch, hsub⟩ := hstranded
    obtain ⟨htlt, ht, hle⟩ := hlive hlt hjump hbranch
    have hahead := (hs.pair_sublist_iff_lt h hroots hn hlt ht htlt).mp hsub
    obtain rfl : t = n + 1 := Nat.le_antisymm hle hahead
    exact ⟨hjump, hbranch⟩
  · rintro ⟨hjump, hbranch⟩
    have hlt : n < g.size := by
      by_contra hge
      rw [node_of_size_le (Nat.not_lt.mp hge)] at hbranch
      cases hbranch
    obtain ⟨htlt, ht, -⟩ := hlive hlt hjump hbranch
    exact ⟨hjump, n + 1, hbranch,
      (hs.pair_sublist_iff_lt h hroots hn hlt ht htlt).mpr (Nat.lt_succ_self n)⟩

/-- **Which relative jumps can be expressed.** When jumps that count backwards were put into a
built-in instruction set, a graph whose nodes have their edges is still laid out so that every
relative jump that counts forwards stands before its target, and one that counts backwards keeps a
target that does not stand behind it. A backward jump whose target stands behind it is stranded: it
is pointed at a new jump that stands behind both. The layout can be relaxed if and only if no jump
is stranded, and if one is, relaxation fails with the direction of a jump. In code as it was read
only backward jumps of distance zero are stranded. -/
theorem relax_linearized (hisa : isa.BackwardJumps) (hg : g.Closed)
    (hroots : ∀ r ∈ entry :: handlers, r < g.size)
    (hcomplete : ∀ n, g.Live isa (entry :: handlers) n → g.HasEdges isa n) :
    ∃ g' layout, g.linearize isa entry handlers = .ok (g', layout) ∧
      (∀ n < g.size, n ∈ layout ↔ g.Live isa (entry :: handlers) n) ∧
      (∀ n ∈ layout, ((g'.node n).flags isa).jumpRelative = true →
        ((g'.node n).flags isa).jumpBackward = false →
          ∃ t, (g'.node n).branch = some t ∧ [n, t] <+ layout) ∧
      (∀ n ∈ layout, g'.JumpsBack isa n → ∃ t ∈ layout, (g.node n).branch = some t ∧
        (¬ [n, t] <+ layout ∧ (g'.node n).branch = some t ∨
          g.Stranded isa layout n ∧ ∃ j ∈ layout, g.size ≤ j ∧ (g'.node n).branch = some j ∧
            g'.JumpsTo isa j t ∧ [n, j] <+ layout ∧ [t, j] <+ layout)) ∧
      (∀ h arguments, g'.SameCode h → arguments.length = layout.length →
        ((∃ r, relax isa h layout arguments = .ok r) ↔ ∀ n ∈ layout, ¬ g.Stranded isa layout n) ∧
        ((∃ opcode finish target, relax isa h layout arguments =
            .error (.graph (.invalidJumpDirection opcode finish target))) ↔
          ∃ n ∈ layout, g.Stranded isa layout n)) ∧
      ∀ words pools, Stream.Unedited isa words pools g → entry = 0 → ∀ n ∈ layout,
        (g.Stranded isa layout n ↔ g.JumpsBack isa n ∧ (g.node n).branch = some (n + 1)) := by
  have hdirected := hisa.directed
  obtain ⟨g', layout, hlin, hs⟩ := exists_steered hdirected hg hroots hcomplete
  refine ⟨g', layout, hlin, hs.mem_iff, hs.forward, fun n hn hjump => ?_,
    fun h arguments hsame hlen => ?_, fun words pools h hentry n hn => ?_⟩
  · obtain ⟨-, hold, t, ht, hbranch, hcase⟩ := hs.backward n hn hjump
    refine ⟨t, ht, hbranch, hcase.imp_right ?_⟩
    rintro ⟨hsub, j, hd⟩
    exact ⟨⟨hold, t, hbranch, hsub⟩, j, hd.mem, hd.added, hd.branch, hd.jumpsTo,
      Layout.pair_sublist_trans hs.nodup hsub hd.behind, hd.behind⟩
  · have hs' := hs.of_sameCode hsame
    by_cases hstays : ∀ n ∈ layout, ¬ g.Stranded isa layout n
    · obtain ⟨r, hr⟩ := hs'.exists_relax hdirected hlen hstays
      refine ⟨iff_of_true ⟨r, hr⟩ hstays, iff_of_false ?_ ?_⟩
      · rintro ⟨opcode, finish, target, herror⟩
        rw [hr] at herror
        cases herror
      · rintro ⟨n, hn, hstranded⟩
        exact hstays n hn hstranded
    · obtain ⟨n, hn, hstranded⟩ : ∃ n ∈ layout, g.Stranded isa layout n := by
        simpa only [not_forall, not_not, exists_prop] using hstays
      obtain ⟨opcode, finish, target, herror⟩ := hs'.relax_eq_error hdirected hlen hn hstranded
      refine ⟨iff_of_false ?_ hstays,
        iff_of_true ⟨opcode, finish, target, herror⟩ ⟨n, hn, hstranded⟩⟩
      rintro ⟨r, hr⟩
      rw [hr] at herror
      cases herror
  · subst hentry
    exact hs.stranded_iff h hdirected hroots hn

/-- An instruction and a jump back to it. -/
theorem relax_linearized_loop : ∃ g, Stream.decode .looping [9, 0, 200, 4] {} = .ok g ∧
    InstructionSet.looping.BackwardJumps ∧ g.Closed ∧ (∀ r ∈ [0], r < g.size) ∧
    (∀ n, g.Live .looping [0] n → g.HasEdges .looping n) ∧
    ∃ g' layout, g.linearize .looping 0 [] = .ok (g', layout) ∧
      ∀ arguments, arguments.length = layout.length →
        ∃ r, relax .looping g' layout arguments = .ok r := by
  have hread : (Stream.decode .looping [9, 0, 200, 4] {}).toOption.map
      (·.nodes.map fun node => (node.opcode, node.branch)) =
      some #[(⟨9⟩, none), (⟨200⟩, some 0)] := by decide +kernel
  obtain ⟨g, words, hd, h, hpos, hfound⟩ := exists_unedited hread
  have hroots : ∀ r ∈ [0], r < g.size := fun r hr => List.mem_singleton.mp hr ▸ hpos
  have hcomplete : ∀ n, g.Live .looping [0] n → g.HasEdges .looping n := fun n hn =>
    h.hasEdges (h.closed.lt_of_live hroots hn)
  obtain ⟨g', layout, hlin, -, -, -, hrelax, hstranded⟩ :=
    relax_linearized InstructionSet.backwardJumps_looping h.closed hroots hcomplete
  refine ⟨g, hd, InstructionSet.backwardJumps_looping, h.closed, hroots, hcomplete, g', layout, hlin,
    fun arguments hlen => (hrelax g' arguments (.refl g') hlen).1.mpr fun n hn hs => ?_⟩
  obtain ⟨-, hbranch⟩ := (hstranded words {} h rfl n hn).mp hs
  have hpair := congrArg Prod.snd (hfound n)
  rcases n with _ | _ | n
  · rw [hbranch] at hpair
    cases hpair
  · rw [hbranch] at hpair
    cases hpair
  · rw [hbranch] at hpair
    cases hpair

/-- **A backward jump to the next unit can be read but not written.** It is pointed ahead, at a new
jump at the end of the code. -/
theorem exists_stranded : ∃ g, Stream.decode .looping [200, 0, 83, 0] {} = .ok g ∧
    InstructionSet.looping.BackwardJumps ∧ g.Closed ∧ (∀ r ∈ [0], r < g.size) ∧
    (∀ n, g.Live .looping [0] n → g.HasEdges .looping n) ∧
    ∃ g' layout, g.linearize .looping 0 [] = .ok (g', layout) ∧
      (∃ n ∈ layout, g'.JumpsBack .looping n ∧
        ∃ j, (g'.node n).branch = some j ∧ [n, j] <+ layout) ∧
      ∀ arguments, arguments.length = layout.length → ∃ opcode finish target,
        relax .looping g' layout arguments =
          .error (.graph (.invalidJumpDirection opcode finish target)) := by
  have hread : (Stream.decode .looping [200, 0, 83, 0] {}).toOption.map
      (·.nodes.map fun node => (node.opcode, node.branch)) =
      some #[(⟨200⟩, some 1), (⟨83⟩, none)] := by decide +kernel
  obtain ⟨g, words, hd, h, hpos, hfound⟩ := exists_unedited hread
  have hdirected := InstructionSet.backwardJumps_looping.directed
  have hroots : ∀ r ∈ [0], r < g.size := fun r hr => List.mem_singleton.mp hr ▸ hpos
  have hcomplete : ∀ n, g.Live .looping [0] n → g.HasEdges .looping n := fun n hn =>
    h.hasEdges (h.closed.lt_of_live hroots hn)
  obtain ⟨g', layout, hlin, hs⟩ := exists_steered hdirected h.closed hroots hcomplete
  have hmem : 0 ∈ layout := (hs.mem_iff 0 hpos).mpr (Reach.root List.mem_cons_self)
  obtain ⟨hopcode, hbranch⟩ := Prod.mk.inj (hfound 0)
  have hjump : g.JumpsBack .looping 0 := by
    rw [JumpsBack, Node.flags, hopcode, InstructionSet.looping, InstructionSet.flags_withOpcode]
    decide +kernel
  have hstranded := (hs.stranded_iff h hdirected hroots hmem).mpr ⟨hjump, hbranch⟩
  have hjump' := hs.kept 0 hpos hjump
  refine ⟨g, hd, InstructionSet.backwardJumps_looping, h.closed, hroots, hcomplete, g', layout, hlin,
    ⟨0, hmem, hjump', ?_⟩, fun arguments hlen => hs.relax_eq_error hdirected hlen hmem hstranded⟩
  obtain ⟨-, -, t, -, hto, ⟨hnot, -⟩ | ⟨hahead, j, hj⟩⟩ := hs.backward 0 hmem hjump'
  · obtain ⟨-, t', hto', hahead⟩ := hstranded
    obtain rfl : t' = t := Option.some.inj (hto'.symm.trans hto)
    exact absurd hahead hnot
  · exact ⟨j, hj.branch, Layout.pair_sublist_trans hs.nodup hahead hj.behind⟩

end Graph

end Wordcode
