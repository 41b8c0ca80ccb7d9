/-
# When there is code for a graph

Assembly asks two things of the nodes that execution can get to: they have the edges
that their flags ask for, and their operands are of the kinds that the opcodes expect
(`Graph.Consistent`). These are enough. A layout ends in an instruction, so no extension
unit is stray; it holds the target of every jump, the target of a relative one further
on, so each jump has an operand whatever the widths are; widening comes to an end; and
no index runs into flag bits, as there are none. So the only errors are those about a
node that lacks an edge or has an operand of the wrong kind (`Graph.Reports`).

Code that was decoded is consistent in every node, also where execution never gets, and
leading its edges past trivial instructions leaves it so (`Graph.Whole`).

Key definitions: `Graph.Consistent`, `Graph.Reports`, `Graph.Whole`.
Key theorems: `Relaxation.exists_relax`, `Graph.reports_of_assemble`,
`Graph.consistent_of_assemble`, `Graph.Whole.optimise`, `CodeUnit.exists_encode`,
`Graph.assemble_eq_ok_iff`.
-/
import Wordcode.Proofs.RoundTrip
import Wordcode.Proofs.Simplify
import Wordcode.Proofs.Widening

namespace Wordcode

variable {isa : InstructionSet} {g g' : Graph} {entry : NodeId} {handlers roots : List NodeId}

/-! ### Faults of a graph -/

namespace Graph

variable (isa g) in
/-- The operand of a node is of the kind that its opcode expects. An extension unit has
none. -/
def Fits (n : NodeId) : Prop := (g.node n).isExtension isa = false →
  (g.node n).operand.fits (isa.info (g.node n).opcode).operand = true

/-- What execution can get to has all its edges, and operands that fit. -/
structure Consistent (isa : InstructionSet) (g : Graph) (roots : List NodeId) : Prop where
  hasEdges : ∀ n, g.Live isa roots n → g.HasEdges isa n
  fits : ∀ n, g.Live isa roots n → g.Fits isa n

/-- The error says what is wrong with node `n`. -/
inductive Reports (isa : InstructionSet) (g : Graph) (n : NodeId) : Error → Prop
  | danglingSuccessor (hfalls : (g.node n).fallsThrough isa = true)
      (hnone : (g.node n).successor = none) :
      Reports isa g n (.graph (.danglingSuccessor (g.node n).opcode (g.node n).offset))
  | missingBranchTarget (hjump : (g.node n).isJump isa = true) (hnone : (g.node n).branch = none) :
      Reports isa g n (.graph (.missingBranchTarget (g.node n).opcode (g.node n).offset))
  | operandMismatch (hext : (g.node n).isExtension isa = false)
      (hfits : (g.node n).operand.fits (isa.info (g.node n).opcode).operand = false) :
      Reports isa g n (.operandMismatch (g.node n).opcode (isa.info (g.node n).opcode).operand
        (g.node n).operand.kind)

theorem Consistent.not_reports (h : g.Consistent isa roots) {n : Nat} (hn : g.Live isa roots n)
    (e : Error) : ¬ g.Reports isa n e := by
  rintro (⟨hfalls, hnone⟩ | ⟨hjump, hnone⟩ | ⟨hext, hfits⟩)
  · exact (h.hasEdges n hn).1 hfalls hnone
  · exact (h.hasEdges n hn).2 hjump hnone
  · rw [h.fits n hn hext] at hfits
    cases hfits

theorem reports_of_missingEdge? {n : Nat} {e : GraphError} (h : g.missingEdge? isa n = some e) :
    g.Reports isa n (.graph e) := by
  simp only [missingEdge?] at h
  split at h
  · rename_i hfalls
    obtain rfl := Option.some.inj h
    exact .danglingSuccessor hfalls.1 hfalls.2
  · split at h
    · rename_i hjump
      obtain rfl := Option.some.inj h
      exact .missingBranchTarget hjump.1 hjump.2
    · cases h

theorem reports_of_linearize (hg : g.Closed) (hroots : ∀ r ∈ entry :: handlers, r < g.size)
    {e : GraphError} (h : g.linearize isa entry handlers = .error e) :
    ∃ n, g.Live isa (entry :: handlers) n ∧ g.Reports isa n (.graph e) := by
  rw [linearize_eq_error_iff] at h
  unfold reachable? at h
  dsimp only at h
  split at h
  · rename_i e' hfound
    obtain rfl := Except.error.inj h
    obtain ⟨n, hn, hmissing⟩ := List.exists_of_findSome?_eq_some hfound
    exact ⟨n, (mem_reachable hg hroots).mp hn, reports_of_missingEdge? hmissing⟩
  · cases h

theorem Laid.fits (hisa : isa.Regular) {layout : List Nat} (hl : Laid isa g g' entry handlers layout)
    {n : Nat} (hn : n ∈ layout) (hold : n < g.size → g.Fits isa n) : g'.Fits isa n := by
  intro hext
  rcases Nat.lt_or_ge n g.size with hlt | hge
  · have hbody := hl.kept n hlt
    have hfits := hold hlt
    rw [Fits, Node.isExtension, ← Node.flags_of_body isa hbody] at hfits
    rw [Node.opcode_of_body hbody, Node.operand_of_body hbody]
    exact hfits hext
  · obtain ⟨-, t, -, -, hjump⟩ := hl.added n hn hge
    rw [hjump.operand]
    exact ((hisa.opcodes _).jump_operand).trans hjump.isJump

end Graph

/-! ### Relaxation of a layout -/

namespace Relaxation

open List

variable {layout arguments widths : List Nat} {runs : List Run} {r q : Run} {i j n t : Nat}

theorem sublist_of_not_mem {l before after : List Nat} (h : n :: l <+ before ++ after)
    (hn : n ∉ before) : n :: l <+ after := by
  obtain ⟨l₁, l₂, heq, hbefore, hafter⟩ := List.sublist_append_iff.mp h
  cases l₁ with
  | nil => exact heq ▸ hafter
  | cons m l₁ =>
    obtain ⟨rfl, -⟩ := List.cons.inj heq
    exact absurd (hbefore.subset List.mem_cons_self) hn

theorem lt_of_pair_sublist (hnd : (runs.flatMap Run.nodes).Nodup) (hr : runs[i]? = some r)
    (hq : runs[j]? = some q) (ht : t ∈ q.nodes)
    (h : [r.instruction, t] <+ runs.flatMap Run.nodes) : i < j := by
  induction runs generalizing i j with
  | nil => cases hr
  | cons first runs ih =>
    rw [List.flatMap_cons] at hnd h
    have hdisjoint := (List.nodup_append.mp hnd).2.2
    cases i with
    | zero =>
      cases j with
      | zero =>
        obtain rfl : first = r := by simpa using hr
        obtain rfl : first = q := by simpa using hq
        -- the instruction is the last node of its run
        rw [Run.nodes, List.append_assoc] at h
        have hnot : first.instruction ∉ first.reserved := by
          intro hmem
          have hnodes := (List.nodup_append.mp hnd).1
          rw [Run.nodes, List.nodup_append] at hnodes
          exact hnodes.2.2 _ hmem _ List.mem_cons_self rfl
        have hrest := List.singleton_sublist.mp
          (List.cons_sublist_cons.mp (sublist_of_not_mem h hnot))
        exact absurd rfl (hdisjoint t ht t hrest)
      | succ j => exact Nat.succ_pos j
    | succ i =>
      have hmem : r.instruction ∈ runs.flatMap Run.nodes :=
        List.mem_flatMap.mpr ⟨r, List.mem_of_getElem? hr,
          List.mem_append_right _ List.mem_cons_self⟩
      have hrest := sublist_of_not_mem h fun hbefore => hdisjoint _ hbefore _ hmem rfl
      cases j with
      | zero =>
        obtain rfl : first = q := by simpa using hq
        -- no node stands in two runs
        have htail : t ∈ runs.flatMap Run.nodes := hrest.subset (by simp)
        exact absurd rfl (hdisjoint t ht t htail)
      | succ j => exact Nat.succ_lt_succ (ih (List.nodup_append.mp hnd).2.1 hr hq hrest)

theorem exists_operandsFrom {owner : Std.HashMap NodeId Nat} {starts : Array Nat} :
    ∀ {runs : List Run} {places widths : List Nat},
    places.length = runs.length → widths.length = runs.length →
    (∀ (i : Nat) {r : Run} {start width : Nat}, runs[i]? = some r → places[i]? = some start →
      widths[i]? = some width →
      ∃ operand, operandOf isa g owner starts r start width = .ok operand) →
    ∃ operands, operandsFrom isa g owner starts runs places widths = .ok operands
  | [], _, _, _, _, _ => ⟨[], by rw [operandsFrom]; simp⟩
  | r :: runs, start :: places, width :: widths, hp, hw, hall => by
    obtain ⟨operand, hop⟩ := hall 0 rfl rfl rfl
    obtain ⟨operands, hops⟩ := exists_operandsFrom (Nat.succ.inj hp) (Nat.succ.inj hw)
      fun i => hall (i + 1)
    exact ⟨operand :: operands, by simp only [operandsFrom, hop, hops]; rfl⟩

theorem exists_distance {flags : Flags} {opcode : Opcode} {start width target : Nat}
    (h : flags.jumpAbsolute = true ∨ flags.jumpBackward = false ∧ start + width + 1 ≤ target) :
    ∃ operand, distance isa flags opcode start width target = .ok operand := by
  unfold distance
  dsimp only
  by_cases habs : flags.jumpAbsolute = true
  · rw [if_pos habs]
    exact ⟨_, rfl⟩
  · obtain ⟨hback, hle⟩ := h.resolve_left habs
    rw [if_neg habs, if_neg (by simp [hback]), if_pos ⟨by simp [hback], hle⟩]
    exact ⟨_, rfl⟩

theorem operandOf_eq_distance (hnd : (runs.flatMap Run.nodes).Nodup)
    (hw : widths.length = runs.length) (hjump : (g.node r.instruction).isJump isa = true)
    (hbranch : (g.node r.instruction).branch = some t) (hq : runs[j]? = some q) (ht : t ∈ q.nodes)
    {start width : Nat} :
    operandOf isa g (owners runs) (startsFrom 0 widths).toArray r start width =
      distance isa ((g.node r.instruction).flags isa) (g.node r.instruction).opcode start width
        (unitsBefore widths j) := by
  have hjlt : j < widths.length := hw ▸ (List.getElem?_eq_some_iff.mp hq).1
  simp only [operandOf, hjump, if_true, hbranch, Option.bind_some, getElem?_owners hnd hq ht,
    getD_startsFrom, if_pos hjlt]

/-- A sequence can be relaxed if it does not end in an extension unit and the operand of every
run can be found, whatever the widths are. -/
theorem exists_relax_of_operandOf (hlen : arguments.length = layout.length)
    (hlast : ∀ n, layout.getLast? = some n → (g.node n).isExtension isa = false)
    (hops : ∀ {runs : List Run} {widths : List Nat}, runs.flatMap Run.nodes = layout →
      widths.length = runs.length → ∀ {i width : Nat} {r : Run}, runs[i]? = some r →
        widths[i]? = some width → ∃ operand, operandOf isa g (owners runs)
          (startsFrom 0 widths).toArray r (unitsBefore widths i) width = .ok operand) :
    ∃ r, relax isa g layout arguments = .ok r := by
  obtain ⟨runs, hruns⟩ := exists_runsOf hlen hlast
  have hnodes := (runsOf_spec hlen.ge hruns).1
  obtain ⟨last, final, hfinal, hend⟩ := settle_reserved isa g runs
  have hw := (widthsAt_spec hfinal).1.length_eq
  have hfound : ∃ operands, operandsFor isa g (owners runs) runs final = .ok operands := by
    refine exists_operandsFrom (by rw [length_startsFrom, hw]) hw
      fun i {r start width} hr hstart hwidth => ?_
    rw [getElem?_startsFrom 0 final (List.getElem?_eq_some_iff.mp hwidth).1, Option.some.injEq,
      Nat.zero_add] at hstart
    exact hstart ▸ hops hnodes hw hr hwidth
  rcases hend with ⟨e, he, -⟩ | ⟨operands, -, -, hsettle⟩
  · obtain ⟨operands, hok⟩ := hfound
    rw [he] at hok
    cases hok
  · unfold relax
    simp only [hruns, hsettle]
    exact ⟨_, rfl⟩

variable (hisa : isa.Regular) (hl : Graph.Laid isa g g' entry handlers layout)
include hisa hl

theorem exists_operandOf (hnodes : runs.flatMap Run.nodes = layout) (hw : widths.length = runs.length)
    {width : Nat} (hr : runs[i]? = some r) (hwidth : widths[i]? = some width) :
    ∃ operand, operandOf isa g' (owners runs) (startsFrom 0 widths).toArray r
      (unitsBefore widths i) width = .ok operand := by
  have hmem : r.instruction ∈ layout := hnodes ▸ List.mem_flatMap.mpr
    ⟨r, List.mem_of_getElem? hr, List.mem_append_right _ List.mem_cons_self⟩
  have hnd : (runs.flatMap Run.nodes).Nodup := hnodes ▸ hl.nodup
  cases hj : (g'.node r.instruction).isJump isa with
  | false => exact ⟨r.argument, by simp [operandOf, hj]⟩
  | true =>
    obtain ⟨t, ht, hbranch⟩ := hl.target _ hmem hj
    rw [← hnodes] at ht
    obtain ⟨q, hq, htq⟩ := List.mem_flatMap.mp ht
    obtain ⟨j, hj'⟩ := List.mem_iff_getElem?.mp hq
    rw [operandOf_eq_distance hnd hw hj hbranch hj' htq]
    apply exists_distance
    -- a jump that is not absolute is relative, so its target lies in a later run
    by_cases habs : ((g'.node r.instruction).flags isa).jumpAbsolute = true
    · exact Or.inl habs
    · have hrelative : ((g'.node r.instruction).flags isa).jumpRelative = true := by
        simpa [Node.isJump, Flags.isJump, habs] using hj
      obtain ⟨t', hbranch', hahead⟩ := hl.forward _ hmem hrelative
      obtain rfl : t = t' := Option.some.inj (hbranch.symm.trans hbranch')
      have hlt := lt_of_pair_sublist hnd hr hj' htq (hnodes ▸ hahead)
      have hsucc := unitsBefore_succ widths i
      rw [hwidth, Option.getD_some] at hsucc
      exact Or.inr ⟨(hisa.opcodes _).forward,
        hsucc ▸ (unitsBefore_le_iff widths).mpr hlt⟩

/-- **A layout can be relaxed.** -/
theorem exists_relax (hlen : arguments.length = layout.length) :
    ∃ r, relax isa g' layout arguments = .ok r := by
  have hlast : ∀ n, layout.getLast? = some n → (g'.node n).isExtension isa = false := by
    intro n hn
    by_contra hext
    have hidle : ((g'.node n).flags isa).fallsThrough = true :=
      ((hisa.opcodes _).idle (Or.inl (Bool.eq_true_of_not_eq_false hext))).1
    have hstops : ((g'.node n).flags isa).fallsThrough = false := hl.last n hn
    rw [hstops] at hidle
    cases hidle
  exact exists_relax_of_operandOf hlen hlast fun {_ _} hnodes hw {_ _ _} hr hwidth =>
    exists_operandOf hisa hl hnodes hw hr hwidth

end Relaxation

/-! ### Assembly of a graph -/

namespace Graph

open Relaxation Assembly

variable {pools : Pools} {a : Assembled}

variable (isa g) in
theorem collect_cases : ∀ (layout : List Nat) (growth : PoolGrowth) (done : Array Collected),
    (∃ operands growth', collect isa g layout growth done = .ok (operands, growth')) ∨
      ∃ n ∈ layout, (g.node n).isExtension isa = false ∧
        (g.node n).operand.fits (isa.info (g.node n).opcode).operand = false ∧
        collect isa g layout growth done = .error (.operandMismatch (g.node n).opcode
          (isa.info (g.node n).opcode).operand (g.node n).operand.kind)
  | [], growth, done => Or.inl ⟨_, _, rfl⟩
  | n :: layout, growth, done => by
    unfold collect
    dsimp only
    cases hext : (g.node n).isExtension isa with
    | true =>
      rw [if_pos rfl]
      rcases collect_cases layout growth (done.push (.ready 0)) with hok | ⟨m, hm, hfault⟩
      · exact Or.inl hok
      · exact Or.inr ⟨m, List.mem_cons_of_mem _ hm, hfault⟩
    | false =>
      rw [if_neg Bool.false_ne_true]
      cases hfits : (g.node n).operand.fits (isa.info (g.node n).opcode).operand with
      | true =>
        rw [if_pos rfl]
        rcases collect_cases layout (collectOperand (g.node n) growth).2
          (done.push (collectOperand (g.node n) growth).1) with hok | ⟨m, hm, hfault⟩
        · exact Or.inl hok
        · exact Or.inr ⟨m, List.mem_cons_of_mem _ hm, hfault⟩
      | false =>
        rw [if_neg Bool.false_ne_true]
        exact Or.inr ⟨n, List.mem_cons_self, hext, hfits, rfl⟩

variable (hisa : isa.Regular)
include hisa

/-- What does not fit in a layout is a node of the graph that execution can get to. -/
theorem Laid.reports {layout : List Nat} (hl : Laid isa g g' entry handlers layout) {n : Nat}
    (hn : n ∈ layout) (hext : (g'.node n).isExtension isa = false)
    (hfits : (g'.node n).operand.fits (isa.info (g'.node n).opcode).operand = false) :
    g.Live isa (entry :: handlers) n ∧ g.Reports isa n (.operandMismatch (g'.node n).opcode
      (isa.info (g'.node n).opcode).operand (g'.node n).operand.kind) := by
  rcases Nat.lt_or_ge n g.size with hlt | hge
  · have hbody := hl.kept n hlt
    rw [Node.isExtension, Node.flags_of_body isa hbody] at hext
    rw [Node.opcode_of_body hbody, Node.operand_of_body hbody] at hfits ⊢
    exact ⟨(hl.mem_iff n hlt).mp hn, .operandMismatch hext hfits⟩
  · rw [hl.fits hisa hn (fun hlt => absurd hlt (Nat.not_lt.mpr hge)) hext] at hfits
    cases hfits

variable (hg : g.Closed) (hroots : ∀ r ∈ entry :: handlers, r < g.size)
include hg hroots

/-- **A failed assembly reports a node that execution can get to.** -/
theorem reports_of_assemble {e : Error} (h : g.assemble isa entry handlers pools = (g', .error e)) :
    ∃ n, g.Live isa (entry :: handlers) n ∧ g.Reports isa n e := by
  cases hlin : g.linearize isa entry handlers with
  | error e' =>
    simp only [assemble, hlin, Prod.mk.injEq, Except.error.injEq] at h
    obtain ⟨rfl, rfl⟩ := h
    exact reports_of_linearize hg hroots hlin
  | ok l =>
    obtain ⟨g₁, layout⟩ := l
    have hlaid := laid_of_linearize hisa hg hroots hlin
    rcases collect_cases isa g₁ layout (.ofPools pools) #[] with
      ⟨operands, growth, hcol⟩ | ⟨n, hn, hext, hfits, hcol⟩
    · -- once all operands are collected, nothing can fail
      obtain ⟨g₂, arguments, hnum⟩ : ∃ g₂ arguments,
          number isa growth (layout.zip operands.toList) g₁ #[] = (g₂, .ok arguments) :=
        exists_number (fun op => (hisa.opcodes op).packing) _ g₁ #[]
      obtain ⟨hsame, later, hlater, hnumbers⟩ := number_spec hnum
      obtain ⟨-, collected, hoperands, hcollects⟩ := collect_spec hcol
      have hlen : arguments.length = layout.length := by
        rw [hlater, Array.toList_empty, List.nil_append, ← hnumbers.length_eq, List.length_zip,
          hoperands, Array.empty_append, List.toList_toArray, ← hcollects.length_eq, Nat.min_self]
      obtain ⟨r, hrel⟩ := exists_relax hisa (hlaid.of_sameCode hsame) hlen
      rw [assemble_of_steps hlin hcol hnum hrel] at h
      cases (Prod.mk.inj h).2
    · simp only [assemble, hlin, hcol, Prod.mk.injEq, Except.error.injEq] at h
      obtain ⟨rfl, rfl⟩ := h
      exact ⟨n, hlaid.reports hisa hn hext hfits⟩

/-- Code is emitted only for a consistent graph. -/
theorem consistent_of_assemble (h : g.assemble isa entry handlers pools = (g', .ok a)) :
    g.Consistent isa (entry :: handlers) := by
  obtain ⟨g₁, operands, growth, -, -, -, hlin, hcol, -⟩ := assemble_eq_ok h
  have hlaid := laid_of_linearize hisa hg hroots hlin
  refine ⟨fun n hn => ?_, fun n hn hext => ?_⟩
  · have hfound : ∃ found, g.reachable? isa (entry :: handlers) = .ok found := by
      cases hf : g.reachable? isa (entry :: handlers) with
      | ok found => exact ⟨found, rfl⟩
      | error e =>
        rw [linearize_eq_error_iff.mpr hf] at hlin
        cases hlin
    obtain ⟨found, hfound⟩ := hfound
    exact ((reachable?_eq_ok_iff hg hroots).mp hfound).2 n hn
  · obtain ⟨-, collected, -, hcollects⟩ := collect_spec hcol
    have hlt := hg.lt_of_live hroots hn
    obtain ⟨i, hi, rfl⟩ := List.mem_iff_getElem.mp ((hlaid.mem_iff n hlt).mpr hn)
    have hc := hcollects.get hi (hcollects.length_eq ▸ hi)
    have hbody := hlaid.kept _ hlt
    rw [List.get_eq_getElem, Collects, Node.isExtension, Node.flags_of_body isa hbody,
      Node.opcode_of_body hbody, Node.operand_of_body hbody, ← Node.isExtension, if_neg (by simp [hext])] at hc
    exact hc.1

end Graph

/-! ### Code that is consistent throughout -/

namespace Graph

/-- Every node has its edges, all edges lead to nodes of the graph, and all operands
fit. -/
structure Whole (isa : InstructionSet) (g : Graph) : Prop where
  closed : g.Closed
  hasEdges : ∀ n < g.size, g.HasEdges isa n
  fits : ∀ n < g.size, g.Fits isa n

theorem Whole.consistent (h : g.Whole isa) (hroots : ∀ r ∈ roots, r < g.size) :
    g.Consistent isa roots where
  hasEdges := fun n hn => h.hasEdges n (h.closed.lt_of_live hroots hn)
  fits := fun n hn => h.fits n (h.closed.lt_of_live hroots hn)

theorem size_foldl_skipEdge (n : Nat) : ∀ (edges : List (Nat × Edge)) (state : Graph × List Nat),
    (edges.foldl (skipEdge isa n) state).1.size = state.1.size
  | [], _ => rfl
  | edge :: edges, state => by
    rw [List.foldl_cons, size_foldl_skipEdge n edges, skipEdge, size_redirect]

theorem size_optimiseFrom : ∀ (room : Nat) (work : List Nat) (seen : Std.HashSet Nat) (g : Graph),
    (optimiseFrom isa room work seen g).size = g.size
  | 0, _, _, _ => rfl
  | room + 1, work, seen, g => by
    unfold optimiseFrom
    split
    · rfl
    · rw [size_optimiseFrom room, skipEdges, size_foldl_skipEdge]

@[simp] theorem size_optimise : (g.optimise isa entry).1.size = g.size := size_optimiseFrom ..

variable (isa) in
/-- Leading edges anew takes none away, and leads to nodes of the graph. -/
theorem edges_ledAlong (hg : g.Closed) : ∀ (edges : List (Nat × Edge)) (node : Node),
    (∀ p ∈ edges, p.1 < g.size) →
    (node.successor ≠ none → (g.ledAlong isa node edges).successor ≠ none) ∧
    (node.branch ≠ none → (g.ledAlong isa node edges).branch ≠ none) ∧
    ((∀ s, node.successor = some s → s < g.size) ∧ (∀ b, node.branch = some b → b < g.size) →
      (∀ s, (g.ledAlong isa node edges).successor = some s → s < g.size) ∧
        ∀ b, (g.ledAlong isa node edges).branch = some b → b < g.size)
  | [], node, _ => ⟨id, id, id⟩
  | (t, e) :: edges, node, hedges => by
    have ht : g.skipTrivial isa t < g.size := skipTrivial_lt hg (hedges _ List.mem_cons_self)
    have ih := edges_ledAlong hg edges (node.withEdge e (some (g.skipTrivial isa t)))
      fun p hp => hedges p (List.mem_cons_of_mem _ hp)
    obtain ⟨hsuccessor, hbranch, hlt⟩ := ih
    cases e with
    | fallthrough =>
      refine ⟨fun _ => hsuccessor (Option.some_ne_none _), hbranch, fun h => hlt ⟨?_, h.2⟩⟩
      exact fun s hs => Option.some.inj hs ▸ ht
    | branch =>
      refine ⟨hsuccessor, fun _ => hbranch (Option.some_ne_none _), fun h => hlt ⟨h.1, ?_⟩⟩
      exact fun b hb => Option.some.inj hb ▸ ht

theorem closed_optimise (hisa : isa.Regular) (hg : g.Closed) (hentry : entry < g.size) :
    (g.optimise isa entry).1.Closed := by
  intro n hn
  rw [size_optimise] at hn ⊢
  rcases node_optimise hisa hg hentry n with ⟨-, heq⟩ | ⟨-, heq⟩
  · have hled := edges_ledAlong isa hg (g.edges isa n) (g.node n) fun p hp =>
      hg.lt_of_mem_targets (List.mem_map_of_mem hp)
    rw [heq]
    exact hled.2.2 (hg n hn)
  · rw [heq]
    exact hg n hn

/-- Leading edges past trivial instructions keeps all of this. -/
theorem Whole.optimise (hisa : isa.Regular) (h : g.Whole isa) (hentry : entry < g.size) :
    (g.optimise isa entry).1.Whole isa := by
  have hnode : ∀ n, (g.optimise isa entry).1.node n = g.led isa n ∨
      (g.optimise isa entry).1.node n = g.node n := fun n =>
    (node_optimise hisa h.closed hentry n).imp And.right And.right
  have hled := fun n => edges_ledAlong isa h.closed (g.edges isa n) (g.node n) fun p hp =>
    h.closed.lt_of_mem_targets (List.mem_map_of_mem hp)
  have hbody := body_optimise hisa h.closed hentry
  refine ⟨closed_optimise hisa h.closed hentry, fun n hn => ?_, fun n hn => ?_⟩
  · rw [size_optimise] at hn
    have hedges := h.hasEdges n hn
    rw [HasEdges, Node.fallsThrough, Node.isJump, Node.flags_of_body isa (hbody n)]
    rcases hnode n with heq | heq
    · rw [heq]
      exact ⟨fun hf => (hled n).1 (hedges.1 hf), fun hj => (hled n).2.1 (hedges.2 hj)⟩
    · rw [heq]
      exact hedges
  · rw [size_optimise] at hn
    have hfits := h.fits n hn
    rwa [Fits, Node.isExtension, Node.flags_of_body isa (hbody n), Node.opcode_of_body (hbody n),
      Node.operand_of_body (hbody n)]

theorem Whole.foldl_optimise (hisa : isa.Regular) : ∀ (entries : List Nat) {g : Graph},
    g.Whole isa → (∀ n ∈ entries, n < g.size) →
    (entries.foldl (fun g n => (g.optimise isa n).1) g).Whole isa ∧
      (entries.foldl (fun g n => (g.optimise isa n).1) g).size = g.size
  | [], _, h, _ => ⟨h, rfl⟩
  | n :: entries, g, h, hlt => by
    have hn := hlt n List.mem_cons_self
    have ih := Whole.foldl_optimise hisa entries (h.optimise hisa hn) fun m hm => by
      rw [size_optimise]
      exact hlt m (List.mem_cons_of_mem _ hm)
    rwa [size_optimise] at ih

end Graph

/-! ### Code units -/

namespace CodeUnit

variable {object : CodeObject} {words : List Word} {lines : List LineTable.Line} {u : CodeUnit}

theorem Decoded.whole (hd : Decoded isa object words lines u) (hisa : isa.Regular) :
    u.graph.Whole isa where
  closed := hd.unedited.closed
  hasEdges := fun _ hn => hd.unedited.hasEdges hn
  fits := fun n hn hext => by
    obtain ⟨word, argument, hw, ha⟩ := hd.unedited.at_lt hn
    exact (hd.unedited.collects hw ha hisa hext).1

/-- A unit whose code is consistent and whose regions have been opened can be encoded. -/
theorem exists_encode (hisa : u.isa.Regular) (hopened : u.exceptions.Opened)
    (hwhole : u.graph.Whole u.isa) (hroots : ∀ r ∈ u.roots, r < u.graph.size) :
    ∃ u' r, u.encode = (u', .ok r) := by
  cases h : u.graph.assemble u.isa u.entry u.exceptions.handlers u.pools with
  | mk g' result =>
    cases result with
    | error e =>
      obtain ⟨n, hn, hreports⟩ := Graph.reports_of_assemble hisa hwhole.closed hroots h
      exact absurd hreports ((hwhole.consistent hroots).not_reports hn e)
    | ok a =>
      obtain ⟨u', hencode⟩ := encode_of_assemble hopened h
      exact ⟨u', _, hencode⟩

theorem Decoded.exists_encode (hd : Decoded isa object words lines u) (hisa : isa.Regular) :
    ∃ u' r, u.encode = (u', .ok r) := by
  have hisa' : u.isa.Regular := hd.isa_eq ▸ hisa
  refine CodeUnit.exists_encode hisa' hd.opened (hd.isa_eq ▸ hd.whole hisa) ?_
  rw [roots, hd.entry_eq]
  exact hd.roots_lt

theorem whole_optimise (hisa : u.isa.Regular) (hwhole : u.graph.Whole u.isa)
    (hroots : ∀ r ∈ u.roots, r < u.graph.size) :
    u.optimise.graph.Whole u.isa ∧ ∀ r ∈ u.optimise.roots, r < u.optimise.graph.size := by
  have hhandlers : ∀ h ∈ u.exceptions.handlers, h < u.graph.size := fun h hh =>
    hroots h (List.mem_cons_of_mem _ hh)
  obtain ⟨hwhole', hsize⟩ := hwhole.foldl_optimise hisa u.exceptions.handlers hhandlers
  have hentry := hsize ▸ hroots u.entry List.mem_cons_self
  have hfinal := hwhole'.optimise hisa hentry
  refine ⟨hfinal, fun r hr => ?_⟩
  rcases List.mem_cons.mp hr with rfl | hr
  · exact Graph.size_optimise.symm ▸ Graph.skipTrivial_lt hwhole'.closed hentry
  · obtain ⟨region, hregion, rfl⟩ := RegionTable.mem_handlers.mp hr
    obtain ⟨old, hold, rfl⟩ := List.mem_map.mp hregion
    have hlt := hhandlers old.handler (RegionTable.mem_handlers.mpr ⟨old, hold, rfl⟩)
    refine Graph.skipTrivial_lt hfinal.closed ?_
    rw [Graph.size_optimise, hsize]
    exact hlt

theorem opened_optimise (hopened : u.exceptions.Opened) : u.optimise.exceptions.Opened := by
  intro r hr
  obtain ⟨old, hold, rfl⟩ := List.mem_map.mp hr
  exact hopened old hold

end CodeUnit

/-! ### What assembly asks for -/

/-- The errors of the steps behind the layout and the check of operands. -/
def Error.Late : Error → Prop
  | .graph (.strayExtension _) => True
  | .graph (.invalidJumpDirection _ _ _) => True
  | .relaxationDivergence _ _ => True
  | .operandOverflow _ _ => True
  | _ => False

namespace Graph

theorem Reports.not_late {n : Nat} {e : Error} (h : g.Reports isa n e) : ¬ e.Late := by
  cases h <;> exact id

/-- **There is code for a graph exactly if it is consistent where execution can get to.**
If not, the error tells of a node there that lacks an edge or has an operand that does not
fit; no later step fails. So every unit that was decoded can be encoded, also when it was
optimised. -/
theorem assemble_eq_ok_iff (hisa : isa.BuiltIn) (hg : g.Closed)
    (hroots : ∀ r ∈ entry :: handlers, r < g.size) (pools : Pools) :
    ((∃ g' a, g.assemble isa entry handlers pools = (g', .ok a)) ↔
      g.Consistent isa (entry :: handlers)) ∧
    (∀ g' e, g.assemble isa entry handlers pools = (g', .error e) →
      ¬ e.Late ∧ ∃ n, g.Live isa (entry :: handlers) n ∧ g.Reports isa n e) ∧
    ∀ object u, CodeUnit.decode isa object = .ok u →
      (∃ u' r, u.encode = (u', .ok r)) ∧ ∃ u' r, u.optimise.encode = (u', .ok r) := by
  have hreg := hisa.regular
  refine ⟨⟨?_, fun hconsistent => ?_⟩, fun g' e h => ?_, fun object u hu => ?_⟩
  · rintro ⟨g', a, h⟩
    exact consistent_of_assemble hreg hg hroots h
  · cases h : g.assemble isa entry handlers pools with
    | mk g' result =>
      cases result with
      | error e =>
        obtain ⟨n, hn, hreports⟩ := reports_of_assemble hreg hg hroots h
        exact absurd hreports (hconsistent.not_reports hn e)
      | ok a => exact ⟨g', a, rfl⟩
  · obtain ⟨n, hn, hreports⟩ := reports_of_assemble hreg hg hroots h
    exact ⟨hreports.not_late, n, hn, hreports⟩
  · obtain ⟨words, lines, hd⟩ := CodeUnit.exists_decoded hu
    have hisa' : u.isa.Regular := hd.isa_eq ▸ hreg
    have hwhole : u.graph.Whole u.isa := hd.isa_eq ▸ hd.whole hreg
    have hroots : ∀ r ∈ u.roots, r < u.graph.size := by
      rw [CodeUnit.roots, hd.entry_eq]
      exact hd.roots_lt
    obtain ⟨hwhole', hroots'⟩ := CodeUnit.whole_optimise hisa' hwhole hroots
    exact ⟨hd.exists_encode hreg,
      CodeUnit.exists_encode hisa' (CodeUnit.opened_optimise hd.opened) hwhole' hroots'⟩

/-- A relative jump to itself, which cannot be written as it stands, is assembled. -/
theorem assemble_eq_ok_iff_backward :
    let g : Graph := ⟨#[{ opcode := ⟨110⟩, operand := .jump, branch := some 0 }]⟩
    (g.Closed ∧ (∀ r ∈ [0], r < g.size) ∧ g.Consistent .python38 [0]) ∧
      ∃ g' a, g.assemble .python38 0 [] {} = (g', .ok a) := by
  intro g
  have hclosed : g.Closed := by decide
  have hroots : ∀ r ∈ [0], r < g.size := by decide
  have hflags : (g.node 0).flags .python38 =
      { hasArgument := true, jumpRelative := true, unconditional := true } := by
    rw [Node.flags, InstructionSet.flags, InstructionSet.info_eq rfl]
    decide +kernel
  have hconsistent : g.Consistent .python38 [0] := by
    constructor
    · intro n hn
      obtain rfl : n = 0 := Nat.lt_one_iff.mp (hclosed.lt_of_live hroots hn)
      refine ⟨fun hfalls => ?_, fun _ => Option.some_ne_none 0⟩
      rw [Node.fallsThrough, hflags] at hfalls
      cases hfalls
    · intro n hn _
      obtain rfl : n = 0 := Nat.lt_one_iff.mp (hclosed.lt_of_live hroots hn)
      rw [InstructionSet.info_eq rfl]
      decide +kernel
  exact ⟨⟨hclosed, hroots, hconsistent⟩,
    (assemble_eq_ok_iff (Or.inl rfl) hclosed hroots {}).1.mpr hconsistent⟩

end Graph

end Wordcode
