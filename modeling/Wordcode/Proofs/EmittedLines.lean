/-
# Lines come through encoding

Encoding leaves the position of every instruction alone, and what it adds stands at the
position of an instruction that was there: the opener of a region at that of the first
member, an exit where the region is left, a jump where it was needed
(`Graph.KeepsPositions`). So all lines that are written are lines of the unit.

What is read back from the line table of the emitted code is the line of the node that a
unit belongs to. In the range format a node without a line gives its units none, and in
an lnotab the line of the last node before it in the layout that has one.

Key definitions: `Graph.KeepsPositions`, `Relaxation.Placed.owner`, `Graph.lineIn`.
Key theorems: `CodeUnit.Encoded.keepsPositions`, `LineTable.getElem?_linesFrom`,
`Relaxation.exists_slot`, `CodeUnit.decode_lines_encode`.
-/
import Wordcode.Proofs.Encoded

namespace Wordcode

/-! ### Positions -/

/-- `g'` came of `g` by changes that leave positions alone, and by adding nodes at positions of
nodes of `g`. -/
structure Graph.KeepsPositions (g g' : Graph) : Prop where
  size_le : g.size ≤ g'.size
  old : ∀ n < g.size, (g'.node n).position = (g.node n).position
  /-- Every position, those of the new nodes too, is one of `g`. -/
  every : ∀ n, ∃ m, (g'.node n).position = (g.node m).position

namespace Graph.KeepsPositions

variable {g g' g'' : Graph}

theorem refl (g : Graph) : g.KeepsPositions g := ⟨Nat.le_refl _, fun _ _ => rfl, fun n => ⟨n, rfl⟩⟩

theorem trans (h : g.KeepsPositions g') (h' : g'.KeepsPositions g'') : g.KeepsPositions g'' where
  size_le := Nat.le_trans h.size_le h'.size_le
  old := fun n hn => (h'.old n (Nat.lt_of_lt_of_le hn h.size_le)).trans (h.old n hn)
  every := fun n => by
    obtain ⟨k, hk⟩ := h'.every n
    obtain ⟨m, hm⟩ := h.every k
    exact ⟨m, hk.trans hm⟩

theorem of_sameCode (s : g.SameCode g') : g.KeepsPositions g' where
  size_le := Nat.le_of_eq s.size_eq.symm
  old := fun n _ => s.position n
  every := fun n => ⟨n, s.position n⟩

theorem modify (n : NodeId) {f : Node → Node} (hf : ∀ node, (f node).position = node.position) :
    g.KeepsPositions (g.modify n f) := by
  have hnode : ∀ m, ((g.modify n f).node m).position = (g.node m).position := fun m => by
    rw [node_modify]
    split
    · exact hf _
    · rfl
  exact ⟨Nat.le_of_eq (size_modify g n f).symm, fun m _ => hnode m, fun m => ⟨m, hnode m⟩⟩

theorem redirect (n : NodeId) (e : Edge) (target : Option NodeId) :
    g.KeepsPositions (g.redirect n e target) :=
  modify n fun node => by cases e <;> rfl

theorem alloc {node : Node} {m : NodeId} (hm : node.position = (g.node m).position) :
    g.KeepsPositions (g.alloc node) where
  size_le := size_alloc g node ▸ Nat.le_succ _
  old := fun n hn => by rw [node_alloc, if_neg (Nat.ne_of_lt hn)]
  every := fun n => by
    rw [node_alloc]
    split
    · exact ⟨m, hm⟩
    · exact ⟨n, rfl⟩

theorem foldl {α : Type} {step : Graph → α → Graph}
    (hstep : ∀ (g : Graph) (a : α), g.KeepsPositions (step g a)) : ∀ (as : List α) (g : Graph),
      g.KeepsPositions (as.foldl step g)
  | [], g => refl g
  | a :: as, g => (hstep g a).trans (foldl hstep as (step g a))

end Graph.KeepsPositions

namespace Flattening

variable {isa : InstructionSet} {f f' : Flattening} {r : Region} {i : Nat}

theorem keepsPositions_opened (g : Graph) (handler first : NodeId) (outside : List (NodeId × Edge)) :
    g.KeepsPositions (opened isa g handler first outside) := by
  unfold opened
  refine Graph.KeepsPositions.trans ?_ (.foldl (fun _ _ => .redirect ..) outside _)
  exact .alloc (m := first) rfl

theorem Exits.keepsPositions_beforeReturn (x : Exits) (n : NodeId) :
    x.graph.KeepsPositions (x.beforeReturn isa n).graph := by
  unfold Exits.beforeReturn
  refine Graph.KeepsPositions.trans ?_ (.modify n fun _ => rfl)
  exact .alloc (m := n) rfl

theorem Exits.keepsPositions_onEdge (x : Exits) (n target : NodeId) (e : Edge) :
    x.graph.KeepsPositions (x.onEdge isa n target e).graph := by
  unfold Exits.onEdge
  split
  · exact .redirect n e _
  · refine Graph.KeepsPositions.trans ?_ (.redirect n e _)
    exact .alloc (m := n) rfl

theorem Exits.keepsPositions_foldl {α : Type} {step : Exits → α → Exits}
    (hstep : ∀ (x : Exits) (a : α), x.graph.KeepsPositions (step x a).graph) :
    ∀ (as : List α) (x : Exits),
      x.graph.KeepsPositions (as.foldl step x).graph
  | [], x => .refl x.graph
  | a :: as, x => (hstep x a).trans (keepsPositions_foldl hstep as (step x a))

theorem Exits.keepsPositions_atMember (inside : NodeId → Bool) (x : Exits) (n : NodeId) :
    x.graph.KeepsPositions (Exits.atMember isa inside x n).graph := by
  unfold Exits.atMember
  by_cases hreturns : ((x.graph.node n).flags isa).returns = true
  · simp only [hreturns, if_true]
    exact x.keepsPositions_beforeReturn n
  · simp only [hreturns, Bool.false_eq_true, if_false]
    exact keepsPositions_foldl (fun x (t : NodeId × Edge) => x.keepsPositions_onEdge n t.1 t.2) _ x

theorem keepsPositions_region (h : f.region isa i r = .ok f') : f.graph.KeepsPositions f'.graph := by
  rw [region_eq] at h
  split at h
  · case _ first _ =>
    obtain rfl := Except.ok.inj h
    have hopened : f.graph.KeepsPositions (f.withOpener isa r first) := keepsPositions_opened ..
    have hexits : (f.withOpener isa r first).KeepsPositions (f.withExits isa r first).graph :=
      Exits.keepsPositions_foldl (Exits.keepsPositions_atMember _) (f.membersOf isa r.members)
        { graph := f.withOpener isa r first }
    exact hopened.trans hexits
  · cases h

theorem keepsPositions_regionsAt : ∀ {places : List Nat} {f : Flattening},
    f.regionsAt isa places = (f', .ok ()) → f.graph.KeepsPositions f'.graph
  | [], f, h => (Prod.mk.inj h).1 ▸ .refl f.graph
  | i :: places, f, h => by
    obtain ⟨f₁, hrest, ⟨rfl, -⟩ | ⟨r, -, hregion⟩⟩ := regionsAt_cons_eq_ok h
    · exact keepsPositions_regionsAt hrest
    · exact (keepsPositions_region hregion).trans (keepsPositions_regionsAt hrest)

end Flattening

namespace Layout

variable {isa : InstructionSet}

theorem keepsPositions_detours {edge : Edge}
    {detour? : Graph → NodeId → Nat → Option (NodeId × Opcode)} :
    ∀ (nodes : List NodeId) (i : Nat) (g : Graph) (done : Array (Option NodeId)),
      g.KeepsPositions (detours edge detour? nodes i g done).1
  | [], _, g, _ => .refl g
  | n :: nodes, i, g, done => by
    rw [detours]
    split
    · exact keepsPositions_detours nodes (i + 1) g _
    · refine Graph.KeepsPositions.trans ?_ (keepsPositions_detours nodes (i + 1) _ _)
      refine Graph.KeepsPositions.trans ?_ (.redirect n edge _)
      exact .alloc (m := n) rfl

end Layout

namespace Graph

variable {isa : InstructionSet} {g g' : Graph} {entry : NodeId} {handlers : List NodeId}
  {pools : Pools} {a : Assembled}

theorem keepsPositions_linearize {layout : List NodeId}
    (h : g.linearize isa entry handlers = .ok (g', layout)) : g.KeepsPositions g' := by
  obtain ⟨found, g₁, closed, g₂, -, hclose, hadd, rfl⟩ := linearize_eq_ok h
  have hgaps : g.KeepsPositions (Layout.closeGaps isa g (Layout.order isa g entry found)).1 :=
    Layout.keepsPositions_detours ..
  rw [hclose] at hgaps
  have htrampolines : g₁.KeepsPositions (Layout.addTrampolines isa g₁ closed).1 :=
    Layout.keepsPositions_detours ..
  rw [hadd] at htrampolines
  exact (hgaps.trans htrampolines).trans (.of_sameCode (Layout.sameCode_bindOffsets ..))

theorem keepsPositions_assemble (hisa : isa.Regular) (hg : g.Closed)
    (hroots : ∀ r ∈ entry :: handlers, r < g.size)
    (h : g.assemble isa entry handlers pools = (g', .ok a)) : g.KeepsPositions g' := by
  obtain ⟨g₁, -, -, -, hlin, -, -, hsame, -⟩ := exists_emits hisa hg hroots h
  exact (keepsPositions_linearize hlin).trans (.of_sameCode hsame)

end Graph

/-- **Encoding keeps positions.** -/
theorem CodeUnit.Encoded.keepsPositions {u u' v : CodeUnit} {object : CodeObject}
    {stats : EncodeStats} {a : Assembled} (e : Encoded u u' object stats v a)
    (hisa : u.isa.BuiltIn) (hu : u.Valid) : u.graph.KeepsPositions u'.graph := by
  have hv := e.valid hisa.blocks hu
  obtain ⟨f, hall, hf⟩ := flatten_eq_ok e.flattened
  have hgraph : v.graph = f.graph := congrArg CodeUnit.graph hf
  have hflat : u.graph.KeepsPositions v.graph := hgraph ▸ Flattening.keepsPositions_regionsAt hall
  have hregular : v.isa.Regular := e.isa_eq ▸ hisa.regular
  exact hflat.trans (Graph.keepsPositions_assemble hregular hv.closed hv.roots_lt e.assembled)

/-! ### The line of a unit -/

namespace LineTable

variable {units : Nat}

/-- The line behind the start of the last of some runs, given by their lines, when `current` was
the line before them. -/
def carriedOver (format : LineFormat) (lines : List Line) (current : Line) : Line :=
  lines.foldl (fun current line => carried format line current) current

theorem Ordered.le : ∀ {runs : List (Nat × Line)} {unit : Nat} {run : Nat × Line},
    Ordered units runs unit → run ∈ runs → unit ≤ run.1
  | (start, line) :: runs, unit, run, h, hmem => by
    obtain ⟨hunit, -, -, hrest⟩ := h
    rcases List.mem_cons.mp hmem with rfl | hmem
    · exact hunit
    · have := hrest.le hmem
      omega

/-- A unit has the line that is carried up to the last run that starts at it or before it. -/
theorem getElem?_linesFrom (format : LineFormat) : ∀ {runs : List (Nat × Line)} {unit : Nat}
    (current : Line) {i start k : Nat} {line : Line}, Ordered units runs unit →
    runs[i]? = some (start, line) → start ≤ k → k < units →
    (∀ start' line', runs[i + 1]? = some (start', line') → k < start') →
    (linesFrom format units runs unit current)[k - unit]? =
      some (carriedOver format ((runs.map (·.2)).take (i + 1)) current)
  | [], _, _, _, _, _, _, _, h, _, _, _ => nomatch h
  | (start₀, line₀) :: runs, unit, current, i, start, k, line, hordered, h, hstart, hk, hnext => by
    obtain ⟨hunit, hlt, -, hrest⟩ := hordered
    have hskip : ∀ later : List Line, start₀ ≤ k →
        (List.replicate (start₀ - unit) current ++ later)[k - unit]? = later[k - start₀]? := by
      intro later hle
      rw [List.getElem?_append_right (by rw [List.length_replicate]; omega), List.length_replicate]
      congr 1
      omega
    cases i with
    | zero =>
      obtain ⟨rfl, rfl⟩ := Prod.mk.inj (Option.some.inj h)
      rw [linesFrom, hskip _ hstart]
      -- the line is current up to the next run
      cases runs with
      | nil =>
        rw [linesFrom, List.getElem?_replicate_of_lt (by omega)]
        rfl
      | cons next runs =>
        obtain ⟨start', line'⟩ := next
        have hbefore : k < start' := hnext start' line' rfl
        rw [linesFrom, List.getElem?_append_left (by rw [List.length_replicate]; omega),
          List.getElem?_replicate_of_lt (by omega)]
        rfl
    | succ i =>
      have hle : start₀ + 1 ≤ start := hrest.le (List.mem_of_getElem? h)
      rw [linesFrom, hskip _ (by omega)]
      exact getElem?_linesFrom format _ (hrest.mono (Nat.le_succ _)) h hstart hk hnext

/-- In a range table only the last run counts. -/
theorem carriedOver_ranges (lines : List Line) (line current : Line) :
    carriedOver .ranges (lines ++ [line]) current = line := by
  rw [carriedOver, List.foldl_append]
  rfl

/-- In an lnotab the last run that has a line counts. -/
theorem carriedOver_lnotab : ∀ (lines : List Line) (current : Nat),
    carriedOver .lnotab lines (some current) = some (lines.reduceOption.getLastD current)
  | [], _ => rfl
  | none :: lines, current => carriedOver_lnotab lines current
  | some line :: lines, current => by
    rw [List.reduceOption_cons_of_some, List.getLastD_cons]
    exact carriedOver_lnotab lines line

end LineTable

/-! ### The node of a unit -/

namespace Relaxation

/-- The node to which unit `j` of a run belongs: each reserved extension unit to its own node, all
others, the inserted ones and the instruction itself, to the instruction. -/
def Placed.owner (p : Placed) (j : Nat) : NodeId := p.run.reserved.getD j p.run.instruction

variable {placed : List Placed} {p : Placed} {start j : Nat}

theorem Placed.getElem?_nodes (p : Placed) (j : Nat) :
    p.run.nodes[min j p.run.reserved.length]? = some (p.owner j) := by
  rw [Run.nodes, Placed.owner, List.getD_eq_getElem?_getD]
  by_cases hlt : j < p.run.reserved.length
  · rw [Nat.min_eq_left (Nat.le_of_lt hlt), List.getElem?_append_left hlt,
      List.getElem?_eq_getElem hlt]
    rfl
  · rw [Nat.min_eq_right (Nat.not_lt.mp hlt), List.getElem?_concat_length,
      List.getElem?_eq_none (Nat.not_lt.mp hlt)]
    rfl

/-- The place in the layout of the node of a unit: the last one that starts at the unit or before
it. -/
theorem exists_slot (h : Consecutive start placed) (hp : p ∈ placed)
    (hreserved : ∀ p ∈ placed, p.run.reserved.length ≤ p.width) (hj : j ≤ p.width) :
    ∃ i first, (placed.flatMap (·.run.nodes))[i]? = some (p.owner j) ∧
      (placed.flatMap unitsOf)[i]? = some first ∧ first ≤ p.start + j ∧
      ∀ next, (placed.flatMap unitsOf)[i + 1]? = some next → p.start + j < next := by
  induction placed generalizing start with
  | nil => cases hp
  | cons q placed ih =>
    obtain ⟨hq, hrest⟩ := h
    obtain ⟨hqreserved, hlater⟩ := List.forall_mem_cons.mp hreserved
    have hnodes : q.run.nodes.length = q.run.reserved.length + 1 := by
      rw [Run.nodes, List.length_append, List.length_singleton]
    have hunits : (unitsOf q).length = q.run.reserved.length + 1 := by
      rw [unitsOf, List.length_map, List.length_range]
    rw [List.flatMap_cons, List.flatMap_cons]
    rcases List.mem_cons.mp hp with rfl | hp
    · refine ⟨min j p.run.reserved.length, p.start + min j p.run.reserved.length, ?_, ?_, ?_, ?_⟩
      · rw [List.getElem?_append_left (by omega)]
        exact p.getElem?_nodes j
      · rw [List.getElem?_append_left (by omega), unitsOf, List.getElem?_map,
          List.getElem?_range (by omega)]
        rfl
      · omega
      · intro next hnext
        by_cases hlt : j < p.run.reserved.length
        · rw [List.getElem?_append_left (by omega), unitsOf, List.getElem?_map,
            List.getElem?_range (by omega)] at hnext
          have heq : p.start + (min j p.run.reserved.length + 1) = next := Option.some.inj hnext
          omega
        · rw [List.getElem?_append_right (by omega)] at hnext
          have := (pairwise_units hrest hlater).2 next (List.mem_of_getElem? hnext)
          omega
    · obtain ⟨i, first, hnode, hfirst, hle, hnext⟩ := ih hrest hp hlater
      refine ⟨q.run.reserved.length + 1 + i, first, ?_, ?_, hle, fun next hat => hnext next ?_⟩
      · rw [List.getElem?_append_right (by omega), hnodes, Nat.add_sub_cancel_left, hnode]
      · rw [List.getElem?_append_right (by omega), hunits, Nat.add_sub_cancel_left, hfirst]
      · rw [Nat.add_assoc, List.getElem?_append_right (by omega), hunits,
          Nat.add_sub_cancel_left] at hat
        exact hat

end Relaxation

/-! ### Lines read back -/

namespace Graph

/-- The line of a node, if it has one. -/
def line (g : Graph) (n : NodeId) : LineTable.Line := (g.node n).position.map (·.line)

/-- The line that a line table gives a node of a layout: in the range format its own, in an
lnotab that of the last node up to it that has one, the first line of the code if none
has. -/
def lineIn (format : LineFormat) (g : Graph) (firstLine : Nat) (layout : List NodeId) (n : NodeId) :
    LineTable.Line :=
  match format with
  | .ranges => g.line n
  | .lnotab => some (((layout.take (layout.idxOf n + 1)).map g.line).reduceOption.getLastD firstLine)

end Graph

namespace CodeUnit

open Relaxation

variable {u u' v : CodeUnit} {object : CodeObject} {stats : EncodeStats} {g : Graph} {a : Assembled}
  {placed : List Placed}

theorem getElem?_lines {isa : InstructionSet} (he : Graph.Emits isa g a placed) (hnd : a.layout.Nodup) (format : LineFormat) (firstLine : Nat)
    (hordered : LineTable.Ordered a.words.length (lineRuns g a) 0) {p : Placed} (hp : p ∈ placed)
    {j : Nat} (hj : j ≤ p.width) :
    (LineTable.linesFrom format a.words.length (lineRuns g a) 0 (some firstLine))[p.start + j]? =
      some (g.lineIn format firstLine a.layout (p.owner j)) := by
  obtain ⟨i, first, hnode, hfirst, hle, hnext⟩ := exists_slot he.consecutive hp he.reserved hj
  rw [he.nodes_eq] at hnode
  rw [← he.units_eq] at hfirst hnext
  have hlen : a.layout.length = a.units.length := by
    rw [he.units_eq, length_units, he.nodes_eq]
  have hunits : (lineRuns g a).map (·.1) = a.units := by
    rw [lineRuns, List.map_map]
    exact List.map_snd_zip (Nat.le_of_eq hlen.symm)
  have hlines : (lineRuns g a).map (·.2) = a.layout.map g.line := by
    have hnodes : (a.layout.zip a.units).map (·.1) = a.layout := List.map_fst_zip (Nat.le_of_eq hlen)
    conv_rhs => rw [← hnodes]
    rw [lineRuns, List.map_map, List.map_map]
    rfl
  -- the run of lines at the unit is the one of its owner, and the next begins behind it
  have hrun : (lineRuns g a)[i]? = some (first, g.line (p.owner j)) := by
    have hzip : (a.layout.zip a.units)[i]? = some (p.owner j, first) :=
      List.getElem?_zip_eq_some.mpr ⟨hnode, hfirst⟩
    rw [lineRuns, List.getElem?_map, hzip]
    rfl
  have hlt : p.start + j < a.words.length := by
    have := he.start_add_lt hp
    omega
  have hbefore : ∀ start line, (lineRuns g a)[i + 1]? = some (start, line) → p.start + j < start := by
    intro start line hat
    refine hnext start ?_
    rw [← hunits, List.getElem?_map, hat]
    rfl
  have hat := LineTable.getElem?_linesFrom format (some firstLine) hordered hrun hle hlt hbefore
  rw [Nat.sub_zero, hlines] at hat
  have htake : (a.layout.map g.line).take (i + 1) =
      (a.layout.take i).map g.line ++ [g.line (p.owner j)] := by
    rw [← List.map_take, List.take_add_one, hnode, List.map_append]
    rfl
  rw [hat, htake]
  cases format with
  | ranges => rw [LineTable.carriedOver_ranges, Graph.lineIn]
  | lnotab =>
    have hindex : a.layout.idxOf (p.owner j) = i := by
      obtain ⟨hslot, hget⟩ := List.getElem?_eq_some_iff.mp hnode
      exact hget ▸ List.Nodup.idxOf_getElem hnd i hslot
    rw [LineTable.carriedOver_lnotab, Graph.lineIn, hindex, ← htake, List.map_take]

theorem Encoded.decode_lineTable (e : Encoded u u' object stats v a) (hisa : u.isa.BuiltIn)
    (hu : u.Valid) (hfirst : u.header.firstlineno < UInt32.size)
    (hlines : ∀ n l, u.graph.line n = some l → l < UInt32.size)
    (he : Graph.Emits u.isa u'.graph a placed) :
    LineTable.Ordered a.words.length (lineRuns u'.graph a) 0 ∧
      LineTable.decode u.isa.lineFormat object.lineTable u.header.firstlineno a.words.length =
        .ok (LineTable.linesFrom u.isa.lineFormat a.words.length (lineRuns u'.graph a) 0
          (some u.header.firstlineno)) := by
  have hordered : LineTable.Ordered a.words.length (lineRuns u'.graph a) 0 := by
    refine ordered_lineRuns he fun n _ l hl => ?_
    obtain ⟨m, hm⟩ := (e.keepsPositions hisa hu).every n
    rw [hm] at hl
    exact hlines m l hl
  have htable : object.lineTable = LineTable.encode u.isa.lineFormat u.header.firstlineno
      (lineRuns u'.graph a) a.words.length := by
    rw [e.object_eq, written, e.isa_eq, e.header_eq]
    rfl
  have hread := LineTable.decode_encode u.isa.lineFormat hordered hfirst
  rw [← htable] at hread
  exact ⟨hordered, hread⟩

/-- **Lines survive encoding.** What the line table of the emitted code is read back as has a line
for every code unit: that of the node of the layout which the unit belongs to. And these nodes
stand where they stood before, those that were added at positions that were there. -/
theorem decode_lines_encode (hisa : u.isa.BuiltIn) (hu : u.Valid)
    (hfirst : u.header.firstlineno < UInt32.size)
    (hlines : ∀ n l, u.graph.line n = some l → l < UInt32.size)
    (h : u.encode = (u', .ok (object, stats))) : ∃ v a placed lines,
      Encoded u u' object stats v a ∧ Graph.Emits u.isa u'.graph a placed ∧
      LineTable.decode u.isa.lineFormat object.lineTable u.header.firstlineno
        (object.code.length / 2) = .ok lines ∧
      lines.length = object.code.length / 2 ∧
      (∀ k < object.code.length / 2, ∃ p ∈ placed, ∃ j ≤ p.width, k = p.start + j ∧
        lines[k]? =
          some (u'.graph.lineIn u.isa.lineFormat u.header.firstlineno a.layout (p.owner j))) ∧
      u.graph.KeepsPositions u'.graph := by
  obtain ⟨v, a, e⟩ := exists_encoded h
  obtain ⟨hlaid, placed, he⟩ := e.emits hisa hu
  have hkeeps := e.keepsPositions hisa hu
  obtain ⟨hordered, hread⟩ := e.decode_lineTable hisa hu hfirst hlines he
  have hunits : object.code.length / 2 = a.words.length := by
    rw [e.object_eq, written, Assembled.length_code, Nat.mul_div_cancel _ Nat.two_pos]
  rw [hunits]
  refine ⟨v, a, placed, _, e, he, hread, ?_, fun k hk => ?_, hkeeps⟩
  · exact LineTable.length_decode hread
  · rw [he.words_eq] at hk
    obtain ⟨p, hp, j, hj, hkj⟩ := exists_of_lt_length he.consecutive (fun p _ => length_wordsOf p) hk
    rw [Nat.zero_add] at hkj
    refine ⟨p, hp, j, hj, hkj, ?_⟩
    rw [hkj]
    exact getElem?_lines he hlaid.nodup u.isa.lineFormat u.header.firstlineno hordered hp hj

/-- Two instructions at two lines. -/
theorem decode_lines_encode_two :
    let object : CodeObject :=
      { header := { firstlineno := 7 }, code := [9, 0, 83, 0], lineTable := [2, 1] }
    ∃ u u' object' stats, decode .python38 object = .ok u ∧ u.isa.BuiltIn ∧ u.Valid ∧
      u.header.firstlineno < UInt32.size ∧
      (∀ n l, u.graph.line n = some l → l < UInt32.size) ∧ u.encode = (u', .ok (object', stats)) ∧
      ∃ lines, LineTable.decode .lnotab object'.lineTable 7 (object'.code.length / 2) = .ok lines ∧
        lines.length = object'.code.length / 2 := by
  intro object
  obtain ⟨u, lines, hu, hd⟩ := exists_decoded_of_code .python38 object [⟨⟨9⟩, 0⟩, ⟨⟨83⟩, 0⟩]
    (by decide +kernel) rfl
  have hpython : InstructionSet.python38.BuiltIn := Or.inl rfl
  have hisa : u.isa.BuiltIn := Or.inl hd.isa_eq
  have hfirst : u.header.firstlineno = 7 := by rw [hd.header_eq]
  have hsmall : u.header.firstlineno < UInt32.size := hfirst ▸ by decide
  have hlines : ∀ n l, u.graph.line n = some l → l < UInt32.size := by
    intro n l hl
    by_cases hn : n < u.graph.size
    · exact hd.line_lt hn hl
    · rw [Graph.line, Graph.node_of_size_le (Nat.not_lt.mp hn)] at hl
      cases hl
  obtain ⟨u', ⟨object', stats⟩, he⟩ := hd.exists_encode hpython.regular
  obtain ⟨-, -, -, read, -, -, hread, hlen, -⟩ :=
    decode_lines_encode hisa hd.valid hsmall hlines he
  rw [hfirst, hd.isa_eq] at hread
  exact ⟨u, u', object', stats, hu, hisa, hd.valid, hsmall, hlines, he, read, hread, hlen⟩

end CodeUnit

end Wordcode
