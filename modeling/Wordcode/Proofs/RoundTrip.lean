/-
# Decoding and encoding again

A code object that is decoded and encoded without an edit comes back with the same code,
pools and line table, if all of its code can run, no jump leads into the middle of an
instruction with extension units, and there are no digits that no instruction uses. The
assembler gives the units that were read (`Wordcode.Proofs.Standing`), decoded regions
leave flattening nothing to do (`Wordcode.Proofs.Opened`), and a line table that was
written unit by unit is that of the runs (`Wordcode.Proofs.LineTable`).

Key definitions: `CodeUnit.Decoded`, `CodeUnit.Tidy`.
Key theorems: `CodeUnit.exists_decoded`, `CodeUnit.encode_of_assemble`,
`CodeUnit.encode_decode`.
-/
import Wordcode.CodeUnit
import Wordcode.Proofs.LineTable
import Wordcode.Proofs.Opened
import Wordcode.Proofs.Standing

namespace Wordcode

namespace CodeUnit

variable {isa : InstructionSet} {object : CodeObject} {u : CodeUnit} {words : List Word}
  {pools : Pools} {g : Graph} {lines : List LineTable.Line}

/-! ### Nodes with lines -/

section Lines

@[simp] theorem line_atLine (node : Node) (line : LineTable.Line) :
    (atLine node line).position.map (·.line) = line := by
  cases line <;> rfl

theorem size_withLines (hlen : lines.length = g.size) : (withLines g lines).size = g.size := by
  have hsize : (withLines g lines).size = min g.size lines.length := Array.size_zipWith
  rw [hsize, hlen, Nat.min_self]

theorem node_withLines {k : Nat} {line : LineTable.Line} (hk : k < g.size)
    (hline : lines[k]? = some line) : (withLines g lines).node k = atLine (g.node k) line := by
  have hnode : g.nodes[k]? = some g.nodes[k] := Array.getElem?_eq_getElem hk
  simp only [Graph.node, withLines, Array.getD_eq_getD_getElem?, Array.getElem?_zipWith, hnode,
    List.getElem?_toArray, hline, Option.getD_some]

theorem unedited_withLines (h : Stream.Reads isa words pools g) (hlen : lines.length = g.size) :
    Stream.Unedited isa words pools (withLines g lines) where
  size_eq := (size_withLines hlen).trans h.size_eq
  narrow := h.narrow
  unit := fun k word argument hw ha => by
    obtain ⟨node, hread, hlink⟩ := h.unit k word argument hw ha
    have hk : k < g.size := h.size_eq ▸ (List.getElem?_eq_some_iff.mp hw).1
    have hline : lines[k]? = some _ := List.getElem?_eq_getElem (hlen ▸ hk)
    exact ⟨node, g.node k, _, hread, hlink, node_withLines hk hline⟩

/-- The nodes of the graph stand at the lines. -/
def AtLines (g : Graph) (lines : List LineTable.Line) : Prop :=
  lines.length = g.size ∧ ∀ k line, lines[k]? = some line →
    (g.node k).position.map (·.line) = line

theorem atLines_withLines (hlen : lines.length = g.size) : AtLines (withLines g lines) lines := by
  refine ⟨hlen.trans (size_withLines hlen).symm, fun k line hline => ?_⟩
  have hk : k < g.size := hlen ▸ (List.getElem?_eq_some_iff.mp hline).1
  rw [node_withLines hk hline, line_atLine]

/-- When the nodes stand at their own units, their lines are those of the units. -/
theorem lineRuns_eq_numbered {g' : Graph} {a : Assembled} (hlines : AtLines g lines)
    (hsame : g.SameCode g') (hlayout : a.layout = List.range g.size)
    (hunits : a.units = List.range g.size) : lineRuns g' a = LineTable.numbered lines 0 := by
  apply List.ext_getElem?
  intro k
  rw [lineRuns, hlayout, hunits, LineTable.getElem?_numbered, List.getElem?_map, Nat.zero_add]
  by_cases hk : k < g.size
  · obtain ⟨line, hline⟩ : ∃ line, lines[k]? = some line :=
      ⟨_, List.getElem?_eq_getElem (hlines.1 ▸ hk)⟩
    have hzip : ((List.range g.size).zip (List.range g.size))[k]? = some (k, k) :=
      List.getElem?_zip_eq_some.mpr ⟨List.getElem?_range hk, List.getElem?_range hk⟩
    rw [hzip, hline, Option.map_some, Option.map_some, hsame.position, hlines.2 k line hline]
  · have hge := Nat.not_lt.mp hk
    have hnone : ((List.range g.size).zip (List.range g.size))[k]? = none := by
      apply List.getElem?_eq_none
      rw [List.length_zip, List.length_range, Nat.min_self]
      exact hge
    rw [hnone, List.getElem?_eq_none (hlines.1 ▸ hge)]
    rfl

end Lines

/-! ### Decoding -/

section Decode

theorem eq_of_flatMap_toBytes : ∀ {xs ys : List Word},
    xs.flatMap Word.toBytes = ys.flatMap Word.toBytes → xs = ys
  | [], [], _ => rfl
  | [], _ :: _, h => by cases h
  | _ :: _, [], h => by cases h
  | ⟨⟨op⟩, arg⟩ :: xs, ⟨⟨op'⟩, arg'⟩ :: ys, h => by
    obtain ⟨hop, h⟩ := List.cons.inj h
    obtain ⟨harg, h⟩ := List.cons.inj h
    have hop' : op = op' := hop
    have harg' : arg = arg' := harg
    rw [hop', harg', eq_of_flatMap_toBytes h]

/-- The unit of a code object with code `words` whose units stand at `lines`. -/
structure Decoded (isa : InstructionSet) (object : CodeObject) (words : List Word)
    (lines : List LineTable.Line) (u : CodeUnit) : Prop where
  isa_eq : u.isa = isa
  entry_eq : u.entry = 0
  pools_eq : u.pools = object.pools
  header_eq : u.header = object.header
  exceptions_eq : u.exceptions = .reconstruct isa u.graph (List.range u.graph.size)
  code_eq : object.code = words.flatMap Word.toBytes
  nonempty : words ≠ []
  unedited : Stream.Unedited isa words object.pools u.graph
  atLines : AtLines u.graph lines
  lines_eq : LineTable.decode isa.lineFormat object.lineTable object.header.firstlineno
    words.length = .ok lines

theorem exists_decoded (h : decode isa object = .ok u) : ∃ words lines,
    Decoded isa object words lines u := by
  unfold decode at h
  cases hd : Stream.decode isa object.code object.pools with
  | error e =>
    rw [hd] at h
    cases h
  | ok g =>
    simp only [hd] at h
    obtain ⟨words, hne, hcode, hreads⟩ := Stream.decode_eq_ok_iff.mp hd
    cases hl : LineTable.decode isa.lineFormat object.lineTable object.header.firstlineno g.size with
    | error e =>
      rw [hl] at h
      cases h
    | ok lines =>
      simp only [hl] at h
      obtain rfl := Except.ok.inj h
      have hlen : lines.length = g.size := LineTable.length_decode hl
      exact ⟨words, lines, rfl, rfl, rfl, rfl, rfl, hcode, hne, unedited_withLines hreads hlen,
        atLines_withLines hlen, hreads.size_eq ▸ hl⟩

theorem exists_decoded_of_code (isa : InstructionSet) (object : CodeObject) (words : List Word)
    (hok : (decode isa object).toBool = true)
    (hcode : object.code = words.flatMap Word.toBytes) :
    ∃ u lines, decode isa object = .ok u ∧ Decoded isa object words lines u := by
  cases hu : decode isa object with
  | error e =>
    rw [hu] at hok
    cases hok
  | ok u =>
    obtain ⟨words', lines, hd⟩ := exists_decoded hu
    obtain rfl : words = words' := eq_of_flatMap_toBytes (hcode.symm.trans hd.code_eq)
    exact ⟨u, lines, rfl, hd⟩

namespace Decoded

variable (hd : Decoded isa object words lines u)
include hd

/-- The handlers are where the instructions that open a block lead to. -/
theorem mem_handlers {h : NodeId} : h ∈ u.exceptions.handlers ↔ u.graph.IsHandler isa h := by
  rw [hd.exceptions_eq]
  refine RegionTable.mem_handlers_reconstruct hd.unedited.closed fun n hn => ?_
  obtain ⟨word, argument, hw, ha⟩ := hd.unedited.at_lt hn
  exact ⟨2 * n, hd.unedited.offset hw ha⟩

theorem mem_roots (r : NodeId) : r ∈ u.roots ↔ r = 0 ∨ u.graph.IsHandler isa r := by
  rw [roots, List.mem_cons, hd.entry_eq, hd.mem_handlers]

theorem roots_lt : ∀ r ∈ 0 :: u.exceptions.handlers, r < u.graph.size := by
  intro r hr
  rcases List.mem_cons.mp hr with rfl | hr
  · rw [hd.unedited.size_eq]
    exact List.length_pos_iff.mpr hd.nonempty
  · obtain ⟨s, -, -, hbranch⟩ := hd.mem_handlers.mp hr
    exact hd.unedited.closed.lt_of_branch hbranch

theorem opened : u.exceptions.Opened := by
  rw [hd.exceptions_eq]
  exact RegionTable.opened_reconstruct _

end Decoded

end Decode

/-! ### Encoding -/

theorem flatten_of_opened (hopened : u.exceptions.Opened) :
    flatten { u with predecessors? := none } = ({ u with predecessors? := none }, .ok ()) := by
  unfold flatten
  rw [Flattening.all_of_opened hopened]

/-- Encoding is assembly when all regions have been opened. -/
theorem encode_of_assemble (hopened : u.exceptions.Opened) {g' : Graph} {a : Assembled}
    (h : u.graph.assemble u.isa u.entry u.exceptions.handlers u.pools = (g', .ok a)) :
    ∃ u', u.encode = (u', .ok (
      { header := encodedHeader g' u.entry a.pools u.header u.isa, code := a.code, pools := a.pools
        lineTable := LineTable.encode u.isa.lineFormat u.header.firstlineno (lineRuns g' a)
          a.totalUnits }, a.stats)) := by
  unfold encode
  simp only [flatten_of_opened hopened, h]
  exact ⟨_, rfl⟩

/-! ### The round trip -/

/-- Code without units that never run, jumps to an extension unit behind the first of its
run, and digits for instructions that have no operand. -/
structure Tidy (isa : InstructionSet) (words : List Word) (g : Graph) : Prop where
  reached : ∀ k < g.size, ∃ r, (r = 0 ∨ g.IsHandler isa r) ∧ g.Live isa [r] k
  landed : ∀ n t, g.branch? isa n = some (t + 1) → (g.node t).isExtension isa = false
  zero : ∀ (k : Nat) (word : Word), words[k]? = some word →
    (isa.flags word.opcode).hasArgument = false → (Stream.folded isa words 0)[k]? = some 0

theorem Decoded.assemble (hd : Decoded isa object words lines u) (hisa : isa.Regular)
    (htidy : Tidy isa words u.graph) : ∃ g',
    u.graph.assemble u.isa u.entry u.exceptions.handlers u.pools = (g', .ok
      { words, pools := object.pools, layout := List.range u.graph.size
        units := List.range u.graph.size, stats := ⟨1, 0⟩ }) ∧ u.graph.SameCode g' := by
  rw [hd.isa_eq, hd.entry_eq, hd.pools_eq]
  refine hd.unedited.assemble hisa hd.roots_lt (fun k hk => ?_) htidy.landed htidy.zero
  obtain ⟨r, hr, s, hs, hpath⟩ := htidy.reached k hk
  obtain rfl := List.mem_singleton.mp hs
  refine ⟨s, ?_, hpath⟩
  rcases hr with rfl | hr
  · exact List.mem_cons_self
  · exact List.mem_cons_of_mem _ (hd.mem_handlers.mpr hr)

/-- **Decoded code is encoded as it was**, in one round and without new extension units. The
header can differ in the size of the stack and the number of locals alone, and a line
table that the encoder can write comes back as well. -/
theorem encode_decode (hisa : isa.BuiltIn) (h : decode isa object = .ok u)
    (hwords : object.code = words.flatMap Word.toBytes) (htidy : Tidy isa words u.graph) :
    ∃ u' object', u.encode = (u', .ok (object', ⟨1, 0⟩)) ∧ object'.code = object.code ∧
      object'.pools = object.pools ∧
      { object'.header with
        stacksize := object.header.stacksize
        nlocals := object.header.nlocals } = object.header ∧
      ∀ runs, object.header.firstlineno < UInt32.size → LineTable.Ordered words.length runs 0 →
        object.lineTable =
          LineTable.encode isa.lineFormat object.header.firstlineno runs words.length →
        object'.lineTable = object.lineTable := by
  obtain ⟨words', lines, hd⟩ := exists_decoded h
  obtain rfl : words = words' := eq_of_flatMap_toBytes (hwords.symm.trans hd.code_eq)
  obtain ⟨g', hassemble, hsame⟩ := hd.assemble hisa.regular htidy
  obtain ⟨u', hencode⟩ := encode_of_assemble hd.opened hassemble
  rw [hd.isa_eq, hd.header_eq] at hencode
  refine ⟨u', _, hencode, hwords.symm, rfl, rfl, fun runs hfirst hordered htable => ?_⟩
  obtain ⟨lines', hread, hagain⟩ := LineTable.encode_decode_encode isa.lineFormat hordered hfirst
  rw [← htable] at hread hagain
  obtain rfl : lines = lines' := Except.ok.inj (hd.lines_eq.symm.trans hread)
  rw [lineRuns_eq_numbered hd.atLines hsame rfl rfl]
  exact hagain

/-- A jump to itself with an extension unit before it is tidy. -/
theorem tidy_of_loop (hd : Decoded .python38 object [⟨⟨144⟩, 0⟩, ⟨⟨113⟩, 0⟩] lines u) :
    Tidy .python38 [⟨⟨144⟩, 0⟩, ⟨⟨113⟩, 0⟩] u.graph := by
  have hextension : InstructionSet.python38.flags ⟨144⟩ =
      { hasArgument := true, extension := true } := by
    rw [InstructionSet.flags, InstructionSet.info_eq rfl]
    decide +kernel
  have hjump : InstructionSet.python38.flags ⟨113⟩ =
      { hasArgument := true, jumpAbsolute := true, unconditional := true } := by
    rw [InstructionSet.flags, InstructionSet.info_eq rfl]
    decide +kernel
  set words : List Word := [⟨⟨144⟩, 0⟩, ⟨⟨113⟩, 0⟩] with hwords
  have hsize : u.graph.size = 2 := hd.unedited.size_eq
  have hw : words[0]? = some ⟨⟨144⟩, 0⟩ := rfl
  have hw' : words[1]? = some ⟨⟨113⟩, 0⟩ := rfl
  have ha : (Stream.folded .python38 words 0)[0]? = some 0 := Stream.getElem?_folded_zero _ 0 hw
  have ha' : (Stream.folded .python38 words 0)[1]? = some 0 := by
    rw [Stream.getElem?_folded_succ _ hw hw' ha, hextension]
    rfl
  have hflags := (hd.unedited.flags hw ha).trans hextension
  have hflags' := (hd.unedited.flags hw' ha').trans hjump
  have hnext : u.graph.fallthrough? .python38 0 = some 1 := by
    have hfalls : (u.graph.node 0).fallsThrough .python38 = true := by
      rw [Node.fallsThrough, hflags]
      rfl
    refine Graph.fallthrough?_eq_some.mpr ⟨hfalls, ?_⟩
    rw [hd.unedited.successor hw ha, if_pos hfalls]
  have hback : ∀ n t : Nat, u.graph.branch? .python38 n = some t → t = 0 := by
    intro n t ht
    obtain ⟨hjumps, hbranch⟩ := Graph.branch?_eq_some.mp ht
    by_cases hn : n < u.graph.size
    · rcases (by omega : n = 0 ∨ n = 1) with rfl | rfl
      · rw [Node.isJump, hflags] at hjumps
        cases hjumps
      · rw [hd.unedited.branch hw' ha', if_pos hjumps, hflags'] at hbranch
        exact (Option.some.inj hbranch).symm
    · rw [Graph.node_of_size_le (Nat.not_lt.mp hn)] at hbranch
      cases hbranch
  constructor
  · intro k hk
    have hzero : u.graph.Live .python38 [0] 0 := Reach.root List.mem_cons_self
    refine ⟨0, Or.inl rfl, ?_⟩
    rcases (by omega : k = 0 ∨ k = 1) with rfl | rfl
    · exact hzero
    · exact hzero.step (Graph.mem_targets.mpr (Or.inl hnext))
  · intro n t ht
    cases hback n (t + 1) ht
  · intro k word hk hno
    have hlt : k < 2 := (List.getElem?_eq_some_iff.mp hk).1
    rcases (by omega : k = 0 ∨ k = 1) with rfl | rfl
    · exact ha
    · exact ha'

/-- A jump to itself with an extension unit before it comes back. -/
theorem encode_decode_loop :
    let object : CodeObject := { code := [144, 0, 113, 0], lineTable := [0, 2] }
    ∃ u u' object', decode .python38 object = .ok u ∧
      Tidy .python38 [⟨⟨144⟩, 0⟩, ⟨⟨113⟩, 0⟩] u.graph ∧
      u.encode = (u', .ok (object', ⟨1, 0⟩)) ∧ object'.code = object.code ∧
      object'.pools = object.pools ∧
      { object'.header with
        stacksize := object.header.stacksize
        nlocals := object.header.nlocals } = object.header ∧
      object'.lineTable = object.lineTable := by
  intro object
  have hok : (decode .python38 object).toBool = true := by decide +kernel
  cases hu : decode .python38 object with
  | error e =>
    rw [hu] at hok
    cases hok
  | ok u =>
    have hcode : object.code = [⟨⟨144⟩, 0⟩, ⟨⟨113⟩, 0⟩].flatMap Word.toBytes := rfl
    obtain ⟨words, lines, hd⟩ := exists_decoded hu
    obtain rfl := eq_of_flatMap_toBytes (hcode.symm.trans hd.code_eq)
    have htidy := tidy_of_loop hd
    obtain ⟨u', object', hencode, hcode', hpools, hheader, hline⟩ :=
      encode_decode (Or.inl rfl) hu hcode htidy
    have hordered : LineTable.Ordered 2 [(0, some 3)] 0 :=
      ⟨Nat.le_refl 0, by decide, fun l hl => Option.some.inj hl ▸ (by decide), trivial⟩
    have hline' := hline [(0, some 3)] (by decide) hordered (by decide)
    exact ⟨u, u', object', rfl, htidy, hencode, hcode', hpools, hheader, hline'⟩

end CodeUnit

end Wordcode
