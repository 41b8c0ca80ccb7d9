/-
# Encoding a second time

Encoding code that was just decoded drops what execution does not get to, unused digits, and
detours in the line table. What is left is in order: the layout goes up, every operand stands
at the index it was read from, and no jump leads into the middle of a run. So what is encoded
can be decoded, and encoding it again gives the same code object, unless there is more to
drop: an instruction that opens a block keeps its handler from being dropped, but when it is
itself dropped, the handler is held by nothing the next time.

Key definitions: `CodeUnit.written`, `CodeUnit.Again`.
Key theorems: `CodeUnit.Decoded.again`, `CodeUnit.Again.written_eq`,
`CodeUnit.Again.reached_of_code_eq`, `CodeUnit.encode_again`.
-/
import Mathlib.Tactic.TFAE
import Wordcode.Proofs.Consistency
import Wordcode.Proofs.Rereading

namespace Wordcode

/-! ### The stack -/

namespace StackDepth

variable {isa : InstructionSet} {g h : Graph}

theorem deepestFrom_congr (heq : onward? isa h = onward? isa g) : ∀ (room : Nat)
    (work : List (Nat × Nat)) (visited : Std.HashMap Nat Nat) (deepest : Nat),
    deepestFrom isa h room work visited deepest = deepestFrom isa g room work visited deepest
  | 0, _, _, _ => rfl
  | room + 1, work, visited, deepest => by
    simp only [deepestFrom, heq, deepestFrom_congr heq room]

theorem maxStackDepth_of_sameCode (s : g.SameCode h) (roots : List NodeId) :
    maxStackDepth isa h roots = maxStackDepth isa g roots := by
  have heq : onward? isa h = onward? isa g := by
    funext n depth
    have hleave : leave? isa h n depth = leave? isa g n depth := by
      funext edge
      rw [leave?, leave?, Node.effect, Node.effect, s.opcode, s.operand]
    rw [onward?_eq, onward?_eq, hleave, s.edges]
  rw [maxStackDepth, maxStackDepth, deepestFrom_congr heq, s.size_eq]

end StackDepth

/-! ### Decoding what was written -/

namespace Relaxation

variable {placed : List Placed}

theorem pairwise_units : ∀ {placed : List Placed} {start : Nat}, Consecutive start placed →
    (∀ p ∈ placed, p.run.reserved.length ≤ p.width) →
    (placed.flatMap unitsOf).Pairwise (· < ·) ∧ ∀ k ∈ placed.flatMap unitsOf, start ≤ k
  | [], _, _, _ => ⟨.nil, fun _ hk => nomatch hk⟩
  | p :: placed, start, ⟨hstart, hrest⟩, hle => by
    obtain ⟨hp, hplaced⟩ := List.forall_mem_cons.mp hle
    obtain ⟨hascending, hfrom⟩ := pairwise_units hrest hplaced
    have hrun : ∀ k ∈ unitsOf p, start ≤ k ∧ k < start + p.width + 1 := by
      intro k hk
      obtain ⟨j, hj, rfl⟩ := List.mem_map.mp hk
      rw [List.mem_range] at hj
      omega
    rw [List.flatMap_cons]
    refine ⟨List.pairwise_append.mpr ⟨?_, hascending, fun k hk m hm => ?_⟩, fun k hk => ?_⟩
    · exact List.pairwise_map.mpr (List.pairwise_lt_range.imp fun h => Nat.add_lt_add_left h _)
    · exact Nat.lt_of_lt_of_le (hrun k hk).2 (hfrom m hm)
    · rcases List.mem_append.mp hk with hk | hk
      · exact (hrun k hk).1
      · have := hfrom k hk
        omega

theorem length_units (placed : List Placed) :
    (placed.flatMap unitsOf).length = (placed.flatMap (·.run.nodes)).length := by
  simp only [List.length_flatMap, unitsOf, Run.nodes, List.length_map, List.length_range,
    List.length_append, List.length_singleton]

end Relaxation

/-! ### Counting instructions -/

theorem countP_flatMap_eq_length {α β : Type} {f : α → List β} {p : β → Bool} {xs : List α}
    (h : ∀ x ∈ xs, (f x).countP p = 1) : (xs.flatMap f).countP p = xs.length := by
  have hones : xs.map (List.countP p ∘ f) = xs.map fun _ => 1 := List.map_congr_left h
  rw [List.countP_flatMap, hones, List.map_const', List.sum_replicate_nat, Nat.mul_one]

namespace Graph.Emits

open Relaxation

variable {isa : InstructionSet} {g : Graph} {a : Assembled} {placed : List Placed}

theorem countP_layout (he : Emits isa g a placed) :
    a.layout.countP (fun n => !(g.node n).isExtension isa) = placed.length := by
  rw [← he.nodes_eq]
  refine countP_flatMap_eq_length fun p hp => ?_
  have hreserved : p.run.reserved.countP (fun n => !(g.node n).isExtension isa) = 0 := by
    refine List.countP_eq_zero.mpr fun n hn => ?_
    rw [(he.shaped p hp).reserved n hn]
    exact Bool.false_ne_true
  rw [Run.nodes, List.countP_append, hreserved, List.countP_singleton, (he.shaped p hp).instruction]
  rfl

theorem countP_words (hisa : isa.Regular) (he : Emits isa g a placed) :
    a.words.countP (fun word => !(isa.flags word.opcode).extension) = placed.length := by
  rw [he.words_eq]
  refine countP_flatMap_eq_length fun p hp => ?_
  have hext : (isa.flags isa.extension).extension = true := by
    rw [InstructionSet.flags, (hisa.opcodes isa.extension).extension_eq, beq_self_eq_true]
  have hextension : ∀ width, (extensionWords isa p.operand width).countP
      (fun word => !(isa.flags word.opcode).extension) = 0 := by
    intro width
    induction width with
    | zero => rfl
    | succ width ih => rw [extensionWords, List.countP_cons, ih, hext]; rfl
  have hinstruction : (isa.flags (g.node p.run.instruction).opcode).extension = false :=
    (he.shaped p hp).instruction
  rw [wordsOf, List.countP_append, hextension, List.countP_singleton, hinstruction]
  rfl

end Graph.Emits

theorem Stream.Unedited.countP_nodes {isa : InstructionSet} {words : List Word} {pools : Pools}
    {g : Graph} (h : Unedited isa words pools g) :
    (List.range g.size).countP (fun k => !(g.node k).isExtension isa) =
      words.countP fun word => !(isa.flags word.opcode).extension := by
  have hunits : (List.range g.size).map (fun k => (g.node k).isExtension isa) =
      words.map fun word => (isa.flags word.opcode).extension := by
    refine List.ext_getElem (by simp [h.size_eq]) fun k hk hk' => ?_
    rw [List.length_map, List.length_range] at hk
    obtain ⟨word, argument, hw, ha⟩ := h.at_lt hk
    obtain ⟨hlt, rfl⟩ := List.getElem?_eq_some_iff.mp hw
    rw [List.getElem_map, List.getElem_map, List.getElem_range, Node.isExtension, h.flags hw ha]
  have hcount := congrArg (List.countP (!·)) hunits
  rwa [List.countP_map, List.countP_map] at hcount

namespace CodeUnit

open Relaxation

variable {isa : InstructionSet} {object object' : CodeObject} {u u' v : CodeUnit} {words : List Word}
  {lines : List LineTable.Line} {g' : Graph} {a : Assembled} {placed : List Placed}
  {stats : EncodeStats}

/-- The code object of an assembled unit. -/
def written (u : CodeUnit) (g' : Graph) (a : Assembled) : CodeObject where
  header := encodedHeader g' u.entry a.pools u.header u.isa
  code := a.code
  pools := a.pools
  lineTable := LineTable.encode u.isa.lineFormat u.header.firstlineno (lineRuns g' a) a.totalUnits

theorem encode_eq_ok (hopened : u.exceptions.Opened) (h : u.encode = (u', .ok (object, stats))) :
    ∃ g' a, u.graph.assemble u.isa u.entry u.exceptions.handlers u.pools = (g', .ok a) ∧
      object = u.written g' a := by
  cases hasm : u.graph.assemble u.isa u.entry u.exceptions.handlers u.pools with
  | mk g' result =>
    cases result with
    | error e =>
      unfold encode at h
      simp only [flatten_of_opened hopened, hasm] at h
      cases h
    | ok a =>
      obtain ⟨u'', hencode⟩ := encode_of_assemble hopened hasm
      rw [hencode] at h
      obtain ⟨-, h⟩ := Prod.mk.inj h
      exact ⟨g', a, rfl, (Prod.mk.inj (Except.ok.inj h)).1.symm⟩

theorem Decoded.line_lt (hd : Decoded isa object words lines u) {n l : Nat} (hn : n < u.graph.size)
    (hl : (u.graph.node n).position.map (·.line) = some l) : l < UInt32.size := by
  have hline : lines[n]? = some _ := List.getElem?_eq_getElem (hd.atLines.1 ▸ hn)
  rw [hd.atLines.2 n _ hline] at hl
  exact LineTable.narrow_decode hd.lines_eq l (List.mem_of_getElem? (hline.trans (congrArg some hl)))

theorem ordered_lineRuns (he : Graph.Emits isa g' a placed)
    (hlines : ∀ n ∈ a.layout, ∀ l, (g'.node n).position.map (·.line) = some l → l < UInt32.size) :
    LineTable.Ordered a.words.length (lineRuns g' a) 0 := by
  have hlen : a.layout.length = a.units.length := by
    rw [he.units_eq, length_units, he.nodes_eq]
  apply LineTable.ordered_of_pairwise
  · have hunits : (lineRuns g' a).map (·.1) = a.units := by
      rw [lineRuns, List.map_map]
      exact List.map_snd_zip (Nat.le_of_eq hlen.symm)
    rw [hunits, he.units_eq]
    exact (pairwise_units he.consecutive he.reserved).1
  · intro run hrun
    obtain ⟨⟨n, k⟩, hmem, rfl⟩ := List.mem_map.mp hrun
    obtain ⟨hn, hk⟩ := List.of_mem_zip hmem
    rw [he.units_eq] at hk
    obtain ⟨p, hp, hk⟩ := List.mem_flatMap.mp hk
    obtain ⟨j, hj, rfl⟩ := List.mem_map.mp hk
    have hbound := he.start_add_lt hp
    have hres := he.reserved p hp
    rw [List.mem_range] at hj
    exact ⟨Nat.zero_le _, by dsimp only; omega, hlines n hn⟩

/-- The unit `v` is decoded from what was written for `u`, which was decoded itself. -/
structure Again (isa : InstructionSet) (u : CodeUnit) (g' : Graph) (a : Assembled)
    (placed : List Placed) (lines : List LineTable.Line) (v : CodeUnit) : Prop where
  builtIn : isa.BuiltIn
  isa_eq : u.isa = isa
  entry_eq : u.entry = 0
  decoded : Decoded isa (u.written g' a) a.words lines v
  rereads : Graph.Rereads isa u.graph g' 0 u.exceptions.handlers a placed v.graph
  /-- Instructions without an argument are written without digits. -/
  unused : ∀ p ∈ placed, ((u.graph.node p.run.instruction).flags isa).hasArgument = false →
    p.operand = 0
  /-- The lines that are read are written as they were. -/
  table_eq : LineTable.encode isa.lineFormat u.header.firstlineno (LineTable.numbered lines 0)
    a.words.length = (u.written g' a).lineTable

/-- **What was written for decoded code can be decoded.** -/
theorem Decoded.again (hd : Decoded isa object words lines u) (hisa : isa.BuiltIn)
    (hfirst : object.header.firstlineno < UInt32.size)
    (hasm : u.graph.assemble u.isa u.entry u.exceptions.handlers u.pools = (g', .ok a)) :
    ∃ placed lines' v, decode isa (u.written g' a) = .ok v ∧ Again isa u g' a placed lines' v := by
  rw [hd.isa_eq, hd.entry_eq, hd.pools_eq] at hasm
  obtain ⟨-, placed, horder, hargs⟩ := hd.unedited.exists_inOrder hisa.regular hd.roots_lt hasm
  have hnarrow : ∀ p ∈ placed, p.operand < UInt32.size :=
    fun p hp => horder.operand_lt hd.unedited hargs hp
  have haddr := horder.addressable hd.unedited hargs
  obtain ⟨d, hstream, hreads⟩ := horder.emits.exists_decode hisa.regular hnarrow horder.laid haddr
  have hordered : LineTable.Ordered a.words.length (lineRuns g' a) 0 := by
    refine ordered_lineRuns horder.emits fun n hn l hl => ?_
    rw [horder.same.position] at hl
    exact hd.line_lt (horder.same.size_eq ▸ horder.laid.lt hn) hl
  have hfirst' : u.header.firstlineno < UInt32.size := hd.header_eq ▸ hfirst
  obtain ⟨lines', hread, htable⟩ := LineTable.encode_decode_encode isa.lineFormat hordered hfirst'
  have htable' : LineTable.encode isa.lineFormat u.header.firstlineno (lineRuns g' a) a.words.length =
      (u.written g' a).lineTable := by
    rw [written, hd.isa_eq]
    rfl
  rw [htable', ← hreads.size_eq] at hread
  have hdecode : ∃ v, decode isa (u.written g' a) = .ok v := by
    have hstream' : Stream.decode isa (u.written g' a).code (u.written g' a).pools = .ok d := hstream
    have hread' : LineTable.decode isa.lineFormat (u.written g' a).lineTable
      (u.written g' a).header.firstlineno d.size = .ok lines' := hread
    simp only [decode, hstream', hread']
    exact ⟨_, rfl⟩
  obtain ⟨v, hv⟩ := hdecode
  obtain ⟨words', lines'', hd'⟩ := exists_decoded hv
  obtain rfl : a.words = words' := eq_of_flatMap_toBytes hd'.code_eq
  rw [hreads.size_eq] at hread
  obtain rfl : lines'' = lines' := Except.ok.inj (hd'.lines_eq.symm.trans hread)
  exact ⟨placed, lines'', v, hv, hisa, hd.isa_eq, hd.entry_eq, hd',
    ⟨horder, hnarrow, haddr, hd'.unedited⟩,
    fun p hp => (hargs p hp).operand_eq_zero hisa.regular, htable.trans htable'⟩

namespace Again

variable {g'' : Graph} (w : Again isa u g' a placed lines v)
include w

/-- Written code is tidy if execution gets to all of it. -/
theorem tidy (h : ∀ k < v.graph.size, v.graph.Live isa v.roots k) : Tidy isa a.words v.graph where
  reached := fun k hk => by
    obtain ⟨root, hroot, hpath⟩ := h k hk
    exact ⟨root, (w.decoded.mem_roots root).mp hroot, root, List.mem_cons_self, hpath⟩
  landed := fun n t ht => w.rereads.landed ht
  zero := fun k word hw hno => by
    have hk : k < v.graph.size := by
      rw [w.rereads.unedited.size_eq]
      exact (List.getElem?_eq_some_iff.mp hw).1
    obtain ⟨p, hp, j, hj, rfl⟩ := w.rereads.reads.exists_place hk
    by_cases hlast : j < p.width
    · obtain ⟨hw', -⟩ := w.rereads.emits.extension_at w.rereads.regular w.rereads.narrow hp hlast
      obtain rfl := Option.some.inj (hw.symm.trans hw')
      rw [w.builtIn.extension.1] at hno
      cases hno
    · obtain rfl : j = p.width := by omega
      obtain ⟨hw', ha⟩ := w.rereads.emits.instruction_at w.rereads.regular w.rereads.narrow hp
      obtain rfl := Option.some.inj (hw.symm.trans hw')
      rw [ha, w.unused p hp]
      rw [← w.rereads.same.flags]
      exact hno

/-- The header stays: it says already how deep the stack gets. -/
theorem header_eq (hsame : v.graph.SameCode g'') :
    encodedHeader g'' v.entry a.pools v.header v.isa = (u.written g' a).header := by
  have hdepth : maxStackDepth isa g'' [0] = maxStackDepth isa g' [0] := by
    rw [StackDepth.maxStackDepth_of_sameCode hsame,
      w.rereads.maxStackDepth_eq w.builtIn.extension.2]
  rw [w.decoded.isa_eq, w.decoded.entry_eq, w.decoded.header_eq, written, encodedHeader,
    encodedHeader, w.isa_eq, w.entry_eq, hdepth, Nat.max_assoc, Nat.max_self]

/-- **Read again, code that is reached throughout is written as it is.** -/
theorem written_eq (h : ∀ k < v.graph.size, v.graph.Live isa v.roots k) :
    ∃ v', v.encode = (v', .ok (u.written g' a, ⟨1, 0⟩)) := by
  obtain ⟨g'', hasm, hsame⟩ := w.decoded.assemble w.rereads.regular (w.tidy h)
  obtain ⟨v', hencode⟩ := encode_of_assemble w.decoded.opened hasm
  have hline : LineTable.encode v.isa.lineFormat v.header.firstlineno
      (lineRuns g'' ⟨a.words, a.pools, List.range v.graph.size, List.range v.graph.size, ⟨1, 0⟩⟩)
      a.words.length = (u.written g' a).lineTable := by
    rw [lineRuns_eq_numbered w.decoded.atLines hsame rfl rfl, w.decoded.isa_eq, w.decoded.header_eq]
    exact w.table_eq
  refine ⟨v', hencode.trans (congrArg (fun o => (v', Except.ok (o, _))) ?_)⟩
  exact congrArg₂ (CodeObject.mk · a.code a.pools ·) (w.header_eq hsame) hline

section Encoded

variable {v' : CodeUnit} {object'' : CodeObject} (h : v.encode = (v', .ok (object'', stats)))
include h

theorem exists_inOrder : ∃ g'' a'' placed'', object'' = v.written g'' a'' ∧ a''.pools = a.pools ∧
    Graph.InOrder isa v.graph g'' 0 v.exceptions.handlers a'' placed'' := by
  obtain ⟨g'', a'', hasm, rfl⟩ := encode_eq_ok w.decoded.opened h
  rw [w.decoded.isa_eq, w.decoded.entry_eq, w.decoded.pools_eq] at hasm
  obtain ⟨hpools, placed'', horder, -⟩ :=
    w.decoded.unedited.exists_inOrder w.rereads.regular w.decoded.roots_lt hasm
  exact ⟨g'', a'', placed'', rfl, hpools, horder⟩

/-- **Header and pools come back in any case.** -/
theorem header_pools_eq :
    object''.header = (u.written g' a).header ∧ object''.pools = (u.written g' a).pools := by
  obtain ⟨g'', a'', placed'', rfl, hpools, horder⟩ := w.exists_inOrder h
  refine ⟨?_, hpools⟩
  rw [← w.header_eq horder.same, ← hpools]
  rfl

/-- **If the code comes back, execution gets to all of it.** -/
theorem reached_of_code_eq (hcode : object''.code = a.code) :
    ∀ k < v.graph.size, v.graph.Live isa v.roots k := by
  obtain ⟨g'', a'', placed'', rfl, -, horder⟩ := w.exists_inOrder h
  have hwords : a''.words = a.words := eq_of_flatMap_toBytes hcode
  -- as many instructions are laid out as there are
  have hcount : (List.range v.graph.size).countP (fun k => !(v.graph.node k).isExtension isa) =
      a''.layout.countP fun k => !(v.graph.node k).isExtension isa := by
    rw [w.rereads.unedited.countP_nodes, ← hwords,
      horder.emits.countP_words w.rereads.regular, ← horder.emits.countP_layout]
    simp only [horder.same.isExtension]
  have hsub : a''.layout.filter (fun k => !(v.graph.node k).isExtension isa) ⊆
      (List.range v.graph.size).filter fun k => !(v.graph.node k).isExtension isa := by
    refine List.filter_subset _ fun k hk => ?_
    exact List.mem_range.mpr (horder.same.size_eq ▸ horder.laid.lt hk)
  have hperm := ((horder.laid.nodup.filter _).subperm hsub).perm_of_length_le
    (by rw [← List.countP_eq_length_filter, ← List.countP_eq_length_filter, hcount])
  refine w.rereads.reached_of_instructions w.decoded.mem_roots fun k hk hext => ?_
  have hmem := hperm.mem_iff.mpr (List.mem_filter.mpr ⟨List.mem_range.mpr hk, by rw [hext]; rfl⟩)
  have hlive := horder.mem_layout.mp (List.mem_of_mem_filter hmem)
  rwa [roots, w.decoded.entry_eq]

end Encoded

theorem reached_iff : (∀ k < v.graph.size, v.graph.Live isa v.roots k) ↔
    ∀ n, u.graph.Live isa u.roots n → (u.graph.node n).isExtension isa = false →
      ∃ root, u.graph.Retained isa u.entry u.exceptions.handlers root ∧
        u.graph.Live isa [root] n := by
  have h := w.rereads.reached_iff w.decoded.mem_roots
  rwa [← w.entry_eq] at h

end Again

theorem exists_again (hisa : isa.BuiltIn) (hd : decode isa object = .ok u)
    (hfirst : object.header.firstlineno < UInt32.size)
    (he : u.encode = (u', .ok (object', stats))) : ∃ g' a placed lines v v' object'' stats',
      object' = u.written g' a ∧ decode isa object' = .ok v ∧ Again isa u g' a placed lines v ∧
      v.encode = (v', .ok (object'', stats')) := by
  obtain ⟨words, lines, hd⟩ := exists_decoded hd
  obtain ⟨g', a, hasm, rfl⟩ := encode_eq_ok hd.opened he
  obtain ⟨placed, lines', v, hv, w⟩ := hd.again hisa hfirst hasm
  obtain ⟨v', ⟨object'', stats'⟩, hencode⟩ := w.decoded.exists_encode hisa.regular
  exact ⟨g', a, placed, lines', v, v', object'', stats', rfl, hv, w, hencode⟩

theorem Decoded.exists_retained (hd : Decoded isa object words lines u)
    (hopens : ∀ s < u.graph.size, ((u.graph.node s).flags isa).handlerSetup = true →
      u.graph.Live isa u.roots s) {n : Nat} (h : u.graph.Live isa u.roots n) :
    ∃ root, u.graph.Retained isa u.entry u.exceptions.handlers root ∧
      u.graph.Live isa [root] n := by
  obtain ⟨root, hroot, hpath⟩ := h
  refine ⟨root, ?_, root, List.mem_cons_self, hpath⟩
  rcases (hd.mem_roots root).mp hroot with rfl | ⟨s, hs, hsetup, hbranch⟩
  · exact Or.inl hd.entry_eq.symm
  · have hj := hd.unedited.isJump_of_branch hbranch
    exact Or.inr ⟨s, hopens s hs hsetup, hsetup, Graph.branch?_eq_some.mpr ⟨hj, hbranch⟩⟩

/-! ### Code of returns -/

section Returns

variable {k n : Nat}

theorem mem_of_live {g : Graph} {roots : List NodeId} (hstop : ∀ r ∈ roots, g.targets isa r = [])
    (h : g.Live isa roots n) : n ∈ roots := by
  refine Reach.induct (fun _ hr => hr) (fun m t hm ht => ?_) h
  rw [hstop m hm] at ht
  cases ht

theorem Decoded.return_unit (hd : Decoded .python38 object words lines u)
    (hw : words[k]? = some ⟨⟨83⟩, 0⟩) :
    (u.graph.node k).flags .python38 = { stopsFlow := true, returns := true } ∧
      u.graph.targets .python38 k = [] := by
  have hreturn : InstructionSet.python38.flags ⟨83⟩ = { stopsFlow := true, returns := true } := by
    rw [InstructionSet.flags, InstructionSet.info_eq rfl]
    decide +kernel
  obtain ⟨argument, ha⟩ : ∃ argument, (Stream.folded .python38 words 0)[k]? = some argument := by
    have hk := (List.getElem?_eq_some_iff.mp hw).1
    exact ⟨_, List.getElem?_eq_getElem (by rwa [Stream.length_folded])⟩
  have hflags := (hd.unedited.flags hw ha).trans hreturn
  refine ⟨hflags, ?_⟩
  rw [Graph.targets, Graph.edges, Graph.fallthrough?, Graph.branch?, Node.fallsThrough, Node.isJump,
    hflags]
  rfl

theorem Decoded.return_opens_nothing (hd : Decoded .python38 object words lines u)
    (hw : words[k]? = some ⟨⟨83⟩, 0⟩) : ¬ ((u.graph.node k).flags .python38).handlerSetup = true := by
  rw [(hd.return_unit hw).1]
  exact Bool.false_ne_true

/-- The handler of a block that execution never opens is laid out. -/
theorem Decoded.roots_of_dead_setup
    (hd : Decoded .python38 object [⟨⟨83⟩, 0⟩, ⟨⟨122⟩, 0⟩, ⟨⟨83⟩, 0⟩] lines u) :
    (∀ s : Nat, s < 3 → ((u.graph.node s).flags .python38).handlerSetup = true → s = 1) ∧
      ∀ r : Nat, r ∈ u.roots ↔ r = 0 ∨ r = 2 := by
  have hsetup : InstructionSet.python38.flags ⟨122⟩ =
      { hasArgument := true, jumpRelative := true, handlerSetup := true } := by
    rw [InstructionSet.flags, InstructionSet.info_eq rfl]
    decide +kernel
  have hflags := (hd.unedited.flags (k := 1) rfl rfl).trans hsetup
  have hsize : u.graph.size = 3 := hd.unedited.size_eq
  have hbranch : (u.graph.node 1).branch = some 2 := by
    have hunit : InstructionSet.python38.jumpUnit.size = 1 := rfl
    rw [hd.unedited.branch (k := 1) rfl rfl, Node.isJump, hflags]
    simp [Flags.isJump, Stream.jumpTarget?, hunit]
  have hopens : ∀ s : Nat, s < 3 → ((u.graph.node s).flags .python38).handlerSetup = true → s = 1 := by
    intro s hlt hopen
    rcases (by omega : s = 0 ∨ s = 1 ∨ s = 2) with rfl | rfl | rfl
    · exact absurd hopen (hd.return_opens_nothing rfl)
    · rfl
    · exact absurd hopen (hd.return_opens_nothing rfl)
  refine ⟨hopens, fun r => (hd.mem_roots r).trans (or_congr_right ⟨?_, ?_⟩)⟩
  · rintro ⟨s, hs, hopen, hto⟩
    obtain rfl := hopens s (hsize ▸ hs) hopen
    exact Option.some.inj (hto.symm.trans hbranch)
  · rintro rfl
    exact ⟨1, hsize ▸ (by decide), by rw [hflags], hbranch⟩

end Returns

/-! ### The second time -/

/-- **Encoding a second time.** What decoded code is encoded as can be decoded, and that can be
encoded again, with the same header and the same pools. The code object is the same exactly
when its code is, which is when execution gets to all of it: from the first unit, or from
where an instruction leads to that opens a block. In terms of the code that was decoded
first, every instruction that execution gets to has to be got to from the entry, or from the
handler of a block that is opened by an instruction that execution gets to itself. -/
theorem encode_again (hisa : isa.BuiltIn) (hd : decode isa object = .ok u)
    (hfirst : object.header.firstlineno < UInt32.size)
    (he : u.encode = (u', .ok (object', stats))) : ∃ v v' object'' stats',
      decode isa object' = .ok v ∧ v.encode = (v', .ok (object'', stats')) ∧
      object''.header = object'.header ∧ object''.pools = object'.pools ∧
      [object'' = object', object''.code = object'.code,
        ∀ k < v.graph.size, v.graph.Live isa v.roots k,
        ∀ n, u.graph.Live isa u.roots n → (u.graph.node n).isExtension isa = false →
          ∃ root, u.graph.Retained isa u.entry u.exceptions.handlers root ∧
            u.graph.Live isa [root] n].TFAE := by
  obtain ⟨g', a, placed, lines, v, v', object'', stats', rfl, hv, w, hencode⟩ :=
    exists_again hisa hd hfirst he
  obtain ⟨hheader, hpools⟩ := w.header_pools_eq hencode
  refine ⟨v, v', object'', stats', hv, hencode, hheader, hpools, ?_⟩
  tfae_have 1 → 2 := congrArg CodeObject.code
  tfae_have 2 → 3 := w.reached_of_code_eq hencode
  tfae_have 3 → 1 := by
    intro h
    obtain ⟨v'', hsame⟩ := w.written_eq h
    obtain ⟨-, hok⟩ := Prod.mk.inj (hencode.symm.trans hsame)
    exact (Prod.mk.inj (Except.ok.inj hok)).1
  tfae_have 3 ↔ 4 := w.reached_iff
  tfae_finish

/-- A block is opened by the first unit. A return that is no handler is dropped, and what is left
comes back. -/
theorem encode_again_return :
    let object : CodeObject := { code := [122, 2, 83, 0, 83, 0, 83, 0] }
    InstructionSet.python38.BuiltIn ∧ object.header.firstlineno < UInt32.size ∧
      ∃ u u' object' stats v v' object'' stats', decode .python38 object = .ok u ∧
        u.encode = (u', .ok (object', stats)) ∧ decode .python38 object' = .ok v ∧
        v.encode = (v', .ok (object'', stats')) ∧ object'' = object' := by
  intro object
  have hisa : InstructionSet.python38.BuiltIn := Or.inl rfl
  have hfirst : object.header.firstlineno < UInt32.size := by decide
  obtain ⟨u, lines, hu, hd⟩ := exists_decoded_of_code .python38 object
    [⟨⟨122⟩, 2⟩, ⟨⟨83⟩, 0⟩, ⟨⟨83⟩, 0⟩, ⟨⟨83⟩, 0⟩] (by decide +kernel) rfl
  obtain ⟨u', ⟨object', stats⟩, he⟩ := hd.exists_encode hisa.regular
  obtain ⟨v, v', object'', stats', hv, he', -, -, htfae⟩ := encode_again hisa hu hfirst he
  refine ⟨hisa, hfirst, u, u', object', stats, v, v', object'', stats', hu, he, hv, he', ?_⟩
  apply (htfae.out 0 3).mpr
  intro n hn _
  refine hd.exists_retained (fun s hs hopen => ?_) hn
  rw [hd.unedited.size_eq] at hs
  have hlt : s < 4 := hs
  rcases (by omega : s = 0 ∨ s = 1 ∨ s = 2 ∨ s = 3) with rfl | rfl | rfl | rfl
  · exact Reach.root ((hd.mem_roots 0).mpr (Or.inl rfl))
  all_goals exact absurd hopen (hd.return_opens_nothing rfl)

/-- **Not all that is encoded comes back.** A block is opened where execution never gets, by an
instruction that is dropped. Its handler stays, but the second time nothing holds it. -/
theorem exists_encode_again_ne :
    let object : CodeObject := { code := [83, 0, 122, 0, 83, 0] }
    ∃ u u' object' stats v v' object'' stats', decode .python38 object = .ok u ∧
      u.encode = (u', .ok (object', stats)) ∧ decode .python38 object' = .ok v ∧
      v.encode = (v', .ok (object'', stats')) ∧ object''.code ≠ object'.code := by
  intro object
  obtain ⟨u, lines, hu, hd⟩ := exists_decoded_of_code .python38 object
    [⟨⟨83⟩, 0⟩, ⟨⟨122⟩, 0⟩, ⟨⟨83⟩, 0⟩] (by decide +kernel) rfl
  have hisa : InstructionSet.python38.BuiltIn := Or.inl rfl
  obtain ⟨u', ⟨object', stats⟩, he⟩ := hd.exists_encode hisa.regular
  obtain ⟨g', a, placed, lines', v, v', object'', stats', rfl, hv, w, he'⟩ :=
    exists_again hisa hu (by decide) he
  refine ⟨u, u', _, stats, v, v', object'', stats', hu, he, hv, he', fun hsame => ?_⟩
  obtain ⟨hopens, hroots⟩ := hd.roots_of_dead_setup
  have hstop : ∀ r, r = 0 ∨ r = 2 → u.graph.targets .python38 r = [] := by
    rintro r (rfl | rfl) <;> exact (hd.return_unit rfl).2
  have hext : (u.graph.node 2).isExtension .python38 = false := by
    rw [Node.isExtension, (hd.return_unit rfl).1]
  -- the handler is laid out, but nothing that is laid out leads to it
  obtain ⟨root, rfl | ⟨s, hs, hopen, -⟩, hlive⟩ := w.reached_iff.mp (w.reached_of_code_eq he' hsame)
    2 (Reach.root ((hroots 2).mpr (Or.inr rfl))) hext
  · rw [hd.entry_eq] at hlive
    have hends : ∀ r ∈ [0], u.graph.targets .python38 r = [] := fun r hr =>
      hstop r (Or.inl (List.mem_singleton.mp hr))
    cases List.mem_singleton.mp (mem_of_live hends hlive)
  · have hmem := mem_of_live (fun r hr => hstop r ((hroots r).mp hr)) hs
    rcases (hroots s).mp hmem with rfl | rfl <;> cases hopens _ (by decide) hopen

end CodeUnit

end Wordcode
