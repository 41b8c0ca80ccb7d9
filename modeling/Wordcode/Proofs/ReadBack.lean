/-
# Emitted code reads back as the graph

The code of a graph can be read again, and what is read says what the graph said:
each instruction of the layout is found at its offset, with its opcode and its
operand; the unit behind an instruction that falls through begins its successor;
and a jump lands on the unit that begins its target, be it an extension unit that
was only put in when operands were widened.

Each unit can be looked at by itself: it stands in one run, and is one of its
extension units or its instruction.

Key definitions: `Graph.firstOfRun`, `Graph.Begins`, `Graph.Addressable`, `Graph.ReadAs`.
Key theorems: `Graph.Emits.exists_decode`, `Graph.Emits.readAs`,
`Graph.assemble_reads_back`.
-/
import Wordcode.Proofs.Unedited

namespace Wordcode

namespace Graph

open Relaxation Assembly

variable (isa : InstructionSet)

/-- The first unit of the run that unit `k` belongs to: the extension units right before
it belong to it. -/
def firstOfRun (d : Graph) : Nat → Nat
  | 0 => 0
  | k + 1 => if (d.node k).isExtension isa then firstOfRun d k else k + 1

/-- The instruction of the run that `t` is laid out in: the first node from `t` on that is
no extension unit. -/
def instructionFrom? (g : Graph) (layout : List Nat) (t : Nat) : Option Nat :=
  (layout.dropWhile (· != t)).find? fun n => !(g.node n).isExtension isa

/-- Unit `u` of `d` is the first one of the run that `t` was laid out in. -/
def Begins (g d : Graph) (layout : List Nat) (t u : Nat) : Prop :=
  ∃ n k, g.instructionFrom? isa layout t = some n ∧ (g.node n).offset = some (2 * k) ∧
    u = d.firstOfRun isa k

/-- Every jump can say where it leads to: how far it goes is a 32 bit number. -/
def Addressable (g : Graph) (placed : List Placed) : Prop :=
  ∀ p ∈ placed, ∀ q ∈ placed, ∀ t ∈ q.run.nodes, (g.node p.run.instruction).isJump isa = true →
    (g.node p.run.instruction).branch = some t →
    reach ((g.node p.run.instruction).flags isa) p.start p.width q.start * 2 / isa.jumpUnit.size <
      UInt32.size

/-- The instruction `n` of a layout is read as unit `k` of `d`. -/
structure ReadAs (g d : Graph) (layout : List Nat) (n k : Nat) : Prop where
  offset : (g.node n).offset = some (2 * k)
  /-- The unit is found at the offset of the instruction. -/
  place : k < d.size ∧ (d.node k).offset = (g.node n).offset
  opcode : (d.node k).opcode = (g.node n).opcode
  operand : (d.node k).operand = (g.node n).operand
  next : (g.node n).fallsThrough isa = true → ∃ s, (g.node n).successor = some s ∧
    (d.node k).successor = some (k + 1) ∧ Begins isa g d layout s (k + 1)
  jump : (g.node n).isJump isa = true → ∃ t u, (g.node n).branch = some t ∧
    (d.node k).branch = some u ∧ Begins isa g d layout t u

namespace Emits

variable {isa} {g g' d : Graph} {entry : NodeId} {handlers : List NodeId} {a : Assembled}
  {placed : List Placed} {p q : Placed}

/-! ### Runs and the layout -/

section Runs

variable (he : Emits isa g' a placed)
include he

theorem mem_layout (hp : p ∈ placed) {n : Nat} (hn : n ∈ p.run.nodes) : n ∈ a.layout := by
  rw [← he.nodes_eq]
  exact List.mem_flatMap.mpr ⟨p, hp, hn⟩

theorem instruction_mem (hp : p ∈ placed) : p.run.instruction ∈ a.layout :=
  he.mem_layout hp (by simp [Run.nodes])

theorem exists_run {n : Nat} (hn : n ∈ a.layout) : ∃ p ∈ placed, n ∈ p.run.nodes := by
  rw [← he.nodes_eq] at hn
  exact List.mem_flatMap.mp hn

theorem exists_instruction {n : Nat} (hn : n ∈ a.layout)
    (hext : (g'.node n).isExtension isa = false) : ∃ p ∈ placed, p.run.instruction = n := by
  obtain ⟨p, hp, hmem⟩ := he.exists_run hn
  refine ⟨p, hp, ?_⟩
  rcases List.mem_append.mp hmem with hres | hinstr
  · rw [(he.shaped p hp).reserved n hres] at hext
    cases hext
  · exact (List.mem_singleton.mp hinstr).symm

theorem offset_instruction (hp : p ∈ placed) :
    (g'.node p.run.instruction).offset = some (2 * (p.start + p.width)) := by
  rw [Nat.mul_comm]
  exact he.offset p hp _ _ (List.mem_append_right _ (List.mem_singleton.mpr rfl))

theorem layout_split (hp : p ∈ placed) : ∃ before after, placed = before ++ p :: after ∧
    a.layout = before.flatMap (·.run.nodes) ++ (p.run.nodes ++ after.flatMap (·.run.nodes)) := by
  obtain ⟨before, after, rfl⟩ := List.append_of_mem hp
  refine ⟨before, after, rfl, ?_⟩
  rw [← he.nodes_eq, List.flatMap_append, List.flatMap_cons]

/-- What stands right behind an instruction begins the next run. -/
theorem behind (hnd : a.layout.Nodup) (hp : p ∈ placed) {s : Nat}
    (hs : [p.run.instruction, s] <:+: a.layout) :
    ∃ q ∈ placed, s ∈ q.run.nodes ∧ q.start = p.start + p.width + 1 := by
  obtain ⟨before, after, hplaced, hlay⟩ := he.layout_split hp
  rw [Run.nodes, List.append_assoc, ← List.append_assoc, List.singleton_append] at hlay
  rw [hlay] at hs hnd
  have hhead := Layout.head?_of_pair_infix hnd hs
  cases after with
  | nil => cases hhead
  | cons q after =>
    refine ⟨q, by simp [hplaced], ?_, he.consecutive.behind hplaced⟩
    rw [List.flatMap_cons, List.head?_append_of_ne_nil _ (by simp [Run.nodes])] at hhead
    exact List.mem_of_mem_head? hhead

/-- What stands right behind an extension unit of a run belongs to the run. -/
theorem within (hnd : a.layout.Nodup) (hp : p ∈ placed) {n s : Nat} (hn : n ∈ p.run.reserved)
    (hs : [n, s] <:+: a.layout) : s ∈ p.run.nodes := by
  obtain ⟨before, after, -, hlay⟩ := he.layout_split hp
  obtain ⟨u, v, huv⟩ := List.append_of_mem hn
  have hlay' : a.layout = (before.flatMap (·.run.nodes) ++ u) ++
      n :: (v ++ p.run.instruction :: after.flatMap (·.run.nodes)) := by
    rw [hlay, Run.nodes, huv]
    simp
  rw [hlay'] at hs hnd
  have hhead := Layout.head?_of_pair_infix hnd hs
  rw [Run.nodes, huv]
  cases v with
  | nil =>
    obtain rfl := Option.some.inj hhead
    simp
  | cons m v =>
    obtain rfl := Option.some.inj hhead
    simp

theorem instructionFrom?_eq (hnd : a.layout.Nodup) (hp : p ∈ placed) {t : Nat}
    (ht : t ∈ p.run.nodes) : g'.instructionFrom? isa a.layout t = some p.run.instruction := by
  obtain ⟨before, after, -, hlay⟩ := he.layout_split hp
  obtain ⟨u, v, huv⟩ := List.append_of_mem ht
  -- from `t` on there are units of its run, and then its instruction
  have hfrom : a.layout.dropWhile (· != t) = t :: v ++ after.flatMap (·.run.nodes) := by
    have hlay' : a.layout = (before.flatMap (·.run.nodes) ++ u) ++
        t :: (v ++ after.flatMap (·.run.nodes)) := by
      rw [hlay, huv]
      simp
    rw [hlay'] at hnd ⊢
    rw [List.dropWhile_append_of_pos, List.dropWhile_cons_of_neg (by simp), List.cons_append]
    intro n hn
    rw [bne_iff_ne]
    rintro rfl
    exact (List.nodup_append.mp hnd).2.2 n hn n List.mem_cons_self rfl
  have hsuffix : t :: v <:+ p.run.reserved ++ [p.run.instruction] := ⟨u, huv.symm⟩
  obtain ⟨w, hw, hres⟩ := (List.suffix_concat_iff.mp hsuffix).resolve_left (List.cons_ne_nil t v)
  have hskip : w.find? (fun n => !(g'.node n).isExtension isa) = none := by
    rw [List.find?_eq_none]
    intro n hn
    rw [(he.shaped p hp).reserved n (hres.subset hn)]
    simp
  rw [instructionFrom?, hfrom, hw, List.append_assoc, List.find?_append, hskip, Option.none_or,
    List.singleton_append, List.find?_cons_of_pos]
  rw [(he.shaped p hp).instruction]
  rfl

end Runs

/-! ### What the units are read as -/

section Units

theorem start_add_lt (he : Emits isa g' a placed) (hp : p ∈ placed) :
    p.start + p.width < a.words.length := by
  have hlt := lt_length_of_mem he.consecutive (f := wordsOf isa g') (fun p _ => length_wordsOf p) hp
  rw [he.words_eq]
  simpa using hlt

theorem falls (he : Emits isa g' a placed) (hl : Laid isa g g' entry handlers a.layout)
    (hp : p ∈ placed) (hf : (g'.node p.run.instruction).fallsThrough isa = true) :
    ∃ s, (g'.node p.run.instruction).successor = some s ∧
      ∃ q ∈ placed, s ∈ q.run.nodes ∧ q.start = p.start + p.width + 1 := by
  obtain ⟨s, hs, hinfix⟩ := hl.next _ (he.instruction_mem hp) hf
  exact ⟨s, hs, he.behind hl.nodup hp hinfix⟩

theorem addressable_of_short (he : Emits isa g' a placed) (hshort : a.words.length * 2 < UInt32.size) :
    Addressable isa g' placed := by
  intro p hp q hq t _ _ _
  have hbound := he.start_add_lt hp
  have hbound' := he.start_add_lt hq
  have hle : reach ((g'.node p.run.instruction).flags isa) p.start p.width q.start ≤
      a.words.length := by
    unfold reach
    split
    · omega
    · split <;> omega
  have hdiv := Nat.div_le_self
    (reach ((g'.node p.run.instruction).flags isa) p.start p.width q.start * 2) isa.jumpUnit.size
  omega

theorem lands (he : Emits isa g' a placed) (haddr : Addressable isa g' placed) (hp : p ∈ placed)
    (hj : (g'.node p.run.instruction).isJump isa = true) :
    ∃ t, (g'.node p.run.instruction).branch = some t ∧ ∃ q ∈ placed, t ∈ q.run.nodes ∧
      Stream.jumpTarget? isa ((g'.node p.run.instruction).flags isa) p.operand
        ((p.start + p.width) * 2) (a.words.length * 2) = some q.start := by
  obtain ⟨t, q, hq, hb, ht, hd⟩ := (he.asks p hp).2 hj
  have htarget : q.start < a.words.length :=
    Nat.lt_of_le_of_lt (Nat.le_add_right _ _) (he.start_add_lt hq)
  exact ⟨t, hb, q, hq, ht, jumpTarget?_of_distance (haddr p hp q hq t ht hj hb) htarget hd⟩

variable (hisa : isa.Regular) (he : Emits isa g' a placed)

include hisa he in
theorem operand_lt
    (hraw : ∀ n ∈ a.layout, ∀ value, (g'.node n).operand = .raw value → value < UInt32.size)
    (hpools : a.pools.Indexable) (hp : p ∈ placed) : p.operand < UInt32.size := by
  obtain ⟨-, hjump⟩ := he.asks p hp
  cases hj : (g'.node p.run.instruction).isJump isa with
  | true =>
    obtain ⟨t, q, -, -, -, hd⟩ := hjump hj
    exact distance_lt hd
  | false =>
    obtain ⟨growth, c, hgrowth, hc, hn⟩ := he.numbered p hp
    rw [Collects, if_neg (by rw [(he.shaped p hp).instruction]; exact Bool.false_ne_true),
      ← hgrowth] at hc
    exact argument_lt (hisa.opcodes _).packing (hgrowth ▸ hpools) (hraw _ (he.instruction_mem hp)) hc.2
      (hn hj)

variable (hlt : ∀ p ∈ placed, p.operand < UInt32.size)
include hisa he hlt

theorem folded_words : Stream.folded isa a.words 0 = placed.flatMap foldedOf := by
  have hext : (isa.flags isa.extension).extension = true := by
    rw [InstructionSet.flags, (hisa.opcodes isa.extension).extension_eq, beq_self_eq_true]
  rw [he.words_eq]
  exact folded_flatMap_wordsOf hext fun p hp =>
    ⟨(he.shaped p hp).instruction, hlt p hp, he.wide p hp⟩

omit hlt he in
theorem readNode_extension {word : Word} (hop : word.opcode = isa.extension)
    (argument offset : Nat) : ∃ node, Stream.readNode isa a.pools word argument offset = .ok node ∧
      node.isExtension isa = true ∧ node.isJump isa = false := by
  have hreg := hisa.opcodes isa.extension
  have hext : (isa.info isa.extension).flags.extension = true := by
    rw [hreg.extension_eq, beq_self_eq_true]
  refine ⟨{ opcode := isa.extension, offset := some offset }, ?_, hext, (hreg.idle (Or.inl hext)).2⟩
  simp only [Stream.readNode, hop, hext, Bool.not_true, Bool.false_and, Bool.false_eq_true, if_false]

omit hlt in
theorem readNode_instruction (hp : p ∈ placed) {word : Word}
    (hop : word.opcode = (g'.node p.run.instruction).opcode) (offset : Nat) :
    ∃ node, Stream.readNode isa a.pools word p.operand offset = .ok node ∧
      node.operand = (g'.node p.run.instruction).operand := by
  obtain ⟨growth, c, hgrowth, hc, hn⟩ := he.numbered p hp
  rw [← hgrowth] at hc ⊢
  exact readNode_of_holds hisa (he.shaped p hp).instruction hc hn hop offset

omit hlt in
/-- Each unit of a run can be read, and its edges can be set. -/
theorem exists_unit (hl : Laid isa g g' entry handlers a.layout)
    (haddr : Addressable isa g' placed) (hp : p ∈ placed) {j : Nat} (hj : j ≤ p.width)
    {word : Word} (hw : a.words[p.start + j]? = some word) : ∃ node node',
      Stream.readNode isa a.pools word (p.operand / 256 ^ (p.width - j)) (2 * (p.start + j)) =
        .ok node ∧
      Stream.linkNode isa a.words.length (p.start + j) node (p.operand / 256 ^ (p.width - j)) =
        .ok node' := by
  have hlt := he.start_add_lt hp
  rw [he.words_eq] at hw
  by_cases hext : j < p.width
  · rw [getElem?_words_extension he.consecutive hp hext] at hw
    have hop : word.opcode = isa.extension := congrArg Word.opcode (Option.some.inj hw).symm
    obtain ⟨node, hread, -, hjump⟩ := readNode_extension (a := a) hisa hop
      (p.operand / 256 ^ (p.width - j)) (2 * (p.start + j))
    have hnever : ¬ node.isJump isa = true := by
      rw [hjump]
      exact Bool.false_ne_true
    exact ⟨node, _, hread,
      Stream.linkNode_eq_ok_iff.mpr ⟨fun _ => by omega, fun h => absurd h hnever, rfl⟩⟩
  · obtain rfl : j = p.width := by omega
    rw [getElem?_words_instruction he.consecutive hp] at hw
    rw [Nat.sub_self, Nat.pow_zero, Nat.div_one]
    have hop : word.opcode = (g'.node p.run.instruction).opcode :=
      congrArg Word.opcode (Option.some.inj hw).symm
    obtain ⟨node, hread, -⟩ := he.readNode_instruction hisa hp hop (2 * (p.start + p.width))
    have hflags : node.flags isa = (g'.node p.run.instruction).flags isa := by
      rw [Node.flags, (Stream.readNode_fields hread).1, hop, Node.flags]
    refine ⟨node, _, hread, Stream.linkNode_eq_ok_iff.mpr ⟨fun hf => ?_, fun hj => ?_, rfl⟩⟩
    · rw [Node.fallsThrough, hflags] at hf
      obtain ⟨s, -, q, hq, -, hstart⟩ := he.falls hl hp hf
      have hnext := he.start_add_lt hq
      omega
    · rw [Node.isJump, hflags] at hj
      obtain ⟨t, -, q, -, -, htarget⟩ := he.lands haddr hp hj
      rw [hflags, htarget]
      rfl

theorem exists_reads (hl : Laid isa g g' entry handlers a.layout)
    (haddr : Addressable isa g' placed) : ∃ d, Stream.Reads isa a.words a.pools d := by
  have hfolded := he.folded_words hisa hlt
  have hnarrow : ∀ x ∈ Stream.folded isa a.words 0, x < UInt32.size := by
    intro x hx
    rw [hfolded] at hx
    obtain ⟨p, hp, hx⟩ := List.mem_flatMap.mp hx
    obtain ⟨j, -, rfl⟩ := List.mem_map.mp hx
    exact Nat.lt_of_le_of_lt (Nat.div_le_self _ _) (hlt p hp)
  have hpasses : ∃ nodes linked, Stream.readNodes isa a.pools a.words 0 0 = .ok nodes ∧
      Stream.linkNodes isa nodes.length nodes 0 = .ok linked := by
    refine Stream.exists_passes hnarrow fun k word argument hw ha => ?_
    rw [hfolded] at ha
    have hk : k < (placed.flatMap foldedOf).length := (List.getElem?_eq_some_iff.mp ha).1
    obtain ⟨p, hp, j, hj, heq⟩ :=
      exists_of_lt_length he.consecutive (fun p _ => length_foldedOf p) hk
    obtain rfl : k = p.start + j := by omega
    rw [getElem?_arguments he.consecutive hp hj] at ha
    obtain rfl := Option.some.inj ha
    exact he.exists_unit hisa hl haddr hp hj hw
  obtain ⟨nodes, linked, hn, hlink⟩ := hpasses
  exact ⟨_, Stream.reads_of_passes hn hlink⟩

/-- Assembled code can be decoded. -/
theorem exists_decode (hl : Laid isa g g' entry handlers a.layout) (haddr : Addressable isa g' placed) :
    ∃ d, Stream.decode isa a.code a.pools = .ok d ∧ Stream.Reads isa a.words a.pools d := by
  obtain ⟨d, hd⟩ := he.exists_reads hisa hlt hl haddr
  obtain ⟨p, hp, -⟩ := he.exists_run (List.mem_of_mem_head? hl.head)
  have hlt := he.start_add_lt hp
  have hne : a.words ≠ [] := List.ne_nil_of_length_pos (by omega)
  exact ⟨d, Stream.decode_eq_ok_iff.mpr ⟨a.words, hne, rfl, hd⟩, hd⟩

end Units

/-! ### What the units say -/

section Reads

variable (hisa : isa.Regular) (he : Emits isa g' a placed)
  (hlt : ∀ p ∈ placed, p.operand < UInt32.size) (hd : Stream.Unedited isa a.words a.pools d)
include hisa he hlt

theorem extension_at (hp : p ∈ placed) {j : Nat} (hj : j < p.width) :
    a.words[p.start + j]? = some ⟨isa.extension, digit p.operand (p.width - j)⟩ ∧
      (Stream.folded isa a.words 0)[p.start + j]? = some (p.operand / 256 ^ (p.width - j)) := by
  rw [he.folded_words hisa hlt, he.words_eq]
  exact ⟨getElem?_words_extension he.consecutive hp hj,
    getElem?_arguments he.consecutive hp (Nat.le_of_lt hj)⟩

theorem instruction_at (hp : p ∈ placed) :
    a.words[p.start + p.width]? = some ⟨(g'.node p.run.instruction).opcode, digit p.operand 0⟩ ∧
      (Stream.folded isa a.words 0)[p.start + p.width]? = some p.operand := by
  have ha := getElem?_arguments he.consecutive hp (Nat.le_refl p.width)
  rw [Nat.sub_self, Nat.pow_zero, Nat.div_one] at ha
  rw [he.folded_words hisa hlt, he.words_eq]
  exact ⟨getElem?_words_instruction he.consecutive hp, ha⟩

include hd

theorem unit_extension (hp : p ∈ placed) {j : Nat} (hj : j < p.width) :
    (d.node (p.start + j)).isExtension isa = true := by
  obtain ⟨hw, ha⟩ := he.extension_at hisa hlt hp hj
  have hext : (isa.info isa.extension).flags.extension = true := by
    rw [(hisa.opcodes isa.extension).extension_eq, beq_self_eq_true]
  rw [Node.isExtension, hd.flags hw ha]
  exact hext

/-- The unit of an instruction says what the instruction says. -/
theorem unit_instruction (hp : p ∈ placed) :
    (d.node (p.start + p.width)).opcode = (g'.node p.run.instruction).opcode ∧
      (d.node (p.start + p.width)).operand = (g'.node p.run.instruction).operand := by
  obtain ⟨hw, ha⟩ := he.instruction_at hisa hlt hp
  refine ⟨hd.opcode hw ha, ?_⟩
  obtain ⟨node, linked, position, hread, hlink, hnode⟩ := hd.unit _ _ _ hw ha
  have hop : (⟨(g'.node p.run.instruction).opcode, digit p.operand 0⟩ : Word).opcode =
      (g'.node p.run.instruction).opcode := rfl
  obtain ⟨node', hread', hoperand⟩ := he.readNode_instruction hisa hp hop (2 * (p.start + p.width))
  obtain rfl : node = node' := Except.ok.inj (hread.symm.trans hread')
  rw [hnode, (Stream.linkNode_eq_ok_iff.mp hlink).2.2]
  exact hoperand

theorem unit_flags (hp : p ∈ placed) :
    (d.node (p.start + p.width)).flags isa = (g'.node p.run.instruction).flags isa := by
  rw [Node.flags, (he.unit_instruction hisa hlt hd hp).1, Node.flags]

theorem not_extension_unit (hp : p ∈ placed) :
    (d.node (p.start + p.width)).isExtension isa = false := by
  rw [Node.isExtension, he.unit_flags hisa hlt hd hp]
  exact (he.shaped p hp).instruction

/-- Going back over extension units gets to the first unit of the run, since before it
there is nothing or the instruction of another run. -/
theorem firstOfRun_eq (hp : p ∈ placed) : ∀ j ≤ p.width, d.firstOfRun isa (p.start + j) = p.start
  | 0, _ => by
    rcases he.consecutive.first_or_behind hp with hfirst | ⟨q, hq, hbehind⟩
    · rw [hfirst]
      rfl
    · rw [hbehind, Nat.add_zero, firstOfRun, if_neg]
      rw [he.not_extension_unit hisa hlt hd hq]
      exact Bool.false_ne_true
  | j + 1, hj => by
    rw [← Nat.add_assoc, firstOfRun, if_pos (he.unit_extension hisa hlt hd hp hj)]
    exact firstOfRun_eq hp j (Nat.le_of_lt hj)

theorem begins (hnd : a.layout.Nodup) (hq : q ∈ placed) {t : Nat} (ht : t ∈ q.run.nodes) :
    Begins isa g' d a.layout t q.start :=
  ⟨q.run.instruction, q.start + q.width, he.instructionFrom?_eq hnd hq ht,
    he.offset_instruction hq, (he.firstOfRun_eq hisa hlt hd hq _ (Nat.le_refl _)).symm⟩

variable (hl : Laid isa g g' entry handlers a.layout)
include hl

theorem unit_successor (hp : p ∈ placed)
    (hf : (g'.node p.run.instruction).fallsThrough isa = true) :
    ∃ s, (g'.node p.run.instruction).successor = some s ∧
      ∃ q ∈ placed, s ∈ q.run.nodes ∧ q.start = p.start + p.width + 1 ∧
        (d.node (p.start + p.width)).successor = some q.start := by
  obtain ⟨hw, ha⟩ := he.instruction_at hisa hlt hp
  obtain ⟨s, hs, q, hq, hmem, hstart⟩ := he.falls hl hp hf
  refine ⟨s, hs, q, hq, hmem, hstart, ?_⟩
  rw [hd.successor hw ha, Node.fallsThrough, he.unit_flags hisa hlt hd hp, hstart]
  exact if_pos hf

omit hl in
theorem unit_branch (haddr : Addressable isa g' placed) (hp : p ∈ placed)
    (hj : (g'.node p.run.instruction).isJump isa = true) :
    ∃ t, (g'.node p.run.instruction).branch = some t ∧
      ∃ q ∈ placed, t ∈ q.run.nodes ∧ (d.node (p.start + p.width)).branch = some q.start := by
  obtain ⟨hw, ha⟩ := he.instruction_at hisa hlt hp
  obtain ⟨t, ht, q, hq, hmem, htarget⟩ := he.lands haddr hp hj
  refine ⟨t, ht, q, hq, hmem, ?_⟩
  rw [hd.branch hw ha, Node.isJump, he.unit_flags hisa hlt hd hp, htarget]
  exact if_pos hj

/-- Each instruction is read as its unit. -/
theorem readAs (haddr : Addressable isa g' placed) (hp : p ∈ placed) :
    ReadAs isa g' d a.layout p.run.instruction (p.start + p.width) := by
  obtain ⟨hw, ha⟩ := he.instruction_at hisa hlt hp
  obtain ⟨hop, hoperand⟩ := he.unit_instruction hisa hlt hd hp
  refine ⟨he.offset_instruction hp, ⟨hd.size_eq ▸ he.start_add_lt hp, ?_⟩, hop, hoperand,
    fun hf => ?_, fun hj => ?_⟩
  · rw [hd.offset hw ha, he.offset_instruction hp]
  · obtain ⟨s, hs, q, hq, hmem, hstart, hsucc⟩ := he.unit_successor hisa hlt hd hl hp hf
    rw [← hstart]
    exact ⟨s, hs, hsucc, he.begins hisa hlt hd hl.nodup hq hmem⟩
  · obtain ⟨t, ht, q, hq, hmem, hbranch⟩ := he.unit_branch hisa hlt hd haddr hp hj
    exact ⟨t, q.start, ht, hbranch, he.begins hisa hlt hd hl.nodup hq hmem⟩

end Reads

end Emits

variable {isa} {g g' : Graph} {entry : NodeId} {handlers : List NodeId} {pools : Pools}
  {a : Assembled}

/-- **Emitted code reads back as the graph**, if all of it can be addressed and the numbers
in the operands and the pools are 32 bit numbers. -/
theorem assemble_reads_back (hisa : isa.BuiltIn) (hg : g.Closed)
    (hroots : ∀ r ∈ entry :: handlers, r < g.size)
    (hraw : ∀ n value, (g.node n).operand = .raw value → value < UInt32.size)
    (h : g.assemble isa entry handlers pools = (g', .ok a)) (hpools : a.pools.Indexable)
    (hshort : a.code.length < UInt32.size) :
    ∃ d, Stream.decode isa a.code a.pools = .ok d ∧
      ∀ n ∈ a.layout, (g'.node n).isExtension isa = false →
        ∃ k, ReadAs isa g' d a.layout n k := by
  obtain ⟨hl, placed, he⟩ := emits_of_assemble hisa.regular hg hroots h
  have hraw' : ∀ n ∈ a.layout, ∀ value, (g'.node n).operand = .raw value → value < UInt32.size := by
    intro n hn value hv
    rcases Nat.lt_or_ge n g.size with hlt | hge
    · rw [Node.operand_of_body (hl.kept n hlt)] at hv
      exact hraw n value hv
    · obtain ⟨-, t, -, -, hjump⟩ := hl.added n hn hge
      rw [hjump.operand] at hv
      cases hv
  have hcode : a.code.length = a.words.length * 2 := by
    simp [Assembled.code, Word.toBytes, List.length_flatMap]
  rw [hcode] at hshort
  have hlt : ∀ p ∈ placed, p.operand < UInt32.size := fun p hp =>
    he.operand_lt hisa.regular hraw' hpools hp
  have haddr := he.addressable_of_short hshort
  obtain ⟨d, hdecode, hd⟩ := he.exists_decode hisa.regular hlt hl haddr
  refine ⟨d, hdecode, fun n hn hext => ?_⟩
  obtain ⟨p, hp, rfl⟩ := he.exists_instruction hn hext
  exact ⟨p.start + p.width, he.readAs hisa.regular hlt hd.unedited hl haddr hp⟩

/-- A jump to itself is assembled and read back. -/
theorem assemble_reads_back_loop :
    let g : Graph := ⟨#[{ opcode := ⟨113⟩, operand := .jump, offset := some 0, branch := some 0 }]⟩
    let a : Assembled :=
      { words := [⟨⟨113⟩, 0⟩], pools := {}, layout := [0], units := [0], stats := ⟨1, 0⟩ }
    g.assemble .python38 0 [] {} = (g, .ok a) ∧
      ∃ d, Stream.decode .python38 a.code a.pools = .ok d ∧
        ∀ n ∈ a.layout, (g.node n).isExtension .python38 = false →
          ∃ k, ReadAs .python38 g d a.layout n k := by
  intro g a
  have hisa : InstructionSet.python38.BuiltIn := Or.inl rfl
  have hclosed : g.Closed := by decide
  have hroots : ∀ r ∈ [0], r < g.size := by decide
  have hflags : (g.node 0).flags .python38 =
      { hasArgument := true, jumpAbsolute := true, unconditional := true } := by
    rw [Node.flags, InstructionSet.flags, InstructionSet.info_eq rfl]
    decide +kernel
  have hfits :
      (g.node 0).operand.fits (InstructionSet.python38.info (g.node 0).opcode).operand = true := by
    rw [InstructionSet.info_eq rfl]
    decide +kernel
  have hzero : ∀ n < g.size, n = 0 := fun n hn => Nat.lt_one_iff.mp hn
  have hstops : ∀ n, g.fallthrough? .python38 n = none := by
    intro n
    by_cases hn : n < g.size
    · rw [hzero n hn, fallthrough?, Node.fallsThrough, hflags]
      rfl
    · rw [fallthrough?, node_of_size_le (Nat.not_lt.mp hn)]
      exact ite_self _
  have hlive : ∀ n < g.size, g.Live .python38 [0] n := fun n hn =>
    hzero n hn ▸ Reach.root List.mem_cons_self
  have hlin : g.linearize .python38 0 [] = .ok (g, [0]) := by
    refine linearize_of_order hisa.regular hclosed hroots ?_
      (Layout.order_eq_range hclosed hroots hlive (by decide) ?_) ?_ ?_
    · intro n hn
      obtain rfl := hzero n (hclosed.lt_of_live hroots hn)
      refine ⟨fun hf => ?_, fun _ => by simp [g, node]⟩
      rw [Node.fallsThrough, hflags] at hf
      cases hf
    · intro n s hs
      rw [hstops] at hs
      cases hs
    · intro n _ s hs
      rw [hstops] at hs
      cases hs
    · intro n hn hr
      rw [List.mem_singleton.mp hn, hflags] at hr
      cases hr
  have hext : (g.node 0).isExtension .python38 = false := by rw [Node.isExtension, hflags]
  have hcol : collect .python38 g [0] (.ofPools {}) #[] = .ok (#[.ready 0], .ofPools {}) := by
    simp only [collect, hext, hfits, Bool.false_eq_true, if_false, if_true]
    rfl
  have hruns : runsOf .python38 g [0] [0] = .ok [⟨[], 0, 0⟩] := by
    simp [runsOf, addToRuns, hext]
  have hrel := relax_of_fits (by decide) rfl hruns (rfl : [0].length = _) fun p hp => by
    obtain rfl : p = ⟨⟨[], 0, 0⟩, 0, 0, 0⟩ := List.mem_singleton.mp hp
    refine ⟨Nat.zero_le _, fun hj => ?_, fun _ => ⟨0, _, hp, rfl, List.mem_cons_self, ?_⟩⟩
    · rfl
    · rw [distance, hflags]
      rfl
  have hassemble : g.assemble .python38 0 [] {} = (g, .ok a) :=
    assemble_of_steps hlin hcol rfl hrel
  refine ⟨hassemble, assemble_reads_back hisa hclosed hroots (fun n value hn => ?_) hassemble
    ⟨by decide, by decide, by decide, by decide⟩ (by decide)⟩
  by_cases hlt : n < g.size
  · rw [hzero n hlt] at hn
    cases hn
  · rw [node_of_size_le (Nat.not_lt.mp hlt)] at hn
    cases hn

end Graph

end Wordcode
