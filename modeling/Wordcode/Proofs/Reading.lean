/-
# Which streams can be read, and as what

Reading goes unit by unit, and what a unit is read as depends on the units before
it only through its argument: the digits of the extension units right before it,
folded together with its own (`Stream.folded`). So a stream is read as a graph
exactly if each unit by itself is read as the node with its number
(`Stream.Reads`), and the bytes of the stream are those of its units.

Key definitions: `Stream.folded`, `Stream.ReadAs`, `Stream.Reads`.
Key theorems: `Stream.readNodes_eq_ok_iff`, `Stream.linkNodes_eq_ok_iff`,
`Stream.readAs_of_readNode`, `Stream.linkNode_eq_ok_iff`, `Stream.decode_eq_ok_iff`.
-/
import Wordcode.Stream

namespace Wordcode

/-- The opcode has an operand from a pool. -/
def InstructionSet.Indexes (isa : InstructionSet) (op : Opcode) : Prop :=
  (isa.flags op).extension = false ∧ (isa.flags op).hasArgument = true ∧
    (Stream.poolOf? (isa.info op).operand).isSome = true

namespace Stream

variable (isa : InstructionSet)

/-! ### Arguments -/

/-- The arguments of code units: the digit of each, below those of the extension units
right before it, of which `pending` is the value at the start. -/
def folded : List Word → (pending : Nat) → List Nat
  | [], _ => []
  | word :: rest, pending =>
    let argument := pending * 256 + word.arg.toNat
    argument :: folded rest (if (isa.flags word.opcode).extension then argument else 0)

@[simp] theorem length_folded : ∀ (words : List Word) (pending : Nat),
    (folded isa words pending).length = words.length
  | [], _ => rfl
  | _ :: rest, _ => by rw [folded, List.length_cons, length_folded rest, List.length_cons]

theorem getElem?_folded_zero {words : List Word} {word : Word} (pending : Nat)
    (h : words[0]? = some word) :
    (folded isa words pending)[0]? = some (pending * 256 + word.arg.toNat) := by
  cases words with
  | nil => cases h
  | cons first rest =>
    obtain rfl : first = word := Option.some.inj h
    rfl

/-- The argument of a unit counts on from that of an extension unit right before it. -/
theorem getElem?_folded_succ : ∀ {words : List Word} {pending k argument : Nat}
    {before word : Word}, words[k]? = some before → words[k + 1]? = some word →
    (folded isa words pending)[k]? = some argument → (folded isa words pending)[k + 1]? =
      some ((if (isa.flags before.opcode).extension then argument else 0) * 256 + word.arg.toNat)
  | first :: rest, pending, 0, argument, before, word, hb, hw, ha => by
    obtain rfl : first = before := Option.some.inj hb
    obtain rfl : pending * 256 + first.arg.toNat = argument := Option.some.inj ha
    exact getElem?_folded_zero isa _ hw
  | _ :: rest, _, k + 1, _, before, word, hb, hw, ha => by
    have hb' : rest[k]? = some before := hb
    have hw' : rest[k + 1]? = some word := hw
    have hlater : ∀ {p a : Nat}, (folded isa rest p)[k]? = some a → (folded isa rest p)[k + 1]? =
        some ((if (isa.flags before.opcode).extension then a else 0) * 256 + word.arg.toNat) :=
      getElem?_folded_succ hb' hw'
    exact hlater ha

theorem folded_mod {words : List Word} {k argument : Nat} {word : Word} (hw : words[k]? = some word)
    (ha : (folded isa words 0)[k]? = some argument) : argument % 256 = word.arg.toNat := by
  have hlt : word.arg.toNat < 256 := word.arg.toNat_lt
  cases k with
  | zero =>
    rw [getElem?_folded_zero isa 0 hw] at ha
    have heq : 0 * 256 + word.arg.toNat = argument := Option.some.inj ha
    omega
  | succ k =>
    have hk : k < words.length := by
      have hsucc := (List.getElem?_eq_some_iff.mp hw).1
      omega
    have hb : words[k]? = some words[k] := List.getElem?_eq_getElem hk
    have hbefore : (folded isa words 0)[k]? = some _ :=
      List.getElem?_eq_getElem (by rwa [length_folded])
    rw [getElem?_folded_succ isa hb hw hbefore] at ha
    have heq := Option.some.inj ha
    omega

/-! ### The two passes -/

variable {isa} {pools : Pools}

theorem readNodes_cons_eq_ok_iff {word : Word} {rest : List Word} {offset pending : Nat}
    {nodes : List (Node × Nat)} : readNodes isa pools (word :: rest) offset pending = .ok nodes ↔
      pending * 256 + word.arg.toNat < UInt32.size ∧ ∃ node later,
        readNode isa pools word (pending * 256 + word.arg.toNat) offset = .ok node ∧
        readNodes isa pools rest (offset + 2) (if (isa.flags word.opcode).extension then
          pending * 256 + word.arg.toNat else 0) = .ok later ∧
        nodes = (node, pending * 256 + word.arg.toNat) :: later := by
  rw [readNodes]
  by_cases hbig : UInt32.size ≤ pending * 256 + word.arg.toNat
  · simp [hbig, Nat.not_lt.mpr hbig]
  · rw [if_neg hbig]
    simp only [bind_eq_ok_iff, pure, Except.pure, Except.ok.injEq]
    have hlt := Nat.not_le.mp hbig
    constructor
    · rintro ⟨node, hn, later, hl, h⟩
      exact ⟨hlt, node, later, hn, hl, h.symm⟩
    · rintro ⟨-, node, later, hn, hl, h⟩
      exact ⟨node, hn, later, hl, h.symm⟩

/-- The first pass reads each unit with its argument. -/
theorem readNodes_eq_ok_iff : ∀ {words : List Word} {offset pending : Nat}
    {nodes : List (Node × Nat)}, readNodes isa pools words offset pending = .ok nodes ↔
      nodes.map (·.2) = folded isa words pending ∧
      (∀ a ∈ folded isa words pending, a < UInt32.size) ∧
      ∀ i word node argument, words[i]? = some word → nodes[i]? = some (node, argument) →
        readNode isa pools word argument (offset + 2 * i) = .ok node
  | [], offset, pending, nodes => by
    rw [readNodes, folded, List.map_eq_nil_iff, Except.ok.injEq]
    constructor
    · rintro rfl
      exact ⟨rfl, by simp, by simp⟩
    · rintro ⟨h, -⟩
      exact h.symm
  | word :: rest, offset, pending, nodes => by
    rw [readNodes_cons_eq_ok_iff, folded, List.forall_mem_cons]
    constructor
    · rintro ⟨hlt, node, later, hn, hl, rfl⟩
      obtain ⟨hmap, hall, hread⟩ := readNodes_eq_ok_iff.mp hl
      refine ⟨by rw [List.map_cons, hmap], ⟨hlt, hall⟩, fun i word' node' argument hw hi => ?_⟩
      cases i with
      | zero =>
        simp only [List.getElem?_cons_zero, Option.some.injEq, Prod.mk.injEq] at hw hi
        obtain ⟨rfl, rfl⟩ := hi
        rw [← hw]
        exact hn
      | succ i =>
        have h := hread i word' node' argument hw hi
        rwa [Nat.add_assoc, Nat.add_comm 2, ← Nat.mul_succ] at h
    · rintro ⟨hmap, ⟨hlt, hall⟩, hread⟩
      obtain ⟨⟨node, argument⟩, later, rfl, rfl, hlater⟩ := List.map_eq_cons_iff.mp hmap
      refine ⟨hlt, node, later, hread 0 word node _ rfl rfl, ?_, rfl⟩
      refine readNodes_eq_ok_iff.mpr ⟨hlater, hall, fun i word' node' argument hw hi => ?_⟩
      rw [Nat.add_assoc, Nat.add_comm 2, ← Nat.mul_succ]
      exact hread (i + 1) word' node' argument hw hi

theorem exists_readNodes : ∀ (words : List Word) (offset pending : Nat),
    (∀ a ∈ folded isa words pending, a < UInt32.size) →
    (∀ i word argument, words[i]? = some word → (folded isa words pending)[i]? = some argument →
      ∃ node, readNode isa pools word argument (offset + 2 * i) = .ok node) →
    ∃ nodes, readNodes isa pools words offset pending = .ok nodes
  | [], _, _, _, _ => ⟨[], rfl⟩
  | word :: rest, offset, pending, hall, hread => by
    rw [folded, List.forall_mem_cons] at hall
    obtain ⟨node, hn⟩ := hread 0 word _ rfl rfl
    obtain ⟨later, hl⟩ := exists_readNodes rest (offset + 2) _ hall.2
      fun i word' argument hw ha => by
        rw [Nat.add_assoc, Nat.add_comm 2, ← Nat.mul_succ]
        exact hread (i + 1) word' argument hw ha
    exact ⟨_, readNodes_cons_eq_ok_iff.mpr ⟨hall.1, node, later, hn, hl, rfl⟩⟩

theorem linkNodes_cons_eq_ok_iff {count index argument : Nat} {node : Node}
    {rest : List (Node × Nat)} {linked : List Node} :
    linkNodes isa count ((node, argument) :: rest) index = .ok linked ↔ ∃ node' later,
      linkNode isa count index node argument = .ok node' ∧
      linkNodes isa count rest (index + 1) = .ok later ∧ linked = node' :: later := by
  rw [linkNodes]
  simp only [bind_eq_ok_iff, pure, Except.pure, Except.ok.injEq]
  constructor
  · rintro ⟨node', hn, later, hl, h⟩
    exact ⟨node', later, hn, hl, h.symm⟩
  · rintro ⟨node', later, hn, hl, h⟩
    exact ⟨node', hn, later, hl, h.symm⟩

/-- The second pass sets the edges of each node. -/
theorem linkNodes_eq_ok_iff {count : Nat} : ∀ {nodes : List (Node × Nat)} {index : Nat}
    {linked : List Node}, linkNodes isa count nodes index = .ok linked ↔
      linked.length = nodes.length ∧ ∀ i node argument node', nodes[i]? = some (node, argument) →
        linked[i]? = some node' → linkNode isa count (index + i) node argument = .ok node'
  | [], index, linked => by
    rw [linkNodes, Except.ok.injEq, List.length_nil, List.length_eq_zero_iff]
    constructor
    · rintro rfl
      exact ⟨rfl, by simp⟩
    · rintro ⟨h, -⟩
      exact h.symm
  | (node, argument) :: rest, index, linked => by
    rw [linkNodes_cons_eq_ok_iff]
    constructor
    · rintro ⟨node', later, hn, hl, rfl⟩
      obtain ⟨hlen, hlink⟩ := linkNodes_eq_ok_iff.mp hl
      refine ⟨by rw [List.length_cons, hlen, List.length_cons], fun i m a m' hi hi' => ?_⟩
      cases i with
      | zero =>
        simp only [List.getElem?_cons_zero, Option.some.injEq, Prod.mk.injEq] at hi hi'
        obtain ⟨rfl, rfl⟩ := hi
        rw [← hi']
        exact hn
      | succ i =>
        have h := hlink i m a m' hi hi'
        rwa [Nat.add_assoc, Nat.add_comm 1] at h
    · rintro ⟨hlen, hlink⟩
      obtain ⟨node', later, rfl⟩ := List.exists_cons_of_length_eq_add_one hlen
      refine ⟨node', later, hlink 0 node argument node' rfl rfl, ?_, rfl⟩
      refine linkNodes_eq_ok_iff.mpr ⟨Nat.succ.inj hlen, fun i m a m' hi hi' => ?_⟩
      rw [Nat.add_assoc, Nat.add_comm 1]
      exact hlink (i + 1) m a m' hi hi'

theorem exists_linkNodes {count : Nat} : ∀ (nodes : List (Node × Nat)) (index : Nat),
    (∀ i node argument, nodes[i]? = some (node, argument) →
      ∃ node', linkNode isa count (index + i) node argument = .ok node') →
    ∃ linked, linkNodes isa count nodes index = .ok linked
  | [], _, _ => ⟨[], rfl⟩
  | (node, argument) :: rest, index, hlink => by
    obtain ⟨node', hn⟩ := hlink 0 node argument rfl
    obtain ⟨later, hl⟩ := exists_linkNodes rest (index + 1)
      fun i m a hi => by
        rw [Nat.add_assoc, Nat.add_comm 1]
        exact hlink (i + 1) m a hi
    exact ⟨_, linkNodes_cons_eq_ok_iff.mpr ⟨node', later, hn, hl, rfl⟩⟩

/-! ### One unit -/

theorem readNode_fields {word : Word} {argument offset : Nat} {node : Node}
    (h : readNode isa pools word argument offset = .ok node) :
    node.opcode = word.opcode ∧ node.offset = some offset ∧ node.successor = none ∧
      node.branch = none := by
  simp only [readNode, readOperand] at h
  split at h
  · split at h
    · obtain rfl := Except.ok.inj h
      exact ⟨rfl, rfl, rfl, rfl⟩
    · split at h
      · obtain rfl := Except.ok.inj h
        exact ⟨rfl, rfl, rfl, rfl⟩
      · cases h
  · obtain rfl := Except.ok.inj h
    exact ⟨rfl, rfl, rfl, rfl⟩

/-- What a node that is read of a unit has for an operand. -/
inductive ReadAs (isa : InstructionSet) (pools : Pools) (word : Word) (argument : Nat)
    (node : Node) : Prop
  /-- An entry of a pool, with its index for a hint and the flags beside it. -/
  | entry (pool : PoolKind) (hindexes : isa.Indexes word.opcode)
    (hpool : poolOf? (isa.info word.opcode).operand = some pool)
    (hentry : entry? pools pool ((isa.info word.opcode).packing.split argument).1 =
      some node.operand)
    (hhint : node.poolHint = some ((isa.info word.opcode).packing.split argument).1)
    (hflags : node.operandFlags = ((isa.info word.opcode).packing.split argument).2)
  | plain (hargument : (isa.flags word.opcode).hasArgument = true)
    (hpool : poolOf? (isa.info word.opcode).operand = none)
    (hoperand : node.operand = plainOperand (isa.info word.opcode).operand argument)
  | nothing (hargument : (isa.flags word.opcode).extension = false →
      (isa.flags word.opcode).hasArgument = false)
    (hoperand : node.operand = .none)

theorem readAs_of_readNode {word : Word} {argument offset : Nat} {node : Node}
    (h : readNode isa pools word argument offset = .ok node) :
    ReadAs isa pools word argument node := by
  unfold readNode at h
  dsimp only at h
  split at h
  · rename_i hread
    obtain ⟨hext, hargument⟩ : (isa.flags word.opcode).extension = false ∧
        (isa.flags word.opcode).hasArgument = true := by
      unfold InstructionSet.flags
      simpa using hread
    unfold readOperand at h
    cases hpool : poolOf? (isa.info word.opcode).operand with
    | some pool =>
      simp only [hpool] at h
      split at h
      · rename_i operand hentry
        obtain rfl := Except.ok.inj h
        exact .entry pool ⟨hext, hargument, by rw [hpool]; rfl⟩ hpool hentry rfl rfl
      · cases h
    | none =>
      simp only [hpool] at h
      obtain rfl := Except.ok.inj h
      exact .plain hargument hpool rfl
  · rename_i hread
    obtain rfl := Except.ok.inj h
    refine .nothing (fun hext => ?_) rfl
    unfold InstructionSet.flags at hext ⊢
    simpa [hext] using hread

/-- The edges of a unit: to the next unit, if there has to be one, and to where its jump
lands, if it is one. -/
theorem linkNode_eq_ok_iff {count index argument : Nat} {node node' : Node} :
    linkNode isa count index node argument = .ok node' ↔
      (node.fallsThrough isa = true → index + 1 < count) ∧
      (node.isJump isa = true →
        (jumpTarget? isa (node.flags isa) argument (index * 2) (count * 2)).isSome) ∧
      node' = { node with
        successor := if node.fallsThrough isa then some (index + 1) else none
        branch := if node.isJump isa then
          jumpTarget? isa (node.flags isa) argument (index * 2) (count * 2) else none } := by
  rw [linkNode, Node.fallsThrough, Node.isJump]
  cases hf : (node.flags isa).fallsThrough <;> cases hj : (node.flags isa).isJump <;>
    cases ht : jumpTarget? isa (node.flags isa) argument (index * 2) (count * 2) <;>
    by_cases hlt : index + 1 < count <;> simp [hlt, bind, Except.bind, pure, Except.pure, eq_comm]

/-! ### The whole stream -/

/-- The graph is what the units are read as, one node each. -/
structure Reads (isa : InstructionSet) (words : List Word) (pools : Pools) (g : Graph) : Prop where
  size_eq : g.size = words.length
  narrow : ∀ a ∈ folded isa words 0, a < UInt32.size
  unit : ∀ k word argument, words[k]? = some word → (folded isa words 0)[k]? = some argument →
    ∃ node, readNode isa pools word argument (2 * k) = .ok node ∧
      linkNode isa words.length k node argument = .ok (g.node k)

theorem node_mk (nodes : List Node) (k : Nat) :
    (⟨nodes.toArray⟩ : Graph).node k = nodes[k]?.getD default := by
  rw [Graph.node, Array.getD_eq_getD_getElem?, List.getElem?_toArray]

/-- The units say which graph it is. -/
theorem Reads.unique {words : List Word} {g h : Graph} (hg : Reads isa words pools g)
    (hh : Reads isa words pools h) : g = h := by
  have hnode : ∀ k < words.length, g.node k = h.node k := by
    intro k hk
    have hw : words[k]? = some words[k] := List.getElem?_eq_getElem hk
    have ha := List.getElem?_eq_getElem (l := folded isa words 0) (by rwa [length_folded])
    obtain ⟨node, hread, hlink⟩ := hg.unit k _ _ hw ha
    obtain ⟨node', hread', hlink'⟩ := hh.unit k _ _ hw ha
    obtain rfl : node = node' := Except.ok.inj (hread.symm.trans hread')
    exact Except.ok.inj (hlink.symm.trans hlink')
  have hsize : g.size = h.size := hg.size_eq.trans hh.size_eq.symm
  obtain ⟨nodes⟩ := g
  obtain ⟨nodes'⟩ := h
  congr 1
  refine Array.ext hsize fun k hk hk' => ?_
  have hat := hnode k (hg.size_eq ▸ hk)
  simpa [Graph.node, hk, hk'] using hat

theorem exists_passes {words : List Word} (hnarrow : ∀ a ∈ folded isa words 0, a < UInt32.size)
    (hunit : ∀ k word argument, words[k]? = some word →
      (folded isa words 0)[k]? = some argument → ∃ node node',
        readNode isa pools word argument (2 * k) = .ok node ∧
        linkNode isa words.length k node argument = .ok node') : ∃ nodes linked,
    readNodes isa pools words 0 0 = .ok nodes ∧ linkNodes isa nodes.length nodes 0 = .ok linked := by
  obtain ⟨nodes, hn⟩ := exists_readNodes words 0 0 hnarrow fun i word argument hw ha => by
    obtain ⟨node, -, hread, -⟩ := hunit i word argument hw ha
    exact ⟨node, by rwa [Nat.zero_add]⟩
  obtain ⟨hmap, -, hread⟩ := readNodes_eq_ok_iff.mp hn
  have hlen : nodes.length = words.length := length_readNodes isa pools words 0 0 hn
  -- the second pass is given what the first one read
  obtain ⟨linked, hl⟩ := exists_linkNodes nodes 0 fun i node argument hi => by
    obtain ⟨hlt, -⟩ := List.getElem?_eq_some_iff.mp hi
    have hw : words[i]? = some words[i] := List.getElem?_eq_getElem (hlen ▸ hlt)
    have ha : (folded isa words 0)[i]? = some argument := by
      rw [← hmap, List.getElem?_map, hi]
      rfl
    obtain ⟨node₁, node', hread₁, hlink⟩ := hunit i words[i] argument hw ha
    have hsame := hread i words[i] node argument hw hi
    rw [Nat.zero_add, hread₁] at hsame
    obtain rfl := Except.ok.inj hsame
    rw [← hlen] at hlink
    exact ⟨node', by rwa [Nat.zero_add]⟩
  exact ⟨nodes, linked, hn, hl⟩

theorem reads_of_passes {words : List Word} {nodes : List (Node × Nat)} {linked : List Node}
    (hn : readNodes isa pools words 0 0 = .ok nodes)
    (hl : linkNodes isa nodes.length nodes 0 = .ok linked) :
    Reads isa words pools ⟨linked.toArray⟩ := by
  obtain ⟨hmap, hall, hread⟩ := readNodes_eq_ok_iff.mp hn
  obtain ⟨hlen', hlink⟩ := linkNodes_eq_ok_iff.mp hl
  have hlen : nodes.length = words.length := length_readNodes isa pools words 0 0 hn
  refine ⟨by simp [Graph.size, hlen', hlen], hall, fun k word argument hw ha => ?_⟩
  rw [← hmap, List.getElem?_map, Option.map_eq_some_iff] at ha
  obtain ⟨⟨node, argument⟩, hk, rfl⟩ := ha
  obtain ⟨hlt, -⟩ := List.getElem?_eq_some_iff.mp hk
  have hlinked : linked[k]? = some linked[k] := List.getElem?_eq_getElem (hlen' ▸ hlt)
  refine ⟨node, by simpa using hread k word node argument hw hk, ?_⟩
  rw [node_mk, hlinked, Option.getD_some, ← hlen]
  simpa using hlink k node argument linked[k] hk hlinked

theorem reads_iff {words : List Word} {g : Graph} : Reads isa words pools g ↔
    ∃ nodes linked, readNodes isa pools words 0 0 = .ok nodes ∧
      linkNodes isa nodes.length nodes 0 = .ok linked ∧ g = ⟨linked.toArray⟩ := by
  constructor
  · intro h
    obtain ⟨nodes, linked, hn, hl⟩ := exists_passes h.narrow fun k word argument hw ha => by
      obtain ⟨node, hread, hlink⟩ := h.unit k word argument hw ha
      exact ⟨node, g.node k, hread, hlink⟩
    exact ⟨nodes, linked, hn, hl, h.unique (reads_of_passes hn hl)⟩
  · rintro ⟨nodes, linked, hn, hl, rfl⟩
    exact reads_of_passes hn hl

/-- **Which streams are read as which graphs.** -/
theorem decode_eq_ok_iff {code : List UInt8} {g : Graph} : decode isa code pools = .ok g ↔
    ∃ words, words ≠ [] ∧ code = words.flatMap Word.toBytes ∧ Reads isa words pools g := by
  have hpairs : ∀ pairs : List (UInt8 × UInt8),
      (pairs.map Word.ofPair).flatMap Word.toBytes = pairs.flatMap fun p => [p.1, p.2] := by
    intro pairs
    rw [List.flatMap_map]
    rfl
  constructor
  · intro h
    unfold decode at h
    split at h
    · cases h
    · cases h
    · rename_i pairs hne hp
      obtain ⟨nodes, hn, h⟩ := bind_eq_ok_iff.mp h
      obtain ⟨linked, hl, h⟩ := bind_eq_ok_iff.mp h
      refine ⟨pairs.map Word.ofPair, ?_, ?_, reads_iff.mpr ⟨nodes, linked, hn, hl, ?_⟩⟩
      · rw [Ne, List.map_eq_nil_iff]
        exact fun h => hne h
      · rw [hpairs, Record.readAll_two_eq_ok_iff.mp hp]
      · exact (Except.ok.inj h).symm
  · rintro ⟨words, hne, rfl, hreads⟩
    obtain ⟨nodes, linked, hn, hl, rfl⟩ := reads_iff.mp hreads
    obtain ⟨pairs, rfl⟩ : ∃ pairs : List (UInt8 × UInt8), words = pairs.map Word.ofPair :=
      ⟨words.map fun w => (w.opcode.number, w.arg), by rw [List.map_map]; exact (List.map_id words).symm⟩
    rw [decode, Record.readAll_two_eq_ok_iff.mpr (hpairs pairs)]
    cases pairs with
    | nil => exact absurd rfl hne
    | cons p pairs =>
      rw [List.map_cons] at hn
      simp only [List.map_cons, hn, hl, bind, Except.bind, pure, Except.pure]

end Stream

end Wordcode
